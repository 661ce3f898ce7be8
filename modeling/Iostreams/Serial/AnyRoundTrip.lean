import Iostreams.Serial.AnyRegistry
import Iostreams.Serial.BitWire
import Iostreams.Serial.StreamBits

/-!
# `std::any` on the kinds of `Serial`

`AnyRoundTrips wire bare` is the purpose of the registry on one kind of `Serial`: a value
of a registered type is written so that the registry, and every registry obtained from it
without naming the type again, reads it back, if the functions the type was registered
with do so for the bare value, which starts on a wire of its own.

It holds on a buffer and on a string stream.  On a bit stream the flag is a single bit, and
the name a block: over a buffer the two are read back only where the flag completes a byte
on both sides, and over a string stream the name is not written (`worksOnStream_iff`).
-/

namespace Iostreams

open Foundation

namespace AnyRegistry

/-- Values of registered types are read back.  The encoding fits wherever a flag, the name and
the bare value do. -/
def AnyRoundTrips {β γ ι : Type} [Streambuf β] [Streambuf γ] (wire bareWire : Wire β γ ι)
    (depth : Nat) : Prop :=
  ∀ (τ : Type) [DecidableEq τ] (V : τ → Type) (history more : List (Registration V β γ))
    (type : τ) (serFunc : AnySerialize V β) (deserFunc : AnyDeserialize V β γ)
    (stableName : List UInt8) (item : V type) (bare : List ι),
    (empty.registerAll history).serializers.lookup type = some serFunc →
    (empty.registerAll history).deserializers.lookup type = some deserFunc →
    (empty.registerAll history).typeToStableName.lookup type = some stableName →
    (∀ call ∈ more, call.type ≠ type) →
    RoundTripsAs bareWire serFunc deserFunc (some ⟨type, item⟩) bare →
    ∃ code, (∀ s, wire.Ready s (wire.flag true ++ (wire.string stableName ++ bare)) →
        wire.Ready s code) ∧
      RoundTripsAs wire ((empty.registerAll history).serialize depth)
        (((empty.registerAll history).registerAll more).deserialize depth)
        (some ⟨type, item⟩) code

theorem anyRoundTrips {β γ ι : Type} [Streambuf β] [Streambuf γ] {wire named bareWire : Wire β γ ι}
    {depth : Nat} (hheads : wire.Heads named bareWire depth) :
    AnyRoundTrips wire bareWire depth := by
  intro τ _ V history more type serFunc deserFunc stableName item bare hser hdeser hname hother
    hpair
  exact ⟨_, fun _ => id, roundTripsAs_any hheads (coherent_empty.registerAll history) hser hdeser
    hname hother hpair⟩

/-- The functions that `ANY_REGISTRY__REGISTER_TYPE` registers for a type with these operators;
the local `TYPE value;` is part of `get`. -/
def ofOperators {τ : Type} [DecidableEq τ] {V : τ → Type} {β γ : Type} (type : τ)
    (stableName : List UInt8) (put : V type → Serial β → Except Halt (Serial β))
    (get : Reader β γ → Except Halt (V type × Reader β γ)) : Registration V β γ where
  type := type
  stableName := stableName
  serFunc any s :=
    match any with
    | some ⟨held, item⟩ =>
        if hheld : held = type then put (hheld ▸ item) s
        else .error (.exception "bad any_cast")
    | none => .error (.exception "bad any_cast")
  deserFunc any r := do
    let (item, r) ← get r
    if r.serial.lastDidNotReadWholeSize then
      .ok (any, r)
    else
      .ok (some ⟨type, item⟩, r)

variable {β γ ι : Type}

theorem ofOperators_serFunc {τ : Type} [DecidableEq τ] {V : τ → Type} {type : τ}
    {stableName : List UInt8} {put : V type → Serial β → Except Halt (Serial β)}
    {get : Reader β γ → Except Halt (V type × Reader β γ)} (item : V type) :
    (ofOperators type stableName put get).serFunc (some ⟨type, item⟩) = put item := by
  funext s
  simp [ofOperators]

/-- The functions round-trip where the operators do and leave no size mismatch behind. -/
theorem ofOperators_roundTripsAs {τ : Type} [DecidableEq τ] {V : τ → Type} {wire : Wire β γ ι}
    {type : τ} {stableName : List UInt8} {put : V type → Serial β → Except Halt (Serial β)}
    {get : Reader β γ → Except Halt (V type × Reader β γ)} {item : V type} {code : List ι}
    (hputs : wire.Puts (put item) code) (hgets : wire.Gets get code item)
    (hflag : ∀ r r', wire.Before r code → wire.Consumed r code r' →
      r'.serial.lastDidNotReadWholeSize = false) :
    RoundTripsAs wire (ofOperators type stableName put get).serFunc
      (ofOperators type stableName put get).deserFunc (some ⟨type, item⟩) code := by
  refine ⟨?_, fun target r hbefore => ?_⟩
  · rw [ofOperators_serFunc]
    exact hputs
  · obtain ⟨r', hget, hconsumed⟩ := hgets r hbefore
    have hclear := hflag r r' hbefore hconsumed
    refine ⟨r', ?_, hconsumed⟩
    simp only [ofOperators, hget, ok_bind, hclear, Bool.false_eq_true, if_false]

/-- One registration in an empty registry. -/
theorem lookup_single {τ : Type} [DecidableEq τ] {V : τ → Type} (call : Registration V β γ) :
    (empty.registerAll [call]).serializers.lookup call.type = some call.serFunc ∧
      (empty.registerAll [call]).deserializers.lookup call.type = some call.deserFunc ∧
      (empty.registerAll [call]).typeToStableName.lookup call.type = some call.stableName := by
  have hfree : call.stableName ∉ (empty : AnyRegistry V β γ).stableNameToType :=
    Finmap.notMem_empty
  rw [registerAll, List.foldl_cons, List.foldl_nil, registerType_free hfree]
  exact ⟨Finmap.lookup_insert _, Finmap.lookup_insert _, Finmap.lookup_insert _⟩

/-- A type without content, which transfers nothing. -/
def emptyRegistration (β γ : Type) : Registration (fun _ : Unit => Unit) β γ :=
  ofOperators () [] (fun _ s => .ok s) fun r => .ok ((), r)

/-- Nothing is transferred at every alignment. -/
theorem empty_roundTripsAs {wire : Wire β γ ι}
    (hwrote : ∀ s, wire.Ready s [] → wire.Wrote s [] s)
    (hconsumed : ∀ r, wire.Before r [] → wire.Consumed r [] r)
    (hclear : ∀ r r', wire.Before r [] → wire.Consumed r [] r' →
      r'.serial.lastDidNotReadWholeSize = false) :
    RoundTripsAs wire (emptyRegistration β γ).serFunc (emptyRegistration β γ).deserFunc
      (some ⟨(), ()⟩) [] :=
  ofOperators_roundTripsAs (fun s hready => ⟨s, rfl, hwrote s hready⟩)
    (fun r hbefore => ⟨r, rfl, hconsumed r hbefore⟩) hclear

end AnyRegistry

namespace Serial

variable {β γ : Type} [Streambuf β] [Streambuf γ]

/-! ## A bit stream over a buffer -/

/-- `bool` registered under its name. -/
def boolRegistration (β γ : Type) [Streambuf β] [Streambuf γ] (depth : Nat) :
    Registration (fun _ : Unit => Bool) β γ :=
  AnyRegistry.ofOperators () [98, 111, 111, 108] (putBool depth) (Reader.getBool depth)

/-- A bare boolean is a bit, at every alignment. -/
theorem bool_roundTripsAs (pending unread : Fin 8) (depth : Nat) (flag : Bool) :
    AnyRegistry.RoundTripsAs (bufferBits β γ pending unread)
      (boolRegistration β γ (depth + 4)).serFunc (boolRegistration β γ (depth + 4)).deserFunc
      (some ⟨(), flag⟩) [flag] := by
  refine AnyRegistry.ofOperators_roundTripsAs (bufferBits_puts_flag pending unread depth flag)
    (bufferBits_gets_flag pending unread (depth + 2) flag) ?_
  rintro r r' - ⟨-, hreading', -⟩
  exact hreading'.bufferMode.noLastMismatch

omit [Streambuf β] [Streambuf γ] in
theorem empty_roundTripsAs_bufferBits (pending unread : Fin 8) :
    AnyRegistry.RoundTripsAs (bufferBits β γ pending unread)
      (AnyRegistry.emptyRegistration β γ).serFunc (AnyRegistry.emptyRegistration β γ).deserFunc
      (some ⟨(), ()⟩) [] := by
  apply AnyRegistry.empty_roundTripsAs
  · rintro s ⟨hwriting, -, -⟩
    show BitsWritten _ (s.pendingBits ++ []) s
    rw [List.append_nil]
    exact hwriting.bitsWritten
  · rintro r ⟨hnone, hreading, -, rest, hrest⟩
    exact ⟨hnone, hreading, rest, hrest, hrest⟩
  · rintro r r' - ⟨-, hreading', -⟩
    exact hreading'.bufferMode.noLastMismatch

/-- A registry that knows one type, without content and under the empty name. -/
def emptyRegistry (β γ : Type) [Streambuf β] [Streambuf γ] :
    AnyRegistry (fun _ : Unit => Unit) β γ :=
  AnyRegistry.empty.registerAll [AnyRegistry.emptyRegistration β γ]

/-- The length of the empty name. -/
theorem unpack_encodeString_nil : unpack (Ty.encodeString []) = List.replicate 64 false := by
  decide

theorem serialize_emptyRegistry {s s₁ : Serial β} {depth : Nat}
    (hflag : putBool (depth + 1) true s = .ok s₁) (hmode : s₁.BufferMode) (hroom : s₁.Room 8) :
    (emptyRegistry β γ).serialize (depth + 1) (some ⟨(), ()⟩) s =
      .ok (s₁.stored (Ty.encodeString [])) := by
  obtain ⟨hser, -, hname⟩ := AnyRegistry.lookup_single (AnyRegistry.emptyRegistration β γ)
  have hstring : serializeString (depth + 1)
      (AnyRegistry.emptyRegistration β γ).stableName s₁ = .ok (s₁.stored (Ty.encodeString [])) :=
    serializeString_buffer depth hmode hroom
  rw [emptyRegistry, AnyRegistry.serialize_eq hser hname]
  simp only [hflag, ok_bind, hstring]
  rfl

/-- A flag that does not complete a byte is overtaken by the name. -/
theorem serialize_overtaken {s : Serial β} (hwriting : s.BitWriting)
    (hshort : s.pendingBits.length < 7) (hroom : s.Room 8) (depth : Nat) :
    ∃ s', (emptyRegistry β γ).serialize (depth + 4) (some ⟨(), ()⟩) s = .ok s' ∧
      BitsWritten (s.withWriteBits 0 0) (List.replicate 64 false ++ (s.pendingBits ++ [true]))
        s' := by
  have hmode := bufferMode_withWriteBits hwriting.bufferMode 0 0
  have hbit : (s.pendingBits ++ [true]).length < 8 := by
    rw [List.length_append, List.length_singleton]
    omega
  have htotal : (s.withWriteBits 0 0).Room
      ((s.pendingBits ++ [true] ++ List.replicate 64 false).length / 8) := by
    apply Room.mono (show (s.withWriteBits 0 0).Room 8 from hroom)
    rw [List.length_append, List.length_replicate]
    omega
  obtain ⟨s₁, hflag, hwritten⟩ := writeOp_bitsWritten hmode hwriting.bitStream (.bool true)
    (htotal.mono (length_div_le_append _ _)) hwriting.bitsWritten depth
  have hroom₁ : s₁.Room 8 := by
    apply (hwritten.room htotal).mono
    rw [List.length_append, List.length_replicate]
    omega
  refine ⟨_, serialize_emptyRegistry hflag (hwritten.bitWriting hmode hwriting.bitStream).bufferMode
    hroom₁, ?_⟩
  rw [← unpack_encodeString_nil]
  exact hwritten.overtaken hbit (Ty.encodeString [])

theorem emptyRegistry_roundTripsAs (depth : Nat) :
    AnyRegistry.RoundTripsAs (bufferBits β γ 7 1) ((emptyRegistry β γ).serialize (depth + 4))
      ((emptyRegistry β γ).deserialize (depth + 4)) (some ⟨(), ()⟩)
      (true :: List.replicate 64 false) := by
  obtain ⟨hser, hdeser, hname⟩ := AnyRegistry.lookup_single (AnyRegistry.emptyRegistration β γ)
  have hnone : ∀ call ∈ ([] : List (Registration (fun _ : Unit => Unit) β γ)), call.type ≠ () :=
    nofun
  have htrips := AnyRegistry.roundTripsAs_any (bufferBits_heads depth)
    (AnyRegistry.coherent_empty.registerAll [AnyRegistry.emptyRegistration β γ]) hser hdeser hname
    hnone (empty_roundTripsAs_bufferBits 0 0)
  rw [← unpack_encodeString_nil, ← List.append_nil (unpack _)]
  exact htrips

/-- What writing the value amounts to, behind pending bits that are not set. -/
theorem code_emptyRegistry {pending unread : Fin 8} {code : List Bool} {depth : Nat}
    (hready : (bufferBits β γ pending unread).Ready
      (bitWriter (List.replicate 16 0) (List.replicate pending false)) code)
    (hputs : (bufferBits β γ pending unread).Puts
      ((emptyRegistry β γ).serialize (depth + 4) (some ⟨(), ()⟩)) code) :
    code = if pending = 7 then true :: List.replicate 64 false
      else List.replicate 64 false ++ [true] := by
  have hmemory : (List.replicate 16 (0 : UInt8)).length = 16 := List.length_replicate
  obtain ⟨s, hs⟩ : ∃ s : Serial β,
      s = bitWriter (List.replicate 16 0) (List.replicate pending false) := ⟨_, rfl⟩
  have hpending : s.pendingBits = List.replicate (pending : Nat) false := by
    rw [hs, pendingBits_bitWriter _ (by rw [List.length_replicate]; exact pending.isLt)]
  have hroom (count : Nat) (hcount : count ≤ 16) : s.Room count := by
    rw [hs]
    refine ⟨Int.le_refl 0, ?_⟩
    show (0 : Int) + count ≤ (List.replicate 16 (0 : UInt8)).length
    rw [hmemory]
    omega
  rw [← hs] at hready
  obtain ⟨s', hwrite, hwrote⟩ := hputs s hready
  have hfits : (s.withWriteBits 0 0).Room ((s.pendingBits ++ code).length / 8) := hready.2.2
  split
  · next hlast =>
      subst hlast
      obtain ⟨s'', hwrite', hwrote'⟩ := (emptyRegistry_roundTripsAs (γ := γ) depth).1 s
        ⟨hready.1, hready.2.1, hroom _ (by
          rw [List.length_append, List.length_cons, List.length_replicate, hpending,
            List.length_replicate]
          decide)⟩
      rw [hwrite] at hwrite'
      cases hwrite'
      exact List.append_cancel_left (hwrote.unique hfits hwrote')
  · next hother =>
      have hshort : s.pendingBits.length < 7 := by
        rw [hpending, List.length_replicate]
        omega
      obtain ⟨s'', hwrite', hwrote'⟩ :=
        serialize_overtaken (γ := γ) hready.1 hshort (hroom 8 (by omega)) depth
      rw [hwrite] at hwrite'
      cases hwrite'
      have hsame := hwrote.unique hfits hwrote'
      rw [← List.append_assoc, hpending, List.replicate_append_replicate, Nat.add_comm,
        ← List.replicate_append_replicate, List.append_assoc] at hsame
      exact List.append_cancel_left hsame

omit [Streambuf β] [Streambuf γ] in
/-- A reader before some bits. -/
theorem before_bitReader {pending unread : Fin 8} {code : List Bool} (hlong : 8 ≤ code.length)
    (hsize : code.length < 2 ^ 63) {front back : List Bool} (hsplit : code = front ++ back) :
    (bufferBits β γ pending unread).Before ⟨bitReader unread code, none⟩ front := by
  have hunread := unread.isLt
  refine ⟨rfl, bitReading_bitReader hsize unread, ?_, back ++ padding (code.length - unread), ?_⟩
  · show (bitReader unread code : Serial β).currentBits.length = unread
    rw [currentBits_bitReader hunread (by omega), List.length_take]
    omega
  · show unreadBits (bitReader unread code : Serial β) = _
    rw [unreadBits_bitReader hunread (by omega), ← List.append_assoc, ← hsplit]

/-- The flag that is read is a bit of the name. -/
theorem not_gets_overtaken (pending unread : Fin 8) (depth : Nat) :
    ¬(bufferBits β γ pending unread).Gets ((emptyRegistry β γ).deserialize (depth + 2) none)
      (List.replicate 64 false ++ [true]) (some ⟨(), ()⟩) := by
  intro hgets
  have hbefore : (bufferBits β γ pending unread).Before
      ⟨bitReader unread (List.replicate 64 false ++ [true]), none⟩
      (List.replicate 64 false ++ [true]) :=
    before_bitReader (by simp) (by simp) (List.append_nil _).symm
  obtain ⟨r', hread, -⟩ := hgets _ hbefore
  obtain ⟨-, hreading, -, rest, hunread⟩ := hbefore
  rw [List.replicate_succ, List.cons_append, List.cons_append] at hunread
  obtain ⟨s₁, hflag, hreading₁, -⟩ := getBool_unread hreading hunread depth
  have hclear : s₁.lastDidNotReadWholeSize = false := hreading₁.bufferMode.noLastMismatch
  simp only [AnyRegistry.deserialize, hflag, ok_bind, hclear, Bool.false_eq_true, if_false,
    Bool.not_false, if_true] at hread
  cases hread

/-- Behind a flag that does not complete the reader's byte, a length is read that no name has. -/
theorem not_gets_behind {pending unread : Fin 8} (hunread : unread ≠ 1) (depth : Nat) :
    ¬(bufferBits β γ pending unread).Gets ((emptyRegistry β γ).deserialize (depth + 2) none)
      (true :: List.replicate 64 false) (some ⟨(), ()⟩) := by
  intro hgets
  obtain ⟨code, hcode⟩ : ∃ code,
      code = true :: (List.replicate 64 false ++ List.replicate 7 true) := ⟨_, rfl⟩
  have hlength : code.length = 72 := by
    rw [hcode]
    simp
  obtain ⟨r', hread, -⟩ := hgets _ (before_bitReader (by omega) (by omega) hcode)
  have hbefore : (bufferBits β γ pending unread).Before ⟨bitReader unread code, none⟩ code :=
    before_bitReader (by omega) (by omega) (List.append_nil _).symm
  obtain ⟨-, hreading, hcurrent, rest, hbits⟩ := hbefore
  rw [hcode, List.cons_append, List.append_assoc, ← hcode] at hbits
  obtain ⟨s₁, hflag, hreading₁, hunread₁⟩ := getBool_unread hreading hbits depth
  -- the reader is not at a byte boundary
  have hbehind : s₁.currentBits.length ≠ 0 := by
    have hmod := unreadBits_length_mod hreading
    have hmod₁ := unreadBits_length_mod hreading₁
    rw [hcurrent, hbits, List.length_cons, ← hunread₁] at hmod
    intro hzero
    exact hunread (Fin.ext (by
      show (unread : Nat) = 1
      omega))
  have hthrows := deserializeString_throws (γ := γ) hreading₁ hbehind hunread₁ (depth + 1)
  have hclear : s₁.lastDidNotReadWholeSize = false := hreading₁.bufferMode.noLastMismatch
  simp only [AnyRegistry.deserialize, hflag, ok_bind, hclear, Bool.false_eq_true, if_false,
    Bool.not_true, hthrows] at hread
  cases hread

/-- A writer with fewer than seven pending bits, or a reader that is not at the last bit of its
byte. -/
theorem not_anyRoundTrips_bufferBits {pending unread : Fin 8}
    (hinside : ¬(pending = 7 ∧ unread = 1)) (depth : Nat) :
    ¬AnyRegistry.AnyRoundTrips (bufferBits β γ pending unread)
      (bufferBits β γ (pending + 1) (unread - 1)) (depth + 4) := by
  intro htrips
  obtain ⟨hser, hdeser, hname⟩ := AnyRegistry.lookup_single (AnyRegistry.emptyRegistration β γ)
  obtain ⟨code, hfits, hputs, hgets⟩ := htrips Unit (fun _ => Unit) _ [] () _ _ _ () [] hser hdeser
    hname nofun (empty_roundTripsAs_bufferBits _ _)
  have hpending : (List.replicate (pending : Nat) false).length < 8 := by
    rw [List.length_replicate]
    exact pending.isLt
  have hready : (bufferBits β γ pending unread).Ready
      (bitWriter (List.replicate 16 0) (List.replicate pending false)) code := by
    refine hfits _ ⟨bitWriting_bitWriter (by simp) hpending, ?_, Int.le_refl 0, ?_⟩
    · show (List.replicate (pending : Nat) false).length = pending
      exact List.length_replicate
    · rw [pendingBits_bitWriter _ hpending]
      have hempty : (AnyRegistry.emptyRegistration β γ).stableName = [] := rfl
      simp only [bufferBits, hempty, unpack_encodeString_nil, List.length_append,
        List.length_replicate, List.length_singleton, List.length_nil]
      show (0 : Int) + ((_ : Nat) : Int) ≤ ((List.replicate 16 (0 : UInt8)).length : Nat)
      rw [List.length_replicate]
      omega
  have hcode := code_emptyRegistry hready hputs
  by_cases hlast : pending = 7
  · rw [if_pos hlast] at hcode
    rw [hcode] at hgets
    exact not_gets_behind (fun hunread => hinside ⟨hlast, hunread⟩) (depth + 2) (hgets none)
  · rw [if_neg hlast] at hcode
    rw [hcode] at hgets
    exact not_gets_overtaken pending unread (depth + 2) (hgets none)

/-! ## A bit stream over a string stream -/

/-- The bits a reader has not delivered. -/
def bitsOnStream (s : Serial Stringbuf) : List Bool :=
  s.currentBits ++ unpack ((s.readStream.map fun io => io.rdbuf.unread).getD [])

/-- Bits on a string stream, for a writer with so many pending bits and a reader with so many
unread ones: whole bytes are handed over, in blocks of any size. -/
def streamBits (γ : Type) (pending unread : Fin 8) : Wire Stringbuf γ Bool where
  Ready s _ := s.Backed ∧ s.writeStreamPointer = true ∧ s.bitsWrittenWriteByte = pending
  Wrote s code s' := ∃ io, ∃ blocks : List (List UInt8), ∃ whole pending,
    s.pendingBits ++ code = whole ++ pending ∧ 8 ∣ whole.length ∧
    blocks.flatten = pack whole ∧ s.stream = some io ∧
    s'.stream = some (blocks.foldl IOStream.write io) ∧ s'.pendingBits = pending
  Before r code := r.readBuffer.isNone ∧ r.serial.Backed ∧ r.serial.readStreamPointer = true ∧
    r.serial.lastDidNotReadWholeSize = false ∧ r.serial.currentBits.length = unread ∧
    ∃ rest, bitsOnStream r.serial = code ++ rest
  Consumed r code r' := r'.readBuffer.isNone ∧ r'.serial.lastDidNotReadWholeSize = false ∧
    ∃ rest, bitsOnStream r.serial = code ++ rest ∧ bitsOnStream r'.serial = rest
  flag flag := [flag]
  string str := unpack (Ty.encodeString str)

omit [Streambuf β] [Streambuf γ] in
theorem empty_roundTripsAs_streamBits (pending unread : Fin 8) :
    AnyRegistry.RoundTripsAs (streamBits γ pending unread)
      (AnyRegistry.emptyRegistration Stringbuf γ).serFunc
      (AnyRegistry.emptyRegistration Stringbuf γ).deserFunc (some ⟨(), ()⟩) [] := by
  apply AnyRegistry.empty_roundTripsAs
  · rintro s ⟨hbacked, -, -⟩
    obtain ⟨io, hio⟩ := Option.isSome_iff_exists.mp hbacked.stream
    exact ⟨io, [], [], s.pendingBits, List.append_nil _, Nat.dvd_zero 8, rfl, hio, hio, rfl⟩
  · rintro r ⟨hnone, -, -, hclear, -, rest, hrest⟩
    exact ⟨hnone, hclear, rest, hrest, hrest⟩
  · rintro r r' - ⟨-, hclear, -⟩
    exact hclear

/-- Writing the name does not return. -/
theorem not_anyRoundTrips_streamBits (pending unread : Fin 8) (depth : Nat) :
    ¬AnyRegistry.AnyRoundTrips (streamBits γ pending unread)
      (streamBits γ (pending + 1) (unread - 1)) depth := by
  intro htrips
  obtain ⟨hser, hdeser, hname⟩ := AnyRegistry.lookup_single
    (AnyRegistry.emptyRegistration Stringbuf γ)
  obtain ⟨code, hfits, hputs, -⟩ := htrips Unit (fun _ => Unit) _ [] () _ _ _ () []
    hser hdeser hname nofun (empty_roundTripsAs_streamBits _ _)
  obtain ⟨s, hs⟩ : ∃ s : Serial Stringbuf,
      s = (overStream { rdbuf := Stringbuf.ofString [] } true true).withWriteBits 0 pending :=
    ⟨_, rfl⟩
  have hbacked : s.Backed := by
    rw [hs]
    exact (backed_overStream _ true true).withWriteBits 0 pending
  have hpointer : s.writeStreamPointer = true := by
    rw [hs]
    rfl
  obtain ⟨s', hwrite, -⟩ := hputs s (hfits _ ⟨hbacked, hpointer, by rw [hs]; rfl⟩)
  rw [AnyRegistry.serialize_eq hser hname] at hwrite
  cases hflag : putBool depth true s with
  | error halt =>
      simp only [hflag] at hwrite
      cases hwrite
  | ok s₁ =>
      have hbit : writeBit depth s true = .ok s₁ := by
        simpa [putBool, hbacked.bitStream] using hflag
      obtain ⟨-, rfl⟩ := writeBit_backed hbacked hpointer hbit
      have hstuck := serializeString_outOfFuel (s := s.putWriteBit true)
        (hbacked.withWriteBits _ _) hpointer depth
        (AnyRegistry.emptyRegistration Stringbuf γ).stableName
      simp only [hflag, ok_bind, hstuck] at hwrite
      cases hwrite

end Serial

/-! ## The registry on every kind of `Serial` -/

namespace AnyRegistry

open Serial

/-- The bit mode of a `Serial`: none, or a bit stream with so many pending bits in the writer and
so many unread bits in the reader's current byte. -/
inductive BitMode where
  | plain
  | bits (pending unread : Fin 8)
  deriving DecidableEq

/-- Values of registered types are read back over a buffer; the flag is one bit of a bit stream. -/
def BufferRoundTrips (β γ : Type) [Streambuf β] [Streambuf γ] (depth : Nat) : BitMode → Prop
  | .plain => AnyRoundTrips (bufferBytes β γ) (bufferBytes β γ) depth
  | .bits pending unread =>
      AnyRoundTrips (bufferBits β γ pending unread) (bufferBits β γ (pending + 1) (unread - 1))
        depth

/-- Values of registered types are read back over a string stream. -/
def StreamRoundTrips (γ : Type) [Streambuf γ] (depth : Nat) : BitMode → Prop
  | .plain => AnyRoundTrips (streamBytes γ) (streamBytes γ) depth
  | .bits pending unread =>
      AnyRoundTrips (streamBits γ pending unread) (streamBits γ (pending + 1) (unread - 1)) depth

theorem bufferRoundTrips_iff (β γ : Type) [Streambuf β] [Streambuf γ] (depth : Nat)
    (mode : BitMode) :
    BufferRoundTrips β γ (depth + 4) mode ↔ mode = .plain ∨ mode = .bits 7 1 := by
  cases mode with
  | plain => exact iff_of_true (anyRoundTrips (bufferBytes_frames (depth + 2)).heads) (Or.inl rfl)
  | bits pending unread =>
      by_cases hboundary : pending = 7 ∧ unread = 1
      · obtain ⟨rfl, rfl⟩ := hboundary
        exact iff_of_true (anyRoundTrips (bufferBits_heads depth)) (Or.inr rfl)
      · refine iff_of_false (not_anyRoundTrips_bufferBits hboundary depth) ?_
        rintro (hplain | hbits)
        · cases hplain
        · cases hbits
          exact hboundary ⟨rfl, rfl⟩

theorem streamRoundTrips_iff (γ : Type) [Streambuf γ] (depth : Nat) (mode : BitMode) :
    StreamRoundTrips γ (depth + 4) mode ↔ mode = .plain := by
  cases mode with
  | plain => exact iff_of_true (anyRoundTrips (streamBytes_frames (depth + 2)).heads) rfl
  | bits pending unread =>
      exact iff_of_false (not_anyRoundTrips_streamBits pending unread (depth + 4)) nofun

/-- **The registry of `std::any`.**  After every history of registrations the four maps are
coherent.  Values of registered types are read back over a buffer exactly if the `Serial` is no
bit stream, or the flag completes the byte of its writer and the byte of its reader, and over a
string stream exactly if it is no bit stream. -/
theorem registry_roundTrips_iff {τ : Type} [DecidableEq τ] {V : τ → Type} (β γ : Type)
    [Streambuf β] [Streambuf γ] (history : List (Registration V β γ)) (depth : Nat)
    (mode : BitMode) :
    (empty.registerAll history).Coherent ∧
      (BufferRoundTrips β γ (depth + 4) mode ↔ mode = .plain ∨ mode = .bits 7 1) ∧
      (StreamRoundTrips γ (depth + 4) mode ↔ mode = .plain) :=
  ⟨coherent_empty.registerAll history, bufferRoundTrips_iff β γ depth mode,
    streamRoundTrips_iff γ depth mode⟩

/-- A boolean that holds `true`, written to a bit stream over 16 bytes: no value is read back,
although the bare boolean is read back at every alignment. -/
theorem not_registry_roundTrips :
    (∀ pending unread, RoundTripsAs (bufferBits Stringbuf Stringbuf pending unread)
      (boolRegistration Stringbuf Stringbuf 4).serFunc
      (boolRegistration Stringbuf Stringbuf 4).deserFunc (some ⟨(), true⟩) [true]) ∧
    (do
      let registry := empty.registerAll [boolRegistration Stringbuf Stringbuf 4]
      let s ← registry.serialize 4 (some ⟨(), true⟩) (ofBuffer (List.replicate 16 0) true)
      let s ← synchronize 4 s
      let (any, _) ← registry.deserialize 4 none ⟨ofBuffer s.bufferPointer true, none⟩
      Except.ok any) = .ok none := by
  refine ⟨fun pending unread => bool_roundTripsAs pending unread 0 true, ?_⟩
  decide +kernel

end AnyRegistry
end Iostreams
