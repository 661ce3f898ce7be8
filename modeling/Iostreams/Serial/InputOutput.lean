import Iostreams.Serial.BufferBounds
import Iostreams.Serial.Containers

/-!
# The input and the output part of a buffer

The operations of a `Serial` over a buffer share its fields, but each of them lives in
one of two parts: an input operation changes the input part and reads the memory, an
output operation changes the output part, to which the memory belongs.

`WritesApart` says of a writer that it does not look at the input part and changes
nothing below the write index.  Every output operation has its lemma, the values by
induction on their types.
-/

namespace Iostreams

open Foundation

namespace Serial

/-- The fields that input on a buffer changes. -/
structure InputPart where
  currentReadByte : UInt8
  bitsReadReadByte : Nat
  bufferReadIndex : Int

/-- The fields that output on a buffer changes. -/
structure OutputPart where
  currentWriteByte : UInt8
  bitsWrittenWriteByte : Nat
  bufferWriteIndex : Int
  bufferPointer : List UInt8

variable {β γ : Type}

def input (s : Serial β) : InputPart :=
  ⟨s.currentReadByte, s.bitsReadReadByte, s.bufferReadIndex⟩

def output (s : Serial β) : OutputPart :=
  ⟨s.currentWriteByte, s.bitsWrittenWriteByte, s.bufferWriteIndex, s.bufferPointer⟩

def withInput (s : Serial β) (part : InputPart) : Serial β :=
  { s with
    currentReadByte := part.currentReadByte
    bitsReadReadByte := part.bitsReadReadByte
    bufferReadIndex := part.bufferReadIndex }

def withOutput (s : Serial β) (part : OutputPart) : Serial β :=
  { s with
    currentWriteByte := part.currentWriteByte
    bitsWrittenWriteByte := part.bitsWrittenWriteByte
    bufferWriteIndex := part.bufferWriteIndex
    bufferPointer := part.bufferPointer }

@[simp] theorem withInput_input (s : Serial β) : s.withInput s.input = s := rfl

@[simp] theorem withOutput_output (s : Serial β) : s.withOutput s.output = s := rfl

/-- A `Serial` over a buffer and no streams, whose indices are not negative. -/
structure InBuffer (s : Serial β) : Prop where
  state : s.BufferState
  readIndex : 0 ≤ s.bufferReadIndex ∧ s.bufferReadIndex < 2 ^ 63
  writeIndex : 0 ≤ s.bufferWriteIndex ∧ s.bufferWriteIndex < 2 ^ 63
  noStreams : s.writeStreamPointer = false ∧ s.readStreamPointer = false

/-- Something was written: nothing below the old write index has changed. -/
structure OutputPart.Extends (part before : OutputPart) : Prop where
  marker : part.bitsWrittenWriteByte < 8
  index_le : before.bufferWriteIndex ≤ part.bufferWriteIndex
  index_lt : part.bufferWriteIndex < 2 ^ 63
  kept : part.bufferPointer.take before.bufferWriteIndex.toNat =
    before.bufferPointer.take before.bufferWriteIndex.toNat

/-- An input part that reads can go on from. -/
structure InputPart.Valid (part : InputPart) : Prop where
  marker : part.bitsReadReadByte ≤ 8
  index_nonneg : 0 ≤ part.bufferReadIndex
  index_lt : part.bufferReadIndex < 2 ^ 63

variable {s : Serial β} {part part' before : OutputPart}

theorem OutputPart.Extends.trans (hfirst : part.Extends before) (hsecond : part'.Extends part) :
    part'.Extends before := by
  refine ⟨hsecond.marker, hfirst.index_le.trans hsecond.index_le, hsecond.index_lt, ?_⟩
  have hle : before.bufferWriteIndex.toNat ≤ part.bufferWriteIndex.toNat :=
    Int.toNat_le_toNat hfirst.index_le
  have hkept := congrArg (List.take before.bufferWriteIndex.toNat) hsecond.kept
  rw [List.take_take, List.take_take, Nat.min_eq_left hle] at hkept
  exact hkept.trans hfirst.kept

theorem InBuffer.extends_output (hstate : s.InBuffer) : s.output.Extends s.output :=
  ⟨hstate.state.writeMarker, Int.le_refl _, hstate.writeIndex.2, rfl⟩

theorem InBuffer.withOutput (hstate : s.InBuffer) (hextends : part.Extends s.output) :
    (s.withOutput part).InBuffer :=
  ⟨⟨hstate.state.notCount, hstate.state.isBuffer, hstate.state.size_nonneg, hstate.state.size_lt,
    hstate.state.noOffset, hstate.state.readMarker, hextends.marker⟩, hstate.readIndex,
    ⟨Int.le_trans hstate.writeIndex.1 hextends.index_le, hextends.index_lt⟩, hstate.noStreams⟩

theorem InBuffer.withInput (hstate : s.InBuffer) {part : InputPart} (hvalid : part.Valid) :
    (s.withInput part).InBuffer :=
  ⟨⟨hstate.state.notCount, hstate.state.isBuffer, hstate.state.size_nonneg, hstate.state.size_lt,
    hstate.state.noOffset, hvalid.marker, hstate.state.writeMarker⟩,
    ⟨hvalid.index_nonneg, hvalid.index_lt⟩, hstate.writeIndex, hstate.noStreams⟩

theorem InBuffer.valid_input (hstate : s.InBuffer) : s.input.Valid :=
  ⟨hstate.state.readMarker, hstate.readIndex.1, hstate.readIndex.2⟩

/-! ## Writers -/

/-- A writer that does not look at the input part and changes nothing that was written before. -/
def WritesApart (put : Serial β → Except Halt (Serial β)) : Prop :=
  ∀ s, InBuffer s → ∃ part : OutputPart, part.Extends s.output ∧
    ∀ read, put (s.withInput read) = .ok ((s.withInput read).withOutput part)

theorem WritesApart.done : WritesApart (Except.ok : Serial β → Except Halt (Serial β)) :=
  fun s hstate => ⟨s.output, hstate.extends_output, fun _ => rfl⟩

/-- Two writers one after the other. -/
theorem WritesApart.bind {put next : Serial β → Except Halt (Serial β)} (hput : WritesApart put)
    (hnext : WritesApart next) : WritesApart fun s => put s >>= next := by
  intro s hstate
  rcases hput s hstate with ⟨part₁, hextends₁, hfirst⟩
  rcases hnext _ (hstate.withOutput hextends₁) with ⟨part₂, hextends₂, hsecond⟩
  refine ⟨part₂, hextends₁.trans hextends₂, fun read => ?_⟩
  show (put (s.withInput read) >>= next) = _
  rw [hfirst read, ok_bind]
  exact hsecond read

theorem writeEach_apart {α : Type} {write : Serial β → α → Except Halt (Serial β)}
    {items : List α} (hwrite : ∀ item ∈ items, WritesApart fun s => write s item) :
    WritesApart (writeEach write items) := by
  induction items with
  | nil => exact WritesApart.done
  | cons item rest ih =>
      have hrest := ih fun later hlater => hwrite later (List.mem_cons_of_mem _ hlater)
      exact (hwrite item List.mem_cons_self).bind hrest

section Writing

variable [Streambuf β]

/-- A block is stored at the write index, or dropped. -/
theorem writeBytes_apart {src : List UInt8} (hsrc : src.length < 2 ^ 63) (depth : Nat)
    (hstate : s.InBuffer) :
    ∃ part : OutputPart, part.Extends s.output ∧ ∀ read acc pending,
      writeBytes (depth + 1) ((s.withInput read).withWriteBits acc pending) src =
        .ok (toInt64 src.length, ((s.withInput read).withOutput part).withWriteBits acc pending)
      := by
  rcases hstate.writeIndex with ⟨hlow, hhigh⟩
  have htested (read : InputPart) (acc : UInt8) (pending : Nat) :=
    @writeBytes_tested _ _ ((s.withInput read).withWriteBits acc pending) hstate.state.notCount
      hstate.state.isBuffer depth src
  by_cases hpasses : PassesTest s.bufferWriteIndex s.bufferSize src.length
  · have hfits := (passesTest_iff hstate.state.size_nonneg hstate.state.size_lt hsrc).mp hpasses
    have hsize := hstate.state.size_lt
    have hnext : toInt64 (s.bufferWriteIndex + src.length) = s.bufferWriteIndex + src.length :=
      toInt64_of_bounds (by omega) (by omega)
    -- the block lies behind everything that was stored before
    refine ⟨{ s.output with
      bufferWriteIndex := toInt64 (s.bufferWriteIndex + src.length)
      bufferPointer := overwrite s.bufferPointer s.bufferWriteIndex.toNat src },
      ⟨hstate.state.writeMarker, ?_, ?_, take_overwrite _ _ _⟩, fun read acc pending => ?_⟩
    · show s.bufferWriteIndex ≤ toInt64 (s.bufferWriteIndex + src.length)
      omega
    · show toInt64 (s.bufferWriteIndex + src.length) < 2 ^ 63
      omega
    · exact (htested read acc pending).trans (if_pos hpasses)
  · exact ⟨s.output, hstate.extends_output, fun read acc pending =>
      (htested read acc pending).trans (if_neg hpasses)⟩

/-- The pending bits may change together with the rest of the output part. -/
theorem OutputPart.Extends.withBits (hextends : part.Extends before) (acc : UInt8) {pending : Nat}
    (hpending : pending < 8) :
    OutputPart.Extends { part with
      currentWriteByte := acc
      bitsWrittenWriteByte := pending } before :=
  ⟨hpending, hextends.index_le, hextends.index_lt, hextends.kept⟩

theorem putBytes_apart {src : List UInt8} (hsrc : src.length < 2 ^ 63) (depth : Nat) :
    WritesApart (putBytes (depth + 1) src : Serial β → _) := by
  intro s hstate
  rcases writeBytes_apart hsrc depth hstate with ⟨part, hextends, hwrite⟩
  refine ⟨_, hextends.withBits s.currentWriteByte hstate.state.writeMarker, fun read => ?_⟩
  have hplain := hwrite read s.currentWriteByte s.bitsWrittenWriteByte
  show (writeBytes (depth + 1) (s.withInput read) src >>= _) = _
  rw [show s.withInput read =
    (s.withInput read).withWriteBits s.currentWriteByte s.bitsWrittenWriteByte from rfl, hplain]
  rfl

/-- A byte that is written at a byte boundary, or flushed. -/
theorem writeByte_flushed (byte : UInt8) {pending : Nat}
    (hflush : ¬(s.bitStream = true ∧ 0 < pending ∧ pending < 8)) (depth : Nat)
    (hstate : s.InBuffer) :
    ∃ part : OutputPart, part.Extends s.output ∧ ∀ read acc,
      writeByte (depth + 2) ((s.withInput read).withWriteBits acc pending) byte =
        .ok ((s.withInput read).withOutput part) := by
  rcases @writeBytes_apart _ s _ [byte] (by simp) depth hstate with ⟨part, hextends, hwrite⟩
  refine ⟨_, hextends.withBits 0 (Nat.succ_pos 7), fun read acc => ?_⟩
  rw [writeByte]
  apply (if_neg hflush).trans
  rw [hwrite]
  rfl

theorem writeBit_apart (bit : Bool) (depth : Nat) :
    WritesApart fun s : Serial β => writeBit (depth + 3) s bit := by
  intro s hstate
  have hmarker := hstate.state.writeMarker
  by_cases hfull : s.bitsWrittenWriteByte + 1 = 8
  · -- the eighth bit flushes the byte
    obtain ⟨part, hextends, hwrite⟩ := @writeByte_flushed _ s _
      (s.putWriteBit bit).currentWriteByte 8 (by omega) depth hstate
    refine ⟨part, hextends, fun read => ?_⟩
    have hput : (s.withInput read).putWriteBit bit =
        (s.withInput read).withWriteBits (s.putWriteBit bit).currentWriteByte 8 := by
      rw [← hfull]
      rfl
    show writeBit (depth + 3) (s.withInput read) bit = _
    rw [writeBit]
    simp only [hput]
    exact (if_pos rfl).trans (hwrite read _)
  · -- the bit stays pending
    refine ⟨_, hstate.extends_output.withBits (s.putWriteBit bit).currentWriteByte
      (show s.bitsWrittenWriteByte + 1 < 8 by omega), fun read => ?_⟩
    show writeBit (depth + 3) (s.withInput read) bit = _
    rw [writeBit]
    exact if_neg hfull

theorem writeByte_apart (byte : UInt8) (depth : Nat) :
    WritesApart fun s : Serial β => writeByte (depth + 4) s byte := by
  intro s hstate
  by_cases hinside : s.bitStream = true ∧ 0 < s.bitsWrittenWriteByte ∧ s.bitsWrittenWriteByte < 8
  · -- inside a byte the eight bits are written one by one
    have hbits : WritesApart (writeEach (writeBit (depth + 3) (β := β)) (byteBits byte)) :=
      writeEach_apart fun bit _ => writeBit_apart bit depth
    rcases hbits s hstate with ⟨part, hextends, hwrite⟩
    refine ⟨part, hextends, fun read => ?_⟩
    show writeByte (depth + 4) (s.withInput read) byte = _
    rw [writeByte]
    exact (if_pos hinside).trans (hwrite read)
  · rcases writeByte_flushed byte hinside (depth + 2) hstate with ⟨part, hextends, hwrite⟩
    exact ⟨part, hextends, fun read => hwrite read s.currentWriteByte⟩

theorem putBool_apart (value : Bool) (depth : Nat) :
    WritesApart (putBool (depth + 4) value : Serial β → _) := by
  intro s hstate
  by_cases hstream : s.bitStream = true
  · rcases writeBit_apart value (depth + 1) s hstate with ⟨part, hextends, hwrite⟩
    exact ⟨part, hextends, fun read => (if_pos hstream).trans (hwrite read)⟩
  · obtain ⟨part, hextends, hwrite⟩ :=
      writeByte_apart (UInt8.ofNat value.toNat) depth s hstate
    exact ⟨part, hextends, fun read => (if_neg hstream).trans (hwrite read)⟩

/-- The streams that `synchronize` flushes are not there. -/
theorem synchronize_apart (depth : Nat) :
    WritesApart (synchronize (depth + 2) : Serial β → _) := by
  intro s hstate
  rcases hstate.noStreams with ⟨hwriteStream, hreadStream⟩
  by_cases hpending : 0 < s.bitsWrittenWriteByte ∧ s.bitsWrittenWriteByte < 8
  · -- the pending bits go out as one byte
    obtain ⟨part, hextends, hwrite⟩ :=
      @writeByte_flushed _ s _ s.currentWriteByte 8 (by omega) depth hstate
    refine ⟨part, hextends, fun read => ?_⟩
    have hflush := hwrite read s.currentWriteByte
    have hguard : 0 < (s.withInput read).bitsWrittenWriteByte ∧
        (s.withInput read).bitsWrittenWriteByte < 8 := hpending
    rw [synchronize, if_pos hguard]
    simp only [withWriteBits, withInput] at hflush ⊢
    rw [hflush, ok_bind]
    simp [writeStream, readStream, withOutput, hwriteStream, hreadStream]
  · refine ⟨s.output, hstate.extends_output, fun read => ?_⟩
    have hguard : ¬(0 < (s.withInput read).bitsWrittenWriteByte ∧
        (s.withInput read).bitsWrittenWriteByte < 8) := hpending
    rw [synchronize, if_neg hguard, ok_bind]
    simp [writeStream, readStream, withInput, withOutput, output, hwriteStream, hreadStream]

/-! ## Values that are written -/

theorem putSize_apart (size depth : Nat) :
    WritesApart (putSize (depth + 1) size : Serial β → _) :=
  putBytes_apart (by rw [leBytes_length]; omega) depth

theorem serializeString_apart {str : List UInt8} (hstr : str.length < 2 ^ 63) (depth : Nat) :
    WritesApart (serializeString (depth + 1) str : Serial β → _) :=
  (putSize_apart str.length depth).bind (putBytes_apart hstr depth)

theorem serializeElements_apart {α : Type} {put : α → Serial β → Except Halt (Serial β)}
    {items : List α} (hput : ∀ item ∈ items, WritesApart (put item)) (depth : Nat) :
    WritesApart (serializeElements (depth + 1) put items) :=
  (putSize_apart items.length depth).bind (writeEach_apart hput)

omit [Streambuf β] in
theorem putBinding_apart {κ ν : Type} {putKey : κ → Serial β → Except Halt (Serial β)}
    {putValue : ν → Serial β → Except Halt (Serial β)} {item : κ × ν}
    (hkey : WritesApart (putKey item.1)) (hvalue : WritesApart (putValue item.2)) :
    WritesApart (putBinding putKey putValue item) :=
  hkey.bind hvalue

end Writing

end Serial

/-- The objects and strings of a value are such as fit into memory. -/
def Ty.Storable {T : ScalarTypes} (K : Keys T) : (t : Ty T) → (t.layout K).Stored → Prop
  | .bool, _ => True
  | .scalar name, _ => T.sizeof name < 2 ^ 63
  | .string, str => List.length (α := UInt8) str < 2 ^ 63
  | .vector element, items => ∀ item, List.Mem item items → Ty.Storable K element item
  | .set element, items => ∀ item ∈ items.val, Ty.Storable K element item
  | .unorderedSet element, items => ∀ item ∈ items.val, Ty.Storable K element item
  | .map key value, items =>
      ∀ item ∈ items.val, Ty.Storable K key item.1 ∧ Ty.Storable K value item.2
  | .unorderedMap key value, items =>
      ∀ item ∈ items.val, Ty.Storable K key item.1 ∧ Ty.Storable K value item.2

namespace Serial

section Values

variable {β : Type} [Streambuf β] {T : ScalarTypes}

/-- Every value is written apart from what is read, by induction on its type. -/
theorem put_apart (K : Keys T) (depth : Nat) :
    ∀ (t : Ty T) (item : (t.layout K).Stored), t.Storable K item →
      WritesApart (put K (depth + 4) t item : Serial β → _) := by
  intro t
  induction t with
  | bool => exact fun value _ => putBool_apart value depth
  | scalar name =>
      intro value hsize
      exact putBytes_apart (by rw [value.property]; exact hsize) (depth + 3)
  | string => exact fun str hstr => serializeString_apart hstr (depth + 3)
  | vector element ih =>
      exact fun items hitems =>
        serializeElements_apart (fun item hitem => ih item (hitems item hitem)) (depth + 3)
  | set element ih =>
      exact fun items hitems =>
        serializeElements_apart (fun item hitem => ih item (hitems item hitem)) (depth + 3)
  | unorderedSet element ih =>
      exact fun items hitems =>
        serializeElements_apart (fun item hitem => ih item (hitems item hitem)) (depth + 3)
  | map key value ihKey ihValue =>
      intro items hitems
      refine serializeElements_apart (fun item hitem => ?_) (depth + 3)
      rcases hitems item hitem with ⟨hkey, hvalue⟩
      exact putBinding_apart (ihKey item.1 hkey) (ihValue item.2 hvalue)
  | unorderedMap key value ihKey ihValue =>
      intro items hitems
      refine serializeElements_apart (fun item hitem => ?_) (depth + 3)
      rcases hitems item hitem with ⟨hkey, hvalue⟩
      exact putBinding_apart (ihKey item.1 hkey) (ihValue item.2 hvalue)

end Values

end Serial
end Iostreams
