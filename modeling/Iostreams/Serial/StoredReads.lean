import Iostreams.Serial.InputOutput

/-!
# Reads of stored bytes

`ReadsStored` says of a reader that it changes the input part only, and that it depends on no more
of the output part than the bytes it copies: where the memory agrees up to a limit that no copy
passes, the value read and the new input part are the same.  The copies are listed operation by
operation; those of a sequence are the ones of its first step and the ones of the rest from the
state in between.
-/

namespace Iostreams

open Foundation

namespace Serial

variable {β γ σ α ρ : Type}

/-- The copies of `get`, and then the ones of what follows it. -/
def copiesThen (copies : σ → List Memcpy) (get : σ → Except Halt (α × σ))
    (later : α → σ → List Memcpy) (state : σ) : List Memcpy :=
  copies state ++
    match get state with
    | .ok (value, state) => later value state
    | .error _ => []

/-- A reader that changes the input part only, and depends on the bytes it copies. -/
def ReadsStored (wrap : Serial β → σ) (get : σ → Except Halt (α × σ))
    (copies : σ → List Memcpy) : Prop :=
  ∀ (s : Serial β), s.InBuffer → ∀ limit : Int, limit < 2 ^ 63 →
    (∀ copy ∈ copies (wrap s), copy.Within limit) →
    ∃ value, ∃ part : InputPart, part.Valid ∧ ∀ written : OutputPart,
      written.bufferPointer.take limit.toNat = s.bufferPointer.take limit.toNat →
      get (wrap (s.withOutput written)) =
        .ok (value, wrap ((s.withOutput written).withInput part))

section Combinators

variable {wrap : Serial β → σ}

theorem ReadsStored.done (value : α) :
    ReadsStored wrap (fun state => .ok (value, state)) fun _ => [] :=
  fun s hstate _ _ _ => ⟨value, s.input, hstate.valid_input, fun _ _ => rfl⟩

/-- Two readers one after the other. -/
theorem ReadsStored.bind {get : σ → Except Halt (α × σ)} {copies : σ → List Memcpy}
    {next : α → σ → Except Halt (ρ × σ)} {later : α → σ → List Memcpy}
    (hget : ReadsStored wrap get copies) (hnext : ∀ value, ReadsStored wrap (next value)
      (later value)) :
    ReadsStored wrap (fun state => get state >>= fun result => next result.1 result.2)
      (copiesThen copies get later) := by
  intro s hstate limit hlimit hwithin
  unfold copiesThen at hwithin
  obtain ⟨value, part₁, hvalid₁, hfirst⟩ := hget s hstate limit hlimit fun copy hcopy =>
    hwithin copy (List.mem_append_left _ hcopy)
  have hself : get (wrap s) = .ok (value, wrap (s.withInput part₁)) := hfirst s.output rfl
  rw [hself] at hwithin
  -- the second reader starts where the first one ends, in the state itself as in any other
  obtain ⟨result, part₂, hvalid₂, hsecond⟩ :=
    hnext value _ (hstate.withInput hvalid₁) limit hlimit fun copy hcopy =>
      hwithin copy (List.mem_append_right _ hcopy)
  refine ⟨result, part₂, hvalid₂, fun written hagree => ?_⟩
  show (get (wrap (s.withOutput written)) >>= _) = _
  rw [hfirst written hagree, ok_bind]
  exact hsecond written hagree

theorem ReadsStored.map {get : σ → Except Halt (α × σ)} {copies : σ → List Memcpy}
    (hget : ReadsStored wrap get copies) (f : α → ρ) :
    ReadsStored wrap (fun state => get state >>= fun result => .ok (f result.1, result.2))
      copies := by
  intro s hstate limit hlimit hwithin
  rcases hget s hstate limit hlimit hwithin with ⟨value, part, hvalid, hread⟩
  refine ⟨f value, part, hvalid, fun written hagree => ?_⟩
  show (get (wrap (s.withOutput written)) >>= _) = _
  rw [hread written hagree, ok_bind]

/-- A test of a field that no transfer on a buffer changes. -/
theorem ReadsStored.ite {test : σ → Prop} [DecidablePred test]
    (htest : ∀ s written, test (wrap (s.withOutput written)) ↔ test (wrap s))
    {get get' : σ → Except Halt (α × σ)} {copies copies' : σ → List Memcpy}
    (hthen : ReadsStored wrap get copies) (helse : ReadsStored wrap get' copies') :
    ReadsStored wrap (fun state => if test state then get state else get' state)
      (fun state => if test state then copies state else copies' state) := by
  intro s hstate limit hlimit hwithin
  by_cases hcase : test (wrap s)
  · simp only [if_pos hcase] at hwithin
    rcases hthen s hstate limit hlimit hwithin with ⟨value, part, hvalid, hread⟩
    exact ⟨value, part, hvalid, fun written hagree =>
      (if_pos ((htest s written).mpr hcase)).trans (hread written hagree)⟩
  · simp only [if_neg hcase] at hwithin
    rcases helse s hstate limit hlimit hwithin with ⟨value, part, hvalid, hread⟩
    exact ⟨value, part, hvalid, fun written hagree =>
      (if_neg (mt (htest s written).mp hcase)).trans (hread written hagree)⟩

end Combinators

section Reading

variable [Streambuf β] [Streambuf γ] {s : Serial β} {limit : Int}

/-! ## Transfers -/

omit [Streambuf β] in
/-- A copy from an index that is not negative stays in the buffer if it passes the test. -/
theorem InBuffer.within_of_passesTest (hstate : s.InBuffer) {size : Nat} (hsize : size < 2 ^ 63)
    (hpasses : PassesTest s.bufferReadIndex s.bufferSize size) :
    (Memcpy.mk s.bufferReadIndex size).Within s.bufferSize :=
  Memcpy.within_iff.mpr (Or.inr ⟨hstate.readIndex.1,
    (passesTest_iff hstate.state.size_nonneg hstate.state.size_lt hsize).mp hpasses⟩)

/-- A block is copied from the stored bytes, or nothing is transferred. -/
theorem readBytes_stored (hstate : s.InBuffer) (hlimit : limit < 2 ^ 63) {size : Nat}
    (hwithin : ∀ copy ∈ s.readBytesCopies size, copy.Within limit) (depth : Nat)
    (dest : List UInt8) :
    ∃ count dest' index, (0 ≤ index ∧ index < 2 ^ 63) ∧ ∀ written : OutputPart,
      written.bufferPointer.take limit.toNat = s.bufferPointer.take limit.toNat →
      readBytes (depth + 1) (s.withOutput written) dest size =
        .ok (count, dest', { s.withOutput written with bufferReadIndex := index }) := by
  rcases hstate.readIndex with ⟨hlow, hhigh⟩
  rw [readBytesCopies_tested hstate.state.notCount hstate.state.isBuffer] at hwithin
  by_cases hpasses : PassesTest s.bufferReadIndex s.bufferSize size
  · rw [if_pos hpasses, List.forall_mem_singleton, Memcpy.within_iff] at hwithin
    have hsize : size < 2 ^ 63 := by
      rcases hwithin with hempty | ⟨-, hend⟩
      · have hzero : size = 0 := hempty
        omega
      · have hbelow : s.bufferReadIndex + size ≤ limit := hend
        omega
    have hcopied (written : OutputPart) :=
      @readBytes_copied _ _ (s.withOutput written) hstate.state.notCount hstate.state.isBuffer size
        hpasses (hstate.within_of_passesTest hsize hpasses) depth dest
    have hnext : toInt64 (s.bufferReadIndex + size) = s.bufferReadIndex + size := by
      apply toInt64_of_bounds <;> rcases hwithin with hempty | hinside <;> simp only at * <;> omega
    -- an empty block may lie anywhere, any other one lies below the limit
    have hslice (memory : List UInt8)
        (hagree : memory.take limit.toNat = s.bufferPointer.take limit.toNat) :
        slice memory s.bufferReadIndex.toNat size =
          slice s.bufferPointer s.bufferReadIndex.toNat size := by
      rcases hwithin with hempty | ⟨-, hend⟩
      · have hzero : size = 0 := hempty
        simp only [hzero, slice, List.take_zero]
      · have hbelow : s.bufferReadIndex + size ≤ limit := hend
        exact slice_eq_of_take_eq hagree (by omega)
    refine ⟨toInt64 size,
      overwrite dest 0 (slice s.bufferPointer s.bufferReadIndex.toNat size),
      toInt64 (s.bufferReadIndex + size), ?_, fun written hagree => ?_⟩
    · rw [hnext]
      rcases hwithin with hempty | ⟨-, hend⟩
      · have hzero : size = 0 := hempty
        omega
      · have hbelow : s.bufferReadIndex + size ≤ limit := hend
        omega
    · rw [← hslice written.bufferPointer hagree]
      exact hcopied written
  · refine ⟨0, dest, s.bufferReadIndex, ⟨hlow, hhigh⟩, fun written _ => ?_⟩
    have htested := @readBytes_tested _ _ (s.withOutput written) hstate.state.notCount
      hstate.state.isBuffer depth dest size
    exact htested.trans (if_neg hpasses)

/-- A refill. -/
theorem refilled_stored (hstate : s.InBuffer) (hlimit : limit < 2 ^ 63)
    (hwithin : ∀ copy ∈ s.readBytesCopies 1, copy.Within limit) (depth : Nat) :
    ∃ byte index, (0 ≤ index ∧ index < 2 ^ 63) ∧ ∀ written : OutputPart,
      written.bufferPointer.take limit.toNat = s.bufferPointer.take limit.toNat →
      ∃ count dest s', readBytes (depth + 1) (s.withOutput written)
          [(s.withOutput written).currentReadByte] 1 = .ok (count, dest, s') ∧
        s'.refilled dest = (s.withOutput written).withInput ⟨byte, 0, index⟩ := by
  obtain ⟨count, dest, index, hindex, hread⟩ :=
    readBytes_stored hstate hlimit hwithin depth [s.currentReadByte]
  exact ⟨dest.headD 0, index, hindex, fun written hagree =>
    ⟨count, dest, _, hread written hagree, rfl⟩⟩

theorem readBit_stored (depth : Nat) :
    ReadsStored id (readBit (depth + 2) : Serial β → _) readBitCopies := by
  intro s hstate limit hlimit hwithin
  have hmarker := hstate.state.readMarker
  unfold readBitCopies at hwithin
  by_cases hspent : s.bitsReadReadByte = 0 ∨ s.bitsReadReadByte = 8
  · -- no bit is left, and the next byte is fetched
    have hneeded (s' : Serial β) (hoffset : s'.nextReadOffset = s.nextReadOffset) :
        s'.needsReadByte = (true, s') := if_pos (hoffset.trans hstate.state.noOffset)
    simp only [id_eq, if_pos hspent, hneeded s rfl, if_true] at hwithin
    rcases refilled_stored hstate hlimit hwithin depth with ⟨byte, index, hindex, hrefill⟩
    refine ⟨byte.toNat.testBit 0, ⟨byte, 1, index⟩, ⟨Nat.succ_pos 7, hindex.1, hindex.2⟩,
      fun written hagree => ?_⟩
    rcases hrefill written hagree with ⟨count, dest, s', hread, hrefilled⟩
    show readBit (depth + 2) (s.withOutput written) = _
    rw [readBit]
    apply (if_pos hspent).trans
    simp only [hneeded (s.withOutput written) rfl, if_true, hread, ok_bind, hrefilled]
    rfl
  · -- the bit is one of the current byte
    refine ⟨s.takeReadBit.1, s.takeReadBit.2.input, ⟨?_, hstate.readIndex.1, hstate.readIndex.2⟩,
      fun written _ => ?_⟩
    · show s.bitsReadReadByte + 1 ≤ 8
      omega
    · show readBit (depth + 2) (s.withOutput written) = _
      rw [readBit]
      exact if_neg hspent

omit [Streambuf β] in
theorem copiesOfEach_eq_copiesThen {τ : Type} {copies : Serial β → List Memcpy}
    {get : Serial β → Except Halt (α × Serial β)} {item : τ} {rest : List τ} (s : Serial β) :
    copiesOfEach (fun s _ => copies s) (fun s _ => (get s).map Prod.snd) (item :: rest) s =
      copiesThen copies get
        (fun _ => copiesOfEach (fun s _ => copies s) (fun s _ => (get s).map Prod.snd) rest)
        s := by
  unfold copiesOfEach copiesThen
  cases get s <;> rfl

theorem readByteBits_stored (depth : Nat) (items : List Nat) (byte : UInt8) :
    ReadsStored id (readByteBits (readBit (depth + 2) : Serial β → _) items.length byte)
      (copiesOfEach (fun s _ => s.readBitCopies) (fun s _ => skipBit (depth + 2) s) items) := by
  induction items generalizing byte with
  | nil => exact ReadsStored.done byte
  | cons item rest ih =>
      have hboth := (readBit_stored (β := β) depth).bind fun bit =>
        ih (byte ||| UInt8.ofNat (bit.toNat <<< (8 - (rest.length + 1))))
      have hcopies : copiesOfEach (fun s _ => s.readBitCopies)
          (fun s _ => skipBit (depth + 2) s) (item :: rest) = copiesThen readBitCopies
            (readBit (β := β) (depth + 2)) fun _ => copiesOfEach (fun s _ => s.readBitCopies)
              (fun s _ => skipBit (depth + 2) s) rest :=
        funext fun s => copiesOfEach_eq_copiesThen s
      rw [hcopies]
      exact hboth

/-- A byte is read bit by bit inside a byte, and is a refill otherwise. -/
theorem readByte_stored (depth : Nat) :
    ReadsStored id (readByte (depth + 3) : Serial β → _) (readByteCopies (depth + 3)) := by
  have hbits := readByteBits_stored (β := β) depth (List.range 8) 0
  have hblock : ReadsStored id (fun s : Serial β =>
      readBytes (depth + 2) s [s.currentReadByte] 1 >>= fun result =>
        .ok ((result.2.2.refilled result.2.1).currentReadByte, result.2.2.refilled result.2.1))
      fun s => s.readBytesCopies 1 := by
    intro s hstate limit hlimit hwithin
    rcases refilled_stored hstate hlimit hwithin (depth + 1) with ⟨byte, index, hindex, hrefill⟩
    refine ⟨byte, ⟨byte, 0, index⟩, ⟨Nat.zero_le 8, hindex.1, hindex.2⟩, fun written hagree => ?_⟩
    rcases hrefill written hagree with ⟨count, dest, s', hread, hrefilled⟩
    show (readBytes (depth + 2) (s.withOutput written)
      [(s.withOutput written).currentReadByte] 1 >>= _) = _
    rw [hread, ok_bind, hrefilled]
    rfl
  have hinside (s : Serial β) (written : OutputPart) :
      (s.withOutput written).bitStream = true ∧ 0 < (s.withOutput written).bitsReadReadByte ∧
          (s.withOutput written).bitsReadReadByte < 8 ↔
        s.bitStream = true ∧ 0 < s.bitsReadReadByte ∧ s.bitsReadReadByte < 8 := Iff.rfl
  exact ReadsStored.ite hinside hbits hblock

/-! ## Blocks of bits -/

theorem refillSpent_stored (hstate : s.InBuffer) (hlimit : limit < 2 ^ 63) {depth : Nat}
    (hwithin : ∀ copy ∈ (if s.bitsReadReadByte = 8 then readByteCopies (depth + 3) s else []),
      copy.Within limit) :
    ∃ part : InputPart, part.Valid ∧ part.bitsReadReadByte < 8 ∧ ∀ written : OutputPart,
      written.bufferPointer.take limit.toNat = s.bufferPointer.take limit.toNat →
      refillSpent (depth + 3) (s.withOutput written) =
        .ok ((s.withOutput written).withInput part) := by
  by_cases hspent : s.bitsReadReadByte = 8
  · rw [if_pos hspent] at hwithin
    rcases readByte_stored depth s hstate limit hlimit hwithin with ⟨byte, part, hvalid, hread⟩
    -- a spent byte is replaced, so that none of its bits is taken
    have hzero : part.bitsReadReadByte = 0 := by
      obtain ⟨s', hskip, ⟨-, hmarker⟩, -⟩ :=
        (skipByte_touches hstate.state depth).returns (Or.inl hstate.readIndex.1)
      have hself : skipByte (depth + 3) s = .ok (s.withInput part) :=
        congrArg (Except.map Prod.snd) (hread s.output rfl)
      rw [hself] at hskip
      injection hskip with hsame
      rw [← hmarker hspent, ← hsame]
      rfl
    refine ⟨part, hvalid, by omega, fun written hagree => ?_⟩
    unfold refillSpent
    apply (if_pos hspent).trans
    have hbyte : readByte (depth + 3) (s.withOutput written) =
        .ok (byte, (s.withOutput written).withInput part) := hread written hagree
    rw [hbyte]
    rfl
  · have hmarker := hstate.state.readMarker
    refine ⟨s.input, hstate.valid_input, ?_, fun written _ => if_neg hspent⟩
    show s.bitsReadReadByte < 8
    omega

omit [Streambuf β] in
theorem takeReadCells_withOutput (index size room i : Nat) (bitContainer : List UInt8)
    (s : Serial β) (written : OutputPart) :
    takeReadCells index size room i bitContainer (s.withOutput written) =
      ((takeReadCells index size room i bitContainer s).1,
        (takeReadCells index size room i bitContainer s).2.1,
        (takeReadCells index size room i bitContainer s).2.2.withOutput written) := by
  induction room generalizing i bitContainer s with
  | zero => rfl
  | succ room ih =>
      unfold takeReadCells
      by_cases hend : i < size
      · rw [if_pos hend, if_pos hend]
        exact ih (i + 1) _ { s with bitsReadReadByte := s.bitsReadReadByte + 1 }
      · rw [if_neg hend, if_neg hend]

omit [Streambuf β] in
/-- The cells are taken from the current byte, whatever the output part. -/
theorem takeReadCells_stored (index : Nat) {size i : Nat} (room : Nat)
    (bitContainer : List UInt8) (s : Serial β) (hi : i ≤ size) :
    ∃ bitContainer', ∀ written : OutputPart,
      takeReadCells index size room i bitContainer (s.withOutput written) =
        (i + min room (size - i), bitContainer',
          (s.withOutput written).taken (min room (size - i))) := by
  rcases takeReadCells_state index room bitContainer s hi with ⟨hindex, htaken⟩
  refine ⟨(takeReadCells index size room i bitContainer s).2.1, fun written => ?_⟩
  rw [takeReadCells_withOutput, hindex, htaken]
  rfl

/-- Bits that are left in the current byte are taken. -/
theorem InputPart.Valid.taken {part : InputPart} (hvalid : part.Valid) {count : Nat}
    (hcount : part.bitsReadReadByte + count ≤ 8) :
    InputPart.Valid { part with bitsReadReadByte := part.bitsReadReadByte + count } :=
  ⟨hcount, hvalid.index_nonneg, hvalid.index_lt⟩

theorem readBitsLoop_stored (depth rounds index : Nat) {size i : Nat} (bitContainer : List UInt8)
    (hi : i ≤ size) (hrounds : size - i < rounds) :
    ReadsStored id (readBitsLoop (depth + 3) index size rounds i bitContainer : Serial β → _)
      (readBitsLoopCopies (depth + 3) index size rounds i bitContainer) := by
  induction rounds generalizing i bitContainer with
  | zero => omega
  | succ rounds ih =>
      intro s hstate limit hlimit hwithin
      unfold readBitsLoopCopies at hwithin
      by_cases hend : i < size
      · simp only [id_eq, if_pos hend] at hwithin
        obtain ⟨part₁, hvalid₁, hroom, hrefill⟩ := refillSpent_stored hstate hlimit
          fun copy hcopy => hwithin copy (List.mem_append_left _ hcopy)
        obtain ⟨bitContainer', hcells⟩ := takeReadCells_stored index
          (8 - part₁.bitsReadReadByte) bitContainer (s.withInput part₁) hi
        -- what the limit allows in the state itself is the copies of the rest of the loop
        have hself : refillSpent (depth + 3) s = .ok (s.withInput part₁) := hrefill s.output rfl
        have hround : takeReadCells index size (8 - (s.withInput part₁).bitsReadReadByte) i
            bitContainer (s.withInput part₁) = _ := hcells s.output
        rw [hself] at hwithin
        simp only [hround] at hwithin
        -- a round takes at least one cell, since a refilled byte has bits left
        have htaken := @InputPart.Valid.taken part₁ hvalid₁
          (min (8 - part₁.bitsReadReadByte) (size - i)) (by omega)
        obtain ⟨result, part₂, hvalid₂, hrest⟩ := ih bitContainer' (by omega) (by omega)
          (s.withInput _) (hstate.withInput htaken) limit hlimit
          fun copy hcopy => hwithin copy (List.mem_append_right _ hcopy)
        refine ⟨result, part₂, hvalid₂, fun written hagree => ?_⟩
        show readBitsLoop (depth + 3) index size (rounds + 1) i bitContainer
          (s.withOutput written) = _
        unfold readBitsLoop
        rw [if_pos hend, hrefill written hagree, ok_bind]
        have hnext := congrArg (fun cells : Nat × List UInt8 × Serial β =>
          readBitsLoop (depth + 3) index size rounds cells.1 cells.2.1 cells.2.2) (hcells written)
        exact hnext.trans (hrest written hagree)
      · refine ⟨bitContainer, s.input, hstate.valid_input, fun written _ => ?_⟩
        show readBitsLoop (depth + 3) index size (rounds + 1) i bitContainer
          (s.withOutput written) = _
        unfold readBitsLoop
        exact if_neg hend

/-- The loop of `readBits` ends if its `int` index reaches the size. -/
theorem readBits_stored (hstate : s.InBuffer) (hlimit : limit < 2 ^ 63)
    (hstream : s.bitStream = true) {bitContainer : List UInt8} {depth index size : Nat}
    (hsize : size < 2 ^ 31)
    (hwithin : ∀ copy ∈ readBitsCopies (depth + 3) s bitContainer index size, copy.Within limit) :
    ∃ bitContainer', ∃ part : InputPart, part.Valid ∧ ∀ written : OutputPart,
      written.bufferPointer.take limit.toNat = s.bufferPointer.take limit.toNat →
      readBits (depth + 3) (s.withOutput written) bitContainer index size =
        .ok (bitContainer', (s.withOutput written).withInput part) := by
  have hstreaming (written : OutputPart) : ¬(!(s.withOutput written).bitStream) = true := by
    simp [withOutput, hstream]
  have hmin : min size (2 ^ 31) = size := by omega
  have hcopies : readBitsCopies (depth + 3) s bitContainer index size =
      readBitsLoopCopies (depth + 3) index size (size + 1) 0 bitContainer s := by
    rw [readBitsCopies, hmin]
    exact if_neg (hstreaming s.output)
  rw [hcopies] at hwithin
  obtain ⟨bitContainer', part, hvalid, hread⟩ := readBitsLoop_stored depth (size + 1) index
    bitContainer (Nat.zero_le size) (by omega) s hstate limit hlimit hwithin
  refine ⟨bitContainer', part, hvalid, fun written hagree => ?_⟩
  rw [readBits, if_neg (hstreaming written), if_neg (by omega)]
  exact hread written hagree

end Reading

end Serial

/-! ## Values that are read -/

namespace Reader

variable {β γ α κ ν σ : Type} [Streambuf β] [Streambuf γ]

/-- `>>` on a `Serial`, with no replay buffer. -/
def onSerial (s : Serial β) : Reader β γ := { serial := s }

def getBoolCopies (depth : Nat) (r : Reader β γ) : List Memcpy :=
  if r.serial.bitStream then r.serial.readBitCopies else Serial.readByteCopies depth r.serial

/-- The characters are needed where `resize` does not take their number. -/
def charactersCopies (str : List UInt8) (size : Nat) (r : Reader β γ) : List Memcpy :=
  if str.length < size ∧ 2 ^ 63 ≤ size then [⟨r.serial.bufferReadIndex, size⟩]
  else r.serial.readBytesCopies size

def deserializeStringCopies (depth : Nat) (str : List UInt8) : Reader β γ → List Memcpy :=
  Serial.copiesThen (fun r => r.serial.readBytesCopies 8) (getSize depth str.length) fun size r =>
    if r.serial.lastDidNotReadWholeSize then [] else r.charactersCopies str size

def getEachCopies (copies : Reader β γ → List Memcpy)
    (get : Reader β γ → Except Halt (α × Reader β γ)) : Nat → Reader β γ → List Memcpy
  | 0 => fun _ => []
  | count + 1 => Serial.copiesThen copies get fun _ => getEachCopies copies get count

def deserializeElementsCopies (depth : Nat) (copies : Reader β γ → List Memcpy)
    (get : Reader β γ → Except Halt (α × Reader β γ)) : Reader β γ → List Memcpy :=
  Serial.copiesThen (fun r => r.serial.readBytesCopies 8) (getSize depth 0)
    (getEachCopies copies get)

def getBindingCopies (keyCopies valueCopies : Reader β γ → List Memcpy)
    (getKey : Reader β γ → Except Halt (κ × Reader β γ)) : Reader β γ → List Memcpy :=
  Serial.copiesThen keyCopies getKey fun _ => valueCopies

/-- The copies of `>> v` at each type. -/
def getCopies {T : ScalarTypes} (K : Keys T) (depth : Nat) :
    (t : Ty T) → t.Value → Reader β γ → List Memcpy
  | .bool, _, r => r.getBoolCopies depth
  | .scalar _, old, r => r.serial.readBytesCopies old.val.length
  | .string, old, r => r.deserializeStringCopies depth old
  | .vector element, _, r =>
      r.deserializeElementsCopies depth (getCopies K depth element element.fresh)
        (get K depth element element.fresh)
  | .set element, _, r =>
      r.deserializeElementsCopies depth (getCopies K depth element element.fresh)
        (get K depth element element.fresh)
  | .unorderedSet element, _, r =>
      r.deserializeElementsCopies depth (getCopies K depth element element.fresh)
        (get K depth element element.fresh)
  | .map key value, _, r =>
      r.deserializeElementsCopies depth
        (getBindingCopies (getCopies K depth key key.fresh) (getCopies K depth value value.fresh)
          (get K depth key key.fresh))
        (getBinding (get K depth key key.fresh) (get K depth value value.fresh))
  | .unorderedMap key value, _, r =>
      r.deserializeElementsCopies depth
        (getBindingCopies (getCopies K depth key key.fresh) (getCopies K depth value value.fresh)
          (get K depth key key.fresh))
        (getBinding (get K depth key key.fresh) (get K depth value value.fresh))

/-- A reader over a buffer that depends on the bytes it copies. -/
abbrev ReadsStored (get : Reader β γ → Except Halt (α × Reader β γ))
    (copies : Reader β γ → List Memcpy) : Prop :=
  Serial.ReadsStored onSerial get copies

omit [Streambuf β] [Streambuf γ] in
/-- A read of the `Serial` itself. -/
theorem readsStored_serial {read : Serial β → Except Halt (α × Serial β)}
    {copies : Serial β → List Memcpy} (hread : Serial.ReadsStored id read copies) (f : α → ν) :
    ReadsStored (γ := γ)
      (fun r => read r.serial >>= fun result => .ok (f result.1, { r with serial := result.2 }))
      fun r => copies r.serial := by
  intro s hstate limit hlimit hwithin
  rcases hread s hstate limit hlimit hwithin with ⟨value, part, hvalid, hvalue⟩
  refine ⟨f value, part, hvalid, fun written hagree => ?_⟩
  have hself : read (s.withOutput written) = .ok (value, (s.withOutput written).withInput part) :=
    hvalue written hagree
  show (read (s.withOutput written) >>= _) = _
  rw [hself]
  rfl

omit [Streambuf γ] in
theorem getBool_stored (depth : Nat) :
    ReadsStored (getBool (β := β) (γ := γ) (depth + 3)) (getBoolCopies (depth + 3)) :=
  Serial.ReadsStored.ite (fun _ _ => Iff.rfl)
    (readsStored_serial (Serial.readBit_stored (depth + 1)) id)
    (readsStored_serial (Serial.readByte_stored depth) (· != 0))

theorem readInto_stored (depth : Nat) (dest : List UInt8) (size : Nat) :
    ReadsStored (β := β) (γ := γ) (fun r => r.readInto (depth + 1) dest size)
      fun r => r.serial.readBytesCopies size := by
  intro s hstate limit hlimit hwithin
  obtain ⟨count, dest', index, hindex, hread⟩ :=
    Serial.readBytes_stored hstate hlimit hwithin depth dest
  refine ⟨dest', { s.input with bufferReadIndex := index },
    ⟨hstate.state.readMarker, hindex.1, hindex.2⟩, fun written hagree => ?_⟩
  show (Serial.readBytes (depth + 1) (s.withOutput written) dest size >>= _) = _
  rw [hread written hagree]
  rfl

theorem getSize_stored (depth old : Nat) :
    ReadsStored (β := β) (γ := γ) (getSize (depth + 1) old)
      fun r => r.serial.readBytesCopies 8 := by
  have hread := readInto_stored (β := β) (γ := γ) depth (leBytes 8 old) (leBytes 8 old).length
  rw [leBytes_length] at hread
  exact hread.map leValue

/-- No string below the limit has a length that `resize` does not take. -/
theorem characters_stored (depth : Nat) (str : List UInt8) (size : Nat) :
    ReadsStored (β := β) (γ := γ)
      (fun r =>
        match if str.length < size then StringAllocation.objects.throws size else none with
        | some what => .error (.exception what)
        | none => r.readInto (depth + 1) (resize str size) size)
      (charactersCopies str size) := by
  intro s hstate limit hlimit hwithin
  unfold charactersCopies at hwithin
  by_cases hrefused : str.length < size ∧ 2 ^ 63 ≤ size
  · have hinside := List.forall_mem_singleton.mp ((if_pos hrefused) ▸ hwithin)
    have hend : size = 0 ∨ 0 ≤ s.bufferReadIndex ∧ s.bufferReadIndex + size ≤ limit :=
      Memcpy.within_iff.mp hinside
    omega
  · rw [if_neg hrefused] at hwithin
    by_cases hgrow : str.length < size
    · simp only [StringAllocation.resize_objects str.length (show size < 2 ^ 63 by omega)]
      exact readInto_stored depth (resize str size) size s hstate limit hlimit hwithin
    · simp only [if_neg hgrow]
      exact readInto_stored depth (resize str size) size s hstate limit hlimit hwithin

theorem deserializeString_stored (depth : Nat) (str : List UInt8) :
    ReadsStored (β := β) (γ := γ) (deserializeString (depth + 1) str)
      (deserializeStringCopies (depth + 1) str) :=
  (getSize_stored depth str.length).bind fun size =>
    Serial.ReadsStored.ite (fun _ _ => Iff.rfl) (Serial.ReadsStored.done str)
      (characters_stored depth str size)

omit [Streambuf β] [Streambuf γ] in
theorem getEach_stored {get : Reader β γ → Except Halt (α × Reader β γ)}
    {copies : Reader β γ → List Memcpy} (hget : ReadsStored get copies) (insert : σ → α → σ)
    (count : Nat) (target : σ) :
    ReadsStored (getEach get insert count target) (getEachCopies copies get count) := by
  induction count generalizing target with
  | zero => exact Serial.ReadsStored.done target
  | succ count ih => exact hget.bind fun item => ih (insert target item)

theorem deserializeElements_stored {get : Reader β γ → Except Halt (α × Reader β γ)}
    {copies : Reader β γ → List Memcpy} (hget : ReadsStored get copies) (insert : σ → α → σ)
    (depth : Nat) (target : σ) :
    ReadsStored (deserializeElements (depth + 1) get insert target)
      (deserializeElementsCopies (depth + 1) copies get) :=
  (getSize_stored depth 0).bind fun size => getEach_stored hget insert size target

omit [Streambuf β] [Streambuf γ] in
theorem getBinding_stored {getKey : Reader β γ → Except Halt (κ × Reader β γ)}
    {getValue : Reader β γ → Except Halt (ν × Reader β γ)}
    {keyCopies valueCopies : Reader β γ → List Memcpy} (hkey : ReadsStored getKey keyCopies)
    (hvalue : ReadsStored getValue valueCopies) :
    ReadsStored (getBinding getKey getValue)
      (getBindingCopies keyCopies valueCopies getKey) :=
  hkey.bind fun key => hvalue.map fun value => (key, value)

/-- Every value is read from the bytes it copies, by induction on its type. -/
theorem get_stored {T : ScalarTypes} (K : Keys T) (depth : Nat) :
    ∀ (t : Ty T) (old : t.Value),
      ReadsStored (β := β) (γ := γ) (get K (depth + 3) t old) (getCopies K (depth + 3) t old) := by
  intro t
  induction t with
  | bool => exact fun _ => getBool_stored depth
  | scalar name =>
      intro old
      have hread := readInto_stored (β := β) (γ := γ) (depth + 2) old.val old.val.length
      exact hread.map (asObject (T.sizeof name))
  | string => exact deserializeString_stored (depth + 2)
  | vector element ih => exact deserializeElements_stored (ih element.fresh) _ (depth + 2)
  | set element ih => exact deserializeElements_stored (ih element.fresh) _ (depth + 2)
  | unorderedSet element ih => exact deserializeElements_stored (ih element.fresh) _ (depth + 2)
  | map key value ihKey ihValue =>
      exact deserializeElements_stored
        (getBinding_stored (ihKey key.fresh) (ihValue value.fresh)) _ (depth + 2)
  | unorderedMap key value ihKey ihValue =>
      exact deserializeElements_stored
        (getBinding_stored (ihKey key.fresh) (ihValue value.fresh)) _ (depth + 2)

end Reader
end Iostreams
