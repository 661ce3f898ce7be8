import Iostreams.Serial.BitBlocks
import Iostreams.Serial.BitReads
import Iostreams.Foundation.Run

/-!
# Which memory the buffer transfers touch

On a buffer, memory is touched by the `memcpy` of `readBytes` and the one of `writeBytes`, each
behind a test that compares the index with `buffer_size - (int64_t)size`.  The functions below list
the copies of every operation, branch by branch as the operation runs.

The test lets a negative index pass, and a size of `2 ^ 63` or more, which the cast makes negative.
Indices become negative only by `setReadPosition` and `setWritePosition`.  A run stays inside its
buffer exactly if no transfer starts at a negative index and no such size passes the test.
-/

namespace Iostreams

open Foundation

namespace Serial

variable {β : Type}

/-! ## The copies of the operations -/

def readBytesCopies (s : Serial β) (size : Nat) : List Memcpy :=
  if s.isCountSerial then []
  else if s.isBufferSerial then
    if PassesTest s.bufferReadIndex s.bufferSize size then [⟨s.bufferReadIndex, size⟩] else []
  else []

def writeBytesCopies (s : Serial β) (size : Nat) : List Memcpy :=
  if s.isCountSerial then []
  else if s.isBufferSerial then
    if PassesTest s.bufferWriteIndex s.bufferSize size then [⟨s.bufferWriteIndex, size⟩] else []
  else []

/-- The copies of the calls of `step` on some items, one after the other. -/
def copiesOfEach {α : Type} (copies : Serial β → α → List Memcpy)
    (step : Serial β → α → Except Halt (Serial β)) : List α → Serial β → List Memcpy
  | [], _ => []
  | item :: rest, s =>
      copies s item ++
        match step s item with
        | .ok s' => copiesOfEach copies step rest s'
        | .error _ => []

section Copies

variable [Streambuf β]

def readBitCopies (s : Serial β) : List Memcpy :=
  if s.bitsReadReadByte = 0 ∨ s.bitsReadReadByte = 8 then
    let (needed, s) := s.needsReadByte
    if needed then s.readBytesCopies 1 else []
  else []

/-- `readBit`, for its effect on the state. -/
def skipBit (depth : Nat) (s : Serial β) : Except Halt (Serial β) := (readBit depth s).map Prod.snd

def readByteCopies : Nat → Serial β → List Memcpy
  | 0, _ => []
  | depth + 1, s =>
      if s.bitStream ∧ 0 < s.bitsReadReadByte ∧ s.bitsReadReadByte < 8 then
        copiesOfEach (fun s (_ : Nat) => s.readBitCopies) (fun s _ => skipBit depth s)
          (List.range 8) s
      else s.readBytesCopies 1

def readBitsLoopCopies (depth index size : Nat) :
    Nat → Nat → List UInt8 → Serial β → List Memcpy
  | 0, _, _, _ => []
  | rounds + 1, i, bitContainer, s =>
      if i < size then
        (if s.bitsReadReadByte = 8 then readByteCopies depth s else []) ++
          match refillSpent depth s with
          | .ok s =>
              let (i, bitContainer, s) :=
                takeReadCells index size (8 - s.bitsReadReadByte) i bitContainer s
              readBitsLoopCopies depth index size rounds i bitContainer s
          | .error _ => []
      else []

/-- The loop ends when its index, an `int`, overflows. -/
def readBitsCopies (depth : Nat) (s : Serial β) (bitContainer : List UInt8) (index size : Nat) :
    List Memcpy :=
  if !s.bitStream then []
  else readBitsLoopCopies depth index (min size (2 ^ 31)) (size + 1) 0 bitContainer s

mutual

def writeBitCopies : Nat → Serial β → Bool → List Memcpy
  | 0, _, _ => []
  | depth + 1, s, bit =>
      let s := s.putWriteBit bit
      if s.bitsWrittenWriteByte = 8 then writeByteCopies depth s s.currentWriteByte else []

def writeByteCopies : Nat → Serial β → UInt8 → List Memcpy
  | 0, _, _ => []
  | depth + 1, s, byte =>
      if s.bitStream ∧ 0 < s.bitsWrittenWriteByte ∧ s.bitsWrittenWriteByte < 8 then
        copiesOfEach (writeBitCopies depth) (writeBit depth) (byteBits byte) s
      else s.writeBytesCopies 1

end

def writeBitsLoopCopies (depth : Nat) (bitContainer : List UInt8) (size : Nat) :
    Nat → Nat → Serial β → List Memcpy
  | 0, _, _ => []
  | rounds + 1, i, s =>
      if i < size then
        let (i, s) := putWriteCells bitContainer size (8 - s.bitsWrittenWriteByte) i s
        if s.bitsWrittenWriteByte = 8 then
          writeByteCopies depth s s.currentWriteByte ++
            match writeByte depth s s.currentWriteByte with
            | .ok s => writeBitsLoopCopies depth bitContainer size rounds i s
            | .error _ => []
        else writeBitsLoopCopies depth bitContainer size rounds i s
      else []

/-- The loop ends when its index, an `int`, overflows. -/
def writeBitsCopies (depth : Nat) (s : Serial β) (bitContainer : List UInt8) (_index size : Nat) :
    List Memcpy :=
  if !s.bitStream then []
  else writeBitsLoopCopies depth bitContainer (min size (2 ^ 31)) (size + 1) 0 s

end Copies

/-! ## Calls -/

/-- The operations on a buffer; a block that is written has any size a `size_t` holds. -/
inductive BufferCall where
  | readBytes (dest : List UInt8) (size : UInt64)
  | writeBytes (src : { bytes : List UInt8 // bytes.length < 2 ^ 64 })
  | readBit
  | readByte
  | readBits (bitContainer : List UInt8) (index size : UInt64)
  | writeBit (bit : Bool)
  | writeByte (byte : UInt8)
  | writeBits (bitContainer : List UInt8) (index size : UInt64)
  | setReadPosition (index : UInt64)
  | setWritePosition (index : UInt64)

namespace BufferCall

section Calls

variable [Streambuf β]

def perform (depth : Nat) (s : Serial β) : BufferCall → Except Halt (Serial β)
  | .readBytes dest size => do
      let (_, _, s) ← Serial.readBytes depth s dest size.toNat
      .ok s
  | .writeBytes src => do
      let (_, s) ← Serial.writeBytes depth s src.val
      .ok s
  | .readBit => skipBit depth s
  | .readByte => do
      let (_, s) ← Serial.readByte depth s
      .ok s
  | .readBits bitContainer index size => do
      let (_, s) ← Serial.readBits depth s bitContainer index.toNat size.toNat
      .ok s
  | .writeBit bit => Serial.writeBit depth s bit
  | .writeByte byte => Serial.writeByte depth s byte
  | .writeBits bitContainer index size =>
      Serial.writeBits depth s bitContainer index.toNat size.toNat
  | .setReadPosition index => .ok (s.setReadPosition index.toNat)
  | .setWritePosition index => .ok (s.setWritePosition index.toNat)

/-- A call that throws leaves the state as it is. -/
def after (depth : Nat) (s : Serial β) (call : BufferCall) : Serial β :=
  match call.perform depth s with
  | .ok s' => s'
  | .error _ => s

def copies (depth : Nat) (s : Serial β) : BufferCall → List Memcpy
  | .readBytes _ size => s.readBytesCopies size.toNat
  | .writeBytes src => s.writeBytesCopies src.val.length
  | .readBit => s.readBitCopies
  | .readByte => readByteCopies depth s
  | .readBits bitContainer index size => readBitsCopies depth s bitContainer index.toNat size.toNat
  | .writeBit bit => writeBitCopies depth s bit
  | .writeByte byte => writeByteCopies depth s byte
  | .writeBits bitContainer index size =>
      writeBitsCopies depth s bitContainer index.toNat size.toNat
  | .setReadPosition _ => []
  | .setWritePosition _ => []

end Calls

/-- A block of `size` bytes at `index` is empty, or refused by the test, or starts at an index that
is not negative and has a size that stays positive. -/
def BlockConfined (index bufferSize : Int) (size : Nat) : Prop :=
  size = 0 ∨ ¬PassesTest index bufferSize size ∨ (0 ≤ index ∧ size < 2 ^ 63)

/-- The call transfers no byte at a negative index and no block whose size the cast changes. -/
def Confined (s : Serial β) : BufferCall → Prop
  | .readBytes _ size => BlockConfined s.bufferReadIndex s.bufferSize size.toNat
  | .writeBytes src => BlockConfined s.bufferWriteIndex s.bufferSize src.val.length
  | .readBit => 0 ≤ s.bufferReadIndex ∨ ¬(s.bitsReadReadByte = 0 ∨ s.bitsReadReadByte = 8)
  | .readByte => 0 ≤ s.bufferReadIndex
  | .readBits _ _ size =>
      0 ≤ s.bufferReadIndex ∨
        ¬(s.bitStream = true ∧ 8 - s.bitsReadReadByte < size.toNat)
  | .writeBit _ => 0 ≤ s.bufferWriteIndex ∨ ¬s.bitsWrittenWriteByte + 1 = 8
  | .writeByte _ => 0 ≤ s.bufferWriteIndex
  | .writeBits _ _ size =>
      0 ≤ s.bufferWriteIndex ∨
        ¬(s.bitStream = true ∧ 8 ≤ s.bitsWrittenWriteByte + size.toNat)
  | .setReadPosition _ => True
  | .setWritePosition _ => True

end BufferCall

/-! ## Where copies start -/

/-- A `Serial` over a buffer whose size a signed 64-bit integer holds. -/
structure BufferState (s : Serial β) : Prop where
  notCount : s.isCountSerial = false
  isBuffer : s.isBufferSerial = true
  size_nonneg : 0 ≤ s.bufferSize
  size_lt : s.bufferSize < 2 ^ 63
  noOffset : s.nextReadOffset = 0
  readMarker : s.bitsReadReadByte ≤ 8
  writeMarker : s.bitsWrittenWriteByte < 8

/-- An operation that copies single bytes, from `index` on.  It `needs` a byte or none. -/
structure Touches (index : Serial β → Int) (needs : Prop) (s : Serial β) (copies : List Memcpy)
    (s' : Serial β) : Prop where
  sameSize : s'.bufferSize = s.bufferSize
  inside : 0 ≤ index s → (∀ copy ∈ copies, copy.Within s.bufferSize) ∧ 0 ≤ index s'
  outside : index s < 0 → needs → ∃ copy ∈ copies, ¬copy.Within s.bufferSize
  idle : index s < 0 → ¬needs → copies = [] ∧ index s' < 0

theorem Touches.nothing {index : Serial β → Int} {needs : Prop} {s s' : Serial β}
    (hnot : ¬needs) (hsize : s'.bufferSize = s.bufferSize) (hindex : index s' = index s) :
    Touches index needs s [] s' := by
  refine ⟨hsize, fun hinside => ⟨by simp, by omega⟩, fun _ hneeds => absurd hneeds hnot,
    fun houtside _ => ⟨rfl, by omega⟩⟩

theorem Touches.append {index : Serial β → Int} {first second needs : Prop} {s s' s'' : Serial β}
    {front back : List Memcpy} (hfront : Touches index first s front s')
    (hback : Touches index second s' back s'') (hneeds : needs ↔ first ∨ second) :
    Touches index needs s (front ++ back) s'' := by
  have hsize := hfront.sameSize
  refine ⟨hback.sameSize.trans hsize, fun hinside => ?_, fun houtside hneed => ?_,
    fun houtside hnone => ?_⟩
  · obtain ⟨hcopies, hindex⟩ := hfront.inside hinside
    obtain ⟨hcopies', hindex'⟩ := hback.inside hindex
    rw [hsize] at hcopies'
    refine ⟨fun copy hcopy => ?_, hindex'⟩
    rcases List.mem_append.mp hcopy with hleft | hright
    · exact hcopies copy hleft
    · exact hcopies' copy hright
  · by_cases hfirst : first
    · obtain ⟨copy, hcopy, hpast⟩ := hfront.outside houtside hfirst
      exact ⟨copy, List.mem_append_left _ hcopy, hpast⟩
    · obtain ⟨-, hindex⟩ := hfront.idle houtside hfirst
      obtain ⟨copy, hcopy, hpast⟩ :=
        hback.outside hindex ((hneeds.mp hneed).resolve_left hfirst)
      rw [hsize] at hpast
      exact ⟨copy, List.mem_append_right _ hcopy, hpast⟩
  · rw [hneeds, not_or] at hnone
    obtain ⟨hempty, hindex⟩ := hfront.idle houtside hnone.1
    obtain ⟨hempty', hindex'⟩ := hback.idle hindex hnone.2
    exact ⟨by rw [hempty, hempty']; rfl, hindex'⟩

theorem Touches.congr {index : Serial β → Int} {needs needs' : Prop} {s s' s'' : Serial β}
    {copies : List Memcpy} (htouches : Touches index needs s copies s') (hneeds : needs' ↔ needs)
    (hsize : s''.bufferSize = s'.bufferSize) (hindex : index s'' = index s') :
    Touches index needs' s copies s'' := by
  refine ⟨hsize.trans htouches.sameSize, ?_, fun houtside hneed => ?_, fun houtside hnone => ?_⟩
  · rw [hindex]
    exact htouches.inside
  · exact htouches.outside houtside (hneeds.mp hneed)
  · rw [hindex]
    exact htouches.idle houtside fun hneed => hnone (hneeds.mpr hneed)

/-- The copies stay inside the buffer exactly if they start there, or there are none. -/
theorem Touches.within_iff {index : Serial β → Int} {needs : Prop} {s s' : Serial β}
    {copies : List Memcpy} (htouches : Touches index needs s copies s') :
    (∀ copy ∈ copies, copy.Within s.bufferSize) ↔ 0 ≤ index s ∨ ¬needs := by
  by_cases hindex : 0 ≤ index s
  · exact iff_of_true (htouches.inside hindex).1 (Or.inl hindex)
  · by_cases hneeds : needs
    · obtain ⟨copy, hcopy, hpast⟩ := htouches.outside (by omega) hneeds
      exact iff_of_false (fun hall => hpast (hall copy hcopy)) (by simp [hindex, hneeds])
    · obtain ⟨rfl, -⟩ := htouches.idle (by omega) hneeds
      exact iff_of_true (by simp) (Or.inr hneeds)

/-- A block of any size. -/
theorem blockCopy_within_iff {index bufferSize : Int} {size : Nat} (hnonneg : 0 ≤ bufferSize)
    (hlt : bufferSize < 2 ^ 63) :
    (∀ copy ∈ (if PassesTest index bufferSize size then [Memcpy.mk index size] else []),
      copy.Within bufferSize) ↔ BufferCall.BlockConfined index bufferSize size := by
  unfold BufferCall.BlockConfined
  by_cases htest : PassesTest index bufferSize size
  · rw [if_pos htest, List.forall_mem_singleton, Memcpy.within_iff]
    by_cases hsize : size < 2 ^ 63
    · have hfits := (passesTest_iff hnonneg hlt hsize).mp htest
      simp only [htest, hsize, hfits, not_true_eq_false, false_or]
    · have hpast : ¬(0 ≤ index ∧ index + size ≤ bufferSize) := by omega
      simp only [htest, hsize, hpast, not_true_eq_false, false_or, and_false]
  · simp [htest]

/-- The transfer of one byte. -/
theorem Touches.byte {index : Serial β → Int} {s s' : Serial β} (hnonneg : 0 ≤ s.bufferSize)
    (hlt : s.bufferSize < 2 ^ 63) (hsize : s'.bufferSize = s.bufferSize)
    (hnext : index s' =
      if PassesTest (index s) s.bufferSize 1 then toInt64 (index s + 1) else index s) :
    Touches index True s
      (if PassesTest (index s) s.bufferSize 1 then [⟨index s, 1⟩] else []) s' := by
  have htest := @passesTest_iff (index s) _ 1 hnonneg hlt (by omega)
  refine ⟨hsize, fun hinside => ?_, fun houtside _ => ?_, fun _ hnone => absurd trivial hnone⟩
  · by_cases hpasses : PassesTest (index s) s.bufferSize 1
    · have hfits := htest.mp hpasses
      rw [if_pos hpasses, toInt64_of_bounds (by omega) (by omega)] at hnext
      rw [if_pos hpasses, List.forall_mem_singleton, Memcpy.within_iff]
      exact ⟨Or.inr ⟨hinside, hfits⟩, by omega⟩
    · rw [if_neg hpasses] at hnext
      rw [if_neg hpasses, hnext]
      exact ⟨by simp, hinside⟩
  · have hpasses := htest.mpr (by omega)
    rw [if_pos hpasses]
    refine ⟨_, List.mem_singleton_self _, ?_⟩
    rw [Memcpy.within_iff]
    show ¬(1 = 0 ∨ (0 ≤ index s ∧ _))
    omega

/-- A reading operation that needs a byte at a negative index ends with the copy outside the
buffer, any other one in a state of which `after` holds. -/
structure ReadTouches (needs : Prop) (s : Serial β) (copies : List Memcpy)
    (after : Serial β → Prop) (result : Except Halt (Serial β)) : Prop where
  returns : 0 ≤ s.bufferReadIndex ∨ ¬needs → ∃ s', result = .ok s' ∧ after s' ∧
    Touches bufferReadIndex needs s copies s'
  faults : s.bufferReadIndex < 0 → needs → result = .error .fault ∧
    ∃ copy ∈ copies, ¬copy.Within s.bufferSize

/-- The copies that follow those of an operation, if it returns. -/
def copiesAfter (result : Except Halt (Serial β)) (copies : Serial β → List Memcpy) :
    List Memcpy :=
  match result with
  | .ok s => copies s
  | .error _ => []

/-- What a further operation needs decides about the two only if the first one returns. -/
theorem ReadTouches.bind {first needs : Prop} (second : Prop) {s : Serial β}
    {front : List Memcpy}
    {between after : Serial β → Prop} {result : Except Halt (Serial β)}
    {copies : Serial β → List Memcpy} {next : Serial β → Except Halt (Serial β)}
    (hfront : ReadTouches first s front between result)
    (hback : ∀ s', between s' → ReadTouches second s' (copies s') after (next s'))
    (hneeds : needs ↔ first ∨ second) :
    ReadTouches needs s (front ++ copiesAfter result copies) after (result >>= next) := by
  constructor
  · intro hsafe
    obtain ⟨s₁, rfl, hbetween, htouches⟩ := hfront.returns (by tauto)
    have hsafe₁ : 0 ≤ s₁.bufferReadIndex ∨ ¬second := by
      rcases hsafe with hindex | hnone
      · exact Or.inl (htouches.inside hindex).2
      · exact Or.inr fun hsecond => hnone (hneeds.mpr (Or.inr hsecond))
    obtain ⟨s₂, hnext, hafter, htouches₂⟩ := (hback s₁ hbetween).returns hsafe₁
    exact ⟨s₂, hnext, hafter, htouches.append htouches₂ hneeds⟩
  · intro hindex hneed
    by_cases hfirst : first
    · obtain ⟨rfl, copy, hcopy, hpast⟩ := hfront.faults hindex hfirst
      exact ⟨rfl, copy, List.mem_append_left _ hcopy, hpast⟩
    · obtain ⟨s₁, rfl, hbetween, htouches⟩ := hfront.returns (Or.inr hfirst)
      obtain ⟨hresult, copy, hcopy, hpast⟩ := (hback s₁ hbetween).faults
        (htouches.idle hindex hfirst).2 ((hneeds.mp hneed).resolve_left hfirst)
      rw [htouches.sameSize] at hpast
      exact ⟨hresult, copy, List.mem_append_right _ hcopy, hpast⟩

/-- An operation that copies nothing. -/
theorem ReadTouches.nothing {needs : Prop} {s s' : Serial β} {after : Serial β → Prop}
    (hnot : ¬needs) (hafter : after s') (hsize : s'.bufferSize = s.bufferSize)
    (hindex : s'.bufferReadIndex = s.bufferReadIndex) :
    ReadTouches needs s [] after (.ok s') :=
  ⟨fun _ => ⟨s', rfl, hafter, Touches.nothing hnot hsize hindex⟩,
    fun _ hneeds => absurd hneeds hnot⟩

/-- What an operation needs may be said in other words, and of its state less. -/
theorem ReadTouches.congr {needs needs' : Prop} {s : Serial β} {copies : List Memcpy}
    {after after' : Serial β → Prop} {result : Except Halt (Serial β)}
    (htouches : ReadTouches needs s copies after result) (hneeds : needs' ↔ needs)
    (hafter : ∀ s', after s' → after' s') : ReadTouches needs' s copies after' result := by
  constructor
  · intro hsafe
    obtain ⟨s', hresult, hstate, htouches'⟩ := htouches.returns (by rwa [← hneeds])
    exact ⟨s', hresult, hafter s' hstate, htouches'.congr hneeds rfl rfl⟩
  · intro hindex hneed
    exact htouches.faults hindex (hneeds.mp hneed)

/-- Only the index and the size of the buffer matter of the state before. -/
theorem ReadTouches.start {needs : Prop} {s s' : Serial β} {copies : List Memcpy}
    {after : Serial β → Prop} {result : Except Halt (Serial β)}
    (htouches : ReadTouches needs s' copies after result) (hsize : s'.bufferSize = s.bufferSize)
    (hindex : s'.bufferReadIndex = s.bufferReadIndex) :
    ReadTouches needs s copies after result := by
  obtain ⟨hreturns, hfaults⟩ := htouches
  rw [hindex, hsize] at hfaults
  rw [hindex] at hreturns
  refine ⟨fun hsafe => ?_, hfaults⟩
  obtain ⟨s'', hresult, hafter, hsame, hinside, houtside, hidle⟩ := hreturns hsafe
  rw [hindex, hsize] at hinside houtside
  rw [hindex] at hidle
  exact ⟨s'', hresult, hafter, hsame.trans hsize, hinside, houtside, hidle⟩

/-- The copies stay inside the buffer exactly if the operation does not fault. -/
theorem ReadTouches.within_iff {needs : Prop} {s : Serial β} {copies : List Memcpy}
    {after : Serial β → Prop} {result : Except Halt (Serial β)}
    (htouches : ReadTouches needs s copies after result) :
    (∀ copy ∈ copies, copy.Within s.bufferSize) ↔ 0 ≤ s.bufferReadIndex ∨ ¬needs := by
  by_cases hsafe : 0 ≤ s.bufferReadIndex ∨ ¬needs
  · obtain ⟨s', -, -, htouches'⟩ := htouches.returns hsafe
    exact htouches'.within_iff
  · rw [not_or, not_not, Int.not_le] at hsafe
    obtain ⟨-, copy, hcopy, hpast⟩ := htouches.faults hsafe.1 hsafe.2
    exact iff_of_false (fun hall => hpast (hall copy hcopy)) (by simp [hsafe.2]; omega)

/-! ## Reading -/

section Reading

variable [Streambuf β]

omit [Streambuf β] in
theorem readBytesCopies_tested {s : Serial β} (hcount : s.isCountSerial = false)
    (hbuffer : s.isBufferSerial = true) (size : Nat) :
    s.readBytesCopies size =
      if PassesTest s.bufferReadIndex s.bufferSize size then [⟨s.bufferReadIndex, size⟩]
      else [] := by
  simp only [readBytesCopies, hcount, hbuffer, Bool.false_eq_true, if_true, if_false]

/-- A refill, and the state after it. -/
def refill (depth : Nat) (s : Serial β) : Except Halt (Serial β) := do
  let (_, dest, s) ← readBytes depth s [s.currentReadByte] 1
  .ok (s.refilled dest)

theorem refill_touches {s : Serial β} (hstate : s.BufferState) (depth : Nat) :
    ReadTouches True s (s.readBytesCopies 1)
      (fun s' => s'.BufferState ∧ s'.bitsReadReadByte = 0) (refill (depth + 1) s) := by
  have htest := @passesTest_iff s.bufferReadIndex _ 1 hstate.size_nonneg hstate.size_lt (by omega)
  have hwithin : (Memcpy.mk s.bufferReadIndex 1).Within s.bufferSize ↔
      0 ≤ s.bufferReadIndex ∧ s.bufferReadIndex + (1 : Nat) ≤ s.bufferSize := by
    rw [Memcpy.within_iff]
    exact or_iff_right Nat.one_ne_zero
  have hbyte (s' : Serial β) (hsize : s'.bufferSize = s.bufferSize) :=
    @Touches.byte _ bufferReadIndex s s' hstate.size_nonneg hstate.size_lt hsize
  have hrefilled (index : Int) (dest : List UInt8) :
      (refilled { s with bufferReadIndex := index } dest).BufferState :=
    ⟨hstate.notCount, hstate.isBuffer, hstate.size_nonneg, hstate.size_lt, hstate.noOffset,
      Nat.zero_le 8, hstate.writeMarker⟩
  rw [readBytesCopies_tested hstate.notCount hstate.isBuffer, refill]
  by_cases hpasses : PassesTest s.bufferReadIndex s.bufferSize 1
  · simp only [if_pos hpasses] at hbyte ⊢
    constructor
    · intro hsafe
      have hindex := hsafe.resolve_right (not_not_intro trivial)
      rw [readBytes_copied hstate.notCount hstate.isBuffer hpasses
        (hwithin.mpr ⟨hindex, htest.mp hpasses⟩)]
      exact ⟨_, rfl, ⟨hrefilled _ _, rfl⟩, hbyte _ rfl rfl⟩
    · intro hindex _
      have hpast : ¬(Memcpy.mk s.bufferReadIndex 1).Within s.bufferSize := fun hinside =>
        absurd (hwithin.mp hinside).1 (Int.not_le.mpr hindex)
      rw [readBytes_fault hstate.notCount hstate.isBuffer hpasses hpast]
      exact ⟨rfl, _, List.mem_singleton_self _, hpast⟩
  · simp only [if_neg hpasses] at hbyte ⊢
    have hnonneg := hstate.size_nonneg
    rw [readBytes_tested hstate.notCount hstate.isBuffer, if_neg hpasses]
    refine ⟨fun _ => ⟨_, rfl, ⟨hrefilled s.bufferReadIndex _, rfl⟩, hbyte _ rfl rfl⟩,
      fun hindex => absurd (htest.mpr ?_) hpasses⟩
    omega

omit [Streambuf β] in
/-- Bits of the current byte need no other one. -/
theorem BufferState.taken {s : Serial β} (hstate : s.BufferState) {count : Nat}
    (hcount : s.bitsReadReadByte + count ≤ 8) : (s.taken count).BufferState :=
  ⟨hstate.notCount, hstate.isBuffer, hstate.size_nonneg, hstate.size_lt, hstate.noOffset, hcount,
    hstate.writeMarker⟩

theorem skipBit_eq {s : Serial β} (hstate : s.BufferState)
    (hspent : s.bitsReadReadByte = 0 ∨ s.bitsReadReadByte = 8) (depth : Nat) :
    skipBit (depth + 1) s = refill depth s >>= fun s' => .ok (s'.taken 1) := by
  have hneeded : s.needsReadByte = (true, s) := if_pos hstate.noOffset
  rw [skipBit, readBit, if_pos hspent, hneeded, refill]
  simp only [if_true]
  cases readBytes depth s [s.currentReadByte] 1 with
  | error halt => rfl
  | ok read => rfl

theorem skipBit_touches {s : Serial β} (hstate : s.BufferState) (depth : Nat) :
    ReadTouches (s.bitsReadReadByte = 0 ∨ s.bitsReadReadByte = 8) s s.readBitCopies
      (fun s' => s'.BufferState ∧ s'.bitsReadReadByte =
        if s.bitsReadReadByte = 0 ∨ s.bitsReadReadByte = 8 then 1 else s.bitsReadReadByte + 1)
      (skipBit (depth + 2) s) := by
  have hmarker := hstate.readMarker
  by_cases hspent : s.bitsReadReadByte = 0 ∨ s.bitsReadReadByte = 8
  · have hneeded : s.needsReadByte = (true, s) := if_pos hstate.noOffset
    rw [skipBit_eq hstate hspent, readBitCopies, if_pos hspent, hneeded, if_pos hspent]
    have hboth := (refill_touches hstate depth).bind False
      (fun s' hs' => @ReadTouches.nothing _ False s' (s'.taken 1)
        (fun t => t.BufferState ∧ t.bitsReadReadByte = 1) id
        ⟨hs'.1.taken (by omega), by rw [taken, withReadBits, hs'.2]⟩ rfl rfl)
      (show _ ↔ True ∨ False by simpa using hspent)
    have hnone : copiesAfter (refill (depth + 1) s) (fun _ => []) = [] := by
      unfold copiesAfter
      split <;> rfl
    rwa [hnone, List.append_nil] at hboth
  · have hskip : skipBit (depth + 2) s = .ok (s.taken 1) := by
      rw [skipBit, readBit, if_neg hspent]
      rfl
    rw [hskip, readBitCopies, if_neg hspent, if_neg hspent]
    exact ReadTouches.nothing hspent ⟨hstate.taken (by omega), rfl⟩ rfl rfl

/-- Bits from inside the current byte on. -/
theorem skipBits_touches (depth : Nat) (items : List Nat) {s : Serial β} (hstate : s.BufferState)
    (hpos : 0 < s.bitsReadReadByte) :
    ReadTouches (8 - s.bitsReadReadByte < items.length) s
      (copiesOfEach (fun s _ => s.readBitCopies) (fun s _ => skipBit (depth + 2) s) items s)
      BufferState (writeEach (fun s _ => skipBit (depth + 2) s) items s) := by
  induction items generalizing s with
  | nil => exact ReadTouches.nothing (Nat.not_lt_zero _) hstate rfl rfl
  | cons item rest ih =>
      have hmarker := hstate.readMarker
      rw [writeEach]
      refine (skipBit_touches hstate depth).bind
        (8 - (if s.bitsReadReadByte = 0 ∨ s.bitsReadReadByte = 8 then 1
          else s.bitsReadReadByte + 1) < rest.length) (fun s₁ hs₁ => ?_) ?_
      · have hpos₁ : 0 < s₁.bitsReadReadByte := by
          rw [hs₁.2]
          split <;> omega
        have hrest := ih hs₁.1 hpos₁
        rwa [hs₁.2] at hrest
      · rw [List.length_cons]
        split <;> omega

omit [Streambuf β] in
/-- The byte that is put together does not matter for the state. -/
theorem readByteBits_state (readBit : Serial β → Except Halt (Bool × Serial β))
    (items : List Nat) (byte : UInt8) (s : Serial β) :
    (readByteBits readBit items.length byte s).map Prod.snd =
      writeEach (fun s _ => (readBit s).map Prod.snd) items s := by
  induction items generalizing byte s with
  | nil => rfl
  | cons item rest ih =>
      rw [List.length_cons, readByteBits, writeEach]
      cases readBit s with
      | error halt => rfl
      | ok result => exact ih _ _

/-- `readByte`, for its effect on the state. -/
def skipByte (depth : Nat) (s : Serial β) : Except Halt (Serial β) :=
  (readByte depth s).map Prod.snd

theorem skipByte_touches {s : Serial β} (hstate : s.BufferState) (depth : Nat) :
    ReadTouches True s (readByteCopies (depth + 3) s)
      (fun s' => s'.BufferState ∧ (s.bitsReadReadByte = 8 → s'.bitsReadReadByte = 0))
      (skipByte (depth + 3) s) := by
  rw [skipByte, readByte, readByteCopies]
  by_cases hinside : s.bitStream = true ∧ 0 < s.bitsReadReadByte ∧ s.bitsReadReadByte < 8
  · have hneeds : 8 - s.bitsReadReadByte < (List.range 8).length := by
      rw [List.length_range]
      omega
    rw [if_pos hinside, if_pos hinside]
    have hbits := readByteBits_state (readBit (depth + 2)) (List.range 8) 0 s
    rw [List.length_range] at hbits
    rw [hbits]
    exact (skipBits_touches depth (List.range 8) hstate hinside.2.1).congr
      (iff_of_true trivial hneeds) fun s' hs' => ⟨hs', fun hspent => by omega⟩
  · have hrefill : (do
        let (_, dest, s) ← readBytes (depth + 2) s [s.currentReadByte] 1
        let s := s.refilled dest
        .ok (s.currentReadByte, s) : Except Halt (UInt8 × Serial β)).map Prod.snd =
        refill (depth + 2) s := by
      rw [refill]
      cases readBytes (depth + 2) s [s.currentReadByte] 1 with
      | error halt => rfl
      | ok read => rfl
    rw [if_neg hinside, if_neg hinside, hrefill]
    exact (refill_touches hstate (depth + 1)).congr Iff.rfl fun s' hs' => ⟨hs'.1, fun _ => hs'.2⟩

omit [Streambuf β] in
/-- The inner loop takes the bits that are left in the byte, as many as are asked for. -/
theorem takeReadCells_state (index : Nat) {size : Nat} (room : Nat) {i : Nat}
    (bitContainer : List UInt8) (s : Serial β) (hi : i ≤ size) :
    (takeReadCells index size room i bitContainer s).1 = i + min room (size - i) ∧
      (takeReadCells index size room i bitContainer s).2.2 = s.taken (min room (size - i)) := by
  induction room generalizing i bitContainer s with
  | zero =>
      rw [Nat.zero_min]
      exact ⟨rfl, rfl⟩
  | succ room ih =>
      unfold takeReadCells
      by_cases hend : i < size
      · have hmin : min (room + 1) (size - i) = min room (size - (i + 1)) + 1 := by omega
        obtain ⟨hindex, hstate⟩ := ih (bitContainer.set (i + index) (s.readCell (8 - (room + 1))))
          { s with bitsReadReadByte := s.bitsReadReadByte + 1 } hend
        rw [if_pos hend, hindex, hstate, hmin]
        refine ⟨by omega, ?_⟩
        simp only [taken, withReadBits, add_assoc, add_comm 1]
      · have hnone : min (room + 1) (size - i) = 0 := by omega
        rw [if_neg hend, hnone]
        exact ⟨rfl, rfl⟩

theorem refillSpent_touches {s : Serial β} (hstate : s.BufferState) (depth : Nat) :
    ReadTouches (s.bitsReadReadByte = 8) s
      (if s.bitsReadReadByte = 8 then readByteCopies (depth + 3) s else [])
      (fun s' => s'.BufferState ∧
        s'.bitsReadReadByte = if s.bitsReadReadByte = 8 then 0 else s.bitsReadReadByte)
      (refillSpent (depth + 3) s) := by
  unfold refillSpent
  by_cases hspent : s.bitsReadReadByte = 8
  · have hskip : (do
        let (_, s) ← readByte (depth + 3) s
        .ok s : Except Halt (Serial β)) = skipByte (depth + 3) s := by
      rw [skipByte]
      cases readByte (depth + 3) s with
      | error halt => rfl
      | ok read => rfl
    rw [if_pos hspent, if_pos hspent, if_pos hspent, hskip]
    exact (skipByte_touches hstate depth).congr (iff_true_intro hspent)
      fun s' hs' => ⟨hs'.1, hs'.2 hspent⟩
  · rw [if_neg hspent, if_neg hspent, if_neg hspent]
    exact ReadTouches.nothing hspent ⟨hstate, rfl⟩ rfl rfl

theorem readBitsLoop_touches (depth rounds index : Nat) {size i : Nat} (bitContainer : List UInt8)
    {s : Serial β} (hstate : s.BufferState) (hi : i ≤ size) (hrounds : size - i < rounds) :
    ReadTouches (8 - s.bitsReadReadByte < size - i) s
      (readBitsLoopCopies (depth + 3) index size rounds i bitContainer s) BufferState
      ((readBitsLoop (depth + 3) index size rounds i bitContainer s).map Prod.snd) := by
  induction rounds generalizing i bitContainer s with
  | zero => omega
  | succ rounds ih =>
      have hmarker := hstate.readMarker
      by_cases hend : i < size
      · have hloop : (readBitsLoop (depth + 3) index size (rounds + 1) i bitContainer s).map
              Prod.snd = refillSpent (depth + 3) s >>= fun s' =>
            let (i, bitContainer, s') :=
              takeReadCells index size (8 - s'.bitsReadReadByte) i bitContainer s'
            (readBitsLoop (depth + 3) index size rounds i bitContainer s').map Prod.snd := by
          rw [readBitsLoop, if_pos hend]
          cases refillSpent (depth + 3) s with
          | error halt => rfl
          | ok s' => rfl
        rw [hloop, readBitsLoopCopies, if_pos hend]
        -- how many bits the current byte has left once it is refilled
        obtain ⟨marker, hnext⟩ : ∃ marker,
            (if s.bitsReadReadByte = 8 then 0 else s.bitsReadReadByte) = marker := ⟨_, rfl⟩
        have hrefill := refillSpent_touches hstate depth
        rw [hnext] at hrefill
        refine hrefill.bind (8 - (marker + min (8 - marker) (size - i)) <
          size - (i + min (8 - marker) (size - i))) (fun s₁ hs₁ => ?_) ?_
        · obtain ⟨hstate₁, hmarker₁⟩ := hs₁
          obtain ⟨hindex, htaken⟩ :=
            takeReadCells_state index (8 - s₁.bitsReadReadByte) bitContainer s₁ hi
          generalize takeReadCells index size (8 - s₁.bitsReadReadByte) i bitContainer s₁ = cells
            at hindex htaken
          obtain ⟨i', bitContainer', s₂⟩ := cells
          simp only at hindex htaken ⊢
          have hlt : marker < 8 := by
            rw [← hnext]
            split <;> omega
          rw [hmarker₁] at hindex htaken
          have hrest := @ih i' bitContainer' s₂ (by rw [htaken]; exact hstate₁.taken (by omega))
            (by omega) (by omega)
          have hmarker₂ : s₂.bitsReadReadByte = marker + min (8 - marker) (size - i) := by
            rw [htaken, ← hmarker₁]
            rfl
          rw [hmarker₂] at hrest
          rw [hindex] at hrest ⊢
          exact hrest.start (by rw [htaken]; rfl) (by rw [htaken]; rfl)
        · split at hnext <;> omega
      · rw [readBitsLoop, readBitsLoopCopies, if_neg hend, if_neg hend]
        exact ReadTouches.nothing (by omega) hstate rfl rfl

end Reading

/-! ## Writing -/

section Writing

variable [Streambuf β]

omit [Streambuf β] in
theorem writeBytesCopies_tested {s : Serial β} (hcount : s.isCountSerial = false)
    (hbuffer : s.isBufferSerial = true) (size : Nat) :
    s.writeBytesCopies size =
      if PassesTest s.bufferWriteIndex s.bufferSize size then [⟨s.bufferWriteIndex, size⟩]
      else [] := by
  simp only [writeBytesCopies, hcount, hbuffer, Bool.false_eq_true, if_true, if_false]

omit [Streambuf β] in
/-- Only the pending bits of a `Serial` change. -/
theorem BufferState.withWriteBits {s : Serial β} (hstate : s.BufferState) (byte : UInt8)
    {count : Nat} (hcount : count < 8) : (s.withWriteBits byte count).BufferState :=
  ⟨hstate.notCount, hstate.isBuffer, hstate.size_nonneg, hstate.size_lt, hstate.noOffset,
    hstate.readMarker, hcount⟩

/-- A byte that is written at a byte boundary, or flushed. -/
theorem writeByte_flush {s : Serial β} {byte : UInt8}
    (hflush : ¬(s.bitStream = true ∧ 0 < s.bitsWrittenWriteByte ∧ s.bitsWrittenWriteByte < 8))
    (hstate : (s.withWriteBits 0 0).BufferState) (depth : Nat) :
    ∃ s', writeByte (depth + 2) s byte = .ok s' ∧ s'.BufferState ∧ s'.bitsWrittenWriteByte = 0 ∧
      Touches bufferWriteIndex True s (writeByteCopies (depth + 2) s byte) s' := by
  have hcount : s.isCountSerial = false := hstate.notCount
  have hbuffer : s.isBufferSerial = true := hstate.isBuffer
  rw [writeByte, writeByteCopies, if_neg hflush, if_neg hflush, writeBytes_tested hcount hbuffer,
    writeBytesCopies_tested hcount hbuffer, List.length_singleton]
  by_cases hpasses : PassesTest s.bufferWriteIndex s.bufferSize 1
  · rw [if_pos hpasses]
    exact ⟨_, rfl, ⟨hcount, hbuffer, hstate.size_nonneg, hstate.size_lt, hstate.noOffset,
      hstate.readMarker, Nat.succ_pos 7⟩, rfl,
      Touches.byte hstate.size_nonneg hstate.size_lt rfl (by rw [if_pos hpasses]; rfl)⟩
  · rw [if_neg hpasses]
    exact ⟨_, rfl, hstate, rfl,
      Touches.byte hstate.size_nonneg hstate.size_lt rfl (by rw [if_neg hpasses])⟩

/-- A bit needs a byte when it is the eighth. -/
theorem writeBit_touches {s : Serial β} (hstate : s.BufferState) (bit : Bool) (depth : Nat) :
    ∃ s', writeBit (depth + 3) s bit = .ok s' ∧ s'.BufferState ∧
      (s'.bitsWrittenWriteByte =
        if s.bitsWrittenWriteByte + 1 = 8 then 0 else s.bitsWrittenWriteByte + 1) ∧
      Touches bufferWriteIndex (s.bitsWrittenWriteByte + 1 = 8) s
        (writeBitCopies (depth + 3) s bit) s' := by
  have hmarker := hstate.writeMarker
  have hput : (s.putWriteBit bit).bitsWrittenWriteByte = s.bitsWrittenWriteByte + 1 := rfl
  rw [writeBit, writeBitCopies]
  simp only [hput]
  by_cases hfull : s.bitsWrittenWriteByte + 1 = 8
  · obtain ⟨s', hwrite, hstate', hzero, htouches⟩ :=
      @writeByte_flush _ _ (s.putWriteBit bit) (s.putWriteBit bit).currentWriteByte (by omega)
        (hstate.withWriteBits 0 (Nat.succ_pos 7)) depth
    have hput : Touches bufferWriteIndex False s [] (s.putWriteBit bit) :=
      Touches.nothing id rfl rfl
    have hboth := hput.append htouches
      (show s.bitsWrittenWriteByte + 1 = 8 ↔ False ∨ True by simp [hfull])
    rw [if_pos hfull, if_pos hfull, if_pos hfull]
    exact ⟨s', hwrite, hstate', hzero, hboth⟩
  · rw [if_neg hfull, if_neg hfull, if_neg hfull]
    exact ⟨s.putWriteBit bit, rfl, hstate.withWriteBits _ (by omega), rfl,
      Touches.nothing hfull rfl rfl⟩

theorem writeBits_touches (depth : Nat) (bits : List Bool) {s : Serial β}
    (hstate : s.BufferState) :
    ∃ s', writeEach (writeBit (depth + 3)) bits s = .ok s' ∧ s'.BufferState ∧
      Touches bufferWriteIndex (8 ≤ s.bitsWrittenWriteByte + bits.length) s
        (copiesOfEach (writeBitCopies (depth + 3)) (writeBit (depth + 3)) bits s) s' := by
  induction bits generalizing s with
  | nil =>
      have hmarker := hstate.writeMarker
      exact ⟨s, rfl, hstate, Touches.nothing (by rw [List.length_nil]; omega) rfl rfl⟩
  | cons bit rest ih =>
      have hmarker := hstate.writeMarker
      obtain ⟨s₁, hwrite, hstate₁, hmarker₁, htouches₁⟩ := writeBit_touches hstate bit depth
      obtain ⟨s₂, hrest, hstate₂, htouches₂⟩ := ih hstate₁
      refine ⟨s₂, by rw [writeEach, hwrite, ok_bind, hrest], hstate₂, ?_⟩
      rw [copiesOfEach, hwrite]
      apply htouches₁.append htouches₂
      rw [hmarker₁, List.length_cons]
      split <;> omega

theorem writeByte_touches {s : Serial β} (hstate : s.BufferState) (byte : UInt8) (depth : Nat) :
    ∃ s', writeByte (depth + 4) s byte = .ok s' ∧ s'.BufferState ∧
      Touches bufferWriteIndex True s (writeByteCopies (depth + 4) s byte) s' := by
  by_cases hinside : s.bitStream = true ∧ 0 < s.bitsWrittenWriteByte ∧ s.bitsWrittenWriteByte < 8
  · obtain ⟨s', hwrite, hstate', htouches⟩ := writeBits_touches depth (byteBits byte) hstate
    have hneeds : 8 ≤ s.bitsWrittenWriteByte + (byteBits byte).length := by
      rw [byteBits_length]
      omega
    rw [writeByte, writeByteCopies, if_pos hinside, if_pos hinside]
    exact ⟨s', hwrite, hstate', htouches.congr (iff_of_true trivial hneeds) rfl rfl⟩
  · obtain ⟨s', hwrite, hstate', -, htouches⟩ :=
      @writeByte_flush _ _ s byte hinside (hstate.withWriteBits 0 (Nat.succ_pos 7)) (depth + 2)
    exact ⟨s', hwrite, hstate', htouches⟩

omit [Streambuf β] in
/-- The inner loop adds bits to the byte as long as there is room. -/
theorem putWriteCells_state (bitContainer : List UInt8) {size : Nat} (room : Nat) {i : Nat}
    (s : Serial β) (hi : i ≤ size) :
    (putWriteCells bitContainer size room i s).1 = i + min room (size - i) ∧
      ∃ byte, (putWriteCells bitContainer size room i s).2 =
        s.withWriteBits byte (s.bitsWrittenWriteByte + min room (size - i)) := by
  induction room generalizing i s with
  | zero =>
      rw [Nat.zero_min]
      exact ⟨rfl, s.currentWriteByte, rfl⟩
  | succ room ih =>
      unfold putWriteCells
      by_cases hend : i < size
      · have hmin : min (room + 1) (size - i) = min room (size - (i + 1)) + 1 := by omega
        obtain ⟨hindex, byte, hstate⟩ :=
          ih (s.putWriteCell (bitContainer.getD i 0) (8 - (room + 1))) hend
        rw [if_pos hend, hindex, hstate, hmin]
        refine ⟨by omega, byte, ?_⟩
        simp only [putWriteCell, withWriteBits, add_assoc, add_comm 1]
      · have hnone : min (room + 1) (size - i) = 0 := by omega
        rw [if_neg hend, hnone]
        exact ⟨rfl, s.currentWriteByte, rfl⟩

theorem writeBitsLoop_touches (depth rounds : Nat) (bitContainer : List UInt8) {size i : Nat}
    {s : Serial β} (hstate : s.BufferState) (hi : i ≤ size) (hrounds : size - i < rounds) :
    ∃ s', writeBitsLoop (depth + 2) bitContainer size rounds i s = .ok s' ∧ s'.BufferState ∧
      Touches bufferWriteIndex (8 ≤ s.bitsWrittenWriteByte + (size - i)) s
        (writeBitsLoopCopies (depth + 2) bitContainer size rounds i s) s' := by
  induction rounds generalizing i s with
  | zero => omega
  | succ rounds ih =>
      have hmarker := hstate.writeMarker
      unfold writeBitsLoop writeBitsLoopCopies
      by_cases hend : i < size
      · obtain ⟨hindex, byte, hput⟩ :=
          putWriteCells_state bitContainer (8 - s.bitsWrittenWriteByte) s hi
        rw [if_pos hend, if_pos hend]
        generalize putWriteCells bitContainer size (8 - s.bitsWrittenWriteByte) i s = next at *
        obtain ⟨i', s₁⟩ := next
        simp only at hindex hput ⊢
        have hmarker₁ : s₁.bitsWrittenWriteByte =
            s.bitsWrittenWriteByte + min (8 - s.bitsWrittenWriteByte) (size - i) := by
          rw [hput]
          rfl
        have hkept : Touches bufferWriteIndex False s [] s₁ := by
          rw [hput]
          exact Touches.nothing id rfl rfl
        by_cases hfull : s₁.bitsWrittenWriteByte = 8
        · -- the byte is flushed, and the rest starts with an empty one
          have hempty : (s₁.withWriteBits 0 0).BufferState := by
            rw [hput]
            exact hstate.withWriteBits 0 (Nat.succ_pos 7)
          obtain ⟨s₂, hwrite, hstate₂, hzero, htouches₂⟩ :=
            @writeByte_flush _ _ s₁ s₁.currentWriteByte (by omega) hempty depth
          obtain ⟨s₃, hloop, hstate₃, htouches₃⟩ := @ih i' s₂ hstate₂ (by omega) (by omega)
          have hflush := hkept.append htouches₂ (show True ↔ False ∨ True by simp)
          have hall := hflush.append htouches₃
            (show 8 ≤ s.bitsWrittenWriteByte + (size - i) ↔ True ∨ _ by
              simp only [true_or, iff_true]
              omega)
          rw [if_pos hfull, if_pos hfull, hwrite]
          exact ⟨s₃, hloop, hstate₃, hall⟩
        · have hstate₁ : s₁.BufferState := by
            rw [hput]
            exact hstate.withWriteBits byte (by omega)
          obtain ⟨s₃, hloop, hstate₃, htouches₃⟩ := @ih i' s₁ hstate₁ (by omega) (by omega)
          have hall := hkept.append htouches₃
            (show 8 ≤ s.bitsWrittenWriteByte + (size - i) ↔ False ∨ _ by
              simp only [false_or]
              omega)
          rw [if_neg hfull, if_neg hfull]
          exact ⟨s₃, hloop, hstate₃, hall⟩
      · rw [if_neg hend, if_neg hend]
        exact ⟨s, rfl, hstate, Touches.nothing (by omega) rfl rfl⟩

end Writing

/-! ## Runs -/

section Runs

variable [Streambuf β]

omit [Streambuf β] in
theorem BufferState.moved {s : Serial β} (hstate : s.BufferState) (memory : List UInt8)
    (readIndex writeIndex : Int) :
    BufferState { s with
      bufferPointer := memory
      bufferReadIndex := readIndex
      bufferWriteIndex := writeIndex } :=
  ⟨hstate.notCount, hstate.isBuffer, hstate.size_nonneg, hstate.size_lt, hstate.noOffset,
    hstate.readMarker, hstate.writeMarker⟩

namespace BufferCall

/-- The state after a call is one of a buffer of the same size, and the copies of the call stay
inside the buffer exactly if the call is confined. -/
def Bounded (depth : Nat) (s : Serial β) (call : BufferCall) : Prop :=
  (call.after depth s).BufferState ∧ (call.after depth s).bufferSize = s.bufferSize ∧
    ((∀ copy ∈ call.copies depth s, copy.Within s.bufferSize) ↔ call.Confined s)

theorem Bounded.of_ok {depth : Nat} {s s' : Serial β} {call : BufferCall}
    (hcall : call.perform depth s = .ok s') (hstate : s'.BufferState)
    (hsize : s'.bufferSize = s.bufferSize)
    (hconfined : (∀ copy ∈ call.copies depth s, copy.Within s.bufferSize) ↔ call.Confined s) :
    call.Bounded depth s := by
  have hafter : call.after depth s = s' := by rw [after, hcall]
  unfold Bounded
  rw [hafter]
  exact ⟨hstate, hsize, hconfined⟩

theorem Bounded.of_error {depth : Nat} {s : Serial β} {call : BufferCall} {halt : Halt}
    (hcall : call.perform depth s = .error halt) (hstate : s.BufferState)
    (hconfined : (∀ copy ∈ call.copies depth s, copy.Within s.bufferSize) ↔ call.Confined s) :
    call.Bounded depth s := by
  have hafter : call.after depth s = s := by rw [after, hcall]
  unfold Bounded
  rw [hafter]
  exact ⟨hstate, rfl, hconfined⟩

theorem Bounded.of_touches {depth : Nat} {s : Serial β} {call : BufferCall} {needs : Prop}
    {after : Serial β → Prop} {result : Except Halt (Serial β)}
    (hcall : call.perform depth s = result)
    (htouches : ReadTouches needs s (call.copies depth s) after result)
    (hafter : ∀ s', after s' → s'.BufferState) (hstate : s.BufferState)
    (hconfined : call.Confined s ↔ 0 ≤ s.bufferReadIndex ∨ ¬needs) : call.Bounded depth s := by
  have hwithin := htouches.within_iff.trans hconfined.symm
  by_cases hsafe : 0 ≤ s.bufferReadIndex ∨ ¬needs
  · obtain ⟨s', rfl, hs', htouches'⟩ := htouches.returns hsafe
    exact Bounded.of_ok hcall (hafter s' hs') htouches'.sameSize hwithin
  · rw [not_or, not_not, Int.not_le] at hsafe
    obtain ⟨rfl, -⟩ := htouches.faults hsafe.1 hsafe.2
    exact Bounded.of_error hcall hstate hwithin

theorem bounded_readBytes (depth : Nat) {s : Serial β} (hstate : s.BufferState)
    (dest : List UInt8) (size : UInt64) : (readBytes dest size).Bounded (depth + 1) s := by
  have hread := readBytes_tested hstate.notCount hstate.isBuffer depth dest size.toNat
  have hconfined := @blockCopy_within_iff s.bufferReadIndex s.bufferSize size.toNat
    hstate.size_nonneg hstate.size_lt
  rw [← readBytesCopies_tested hstate.notCount hstate.isBuffer] at hconfined
  by_cases hpasses : PassesTest s.bufferReadIndex s.bufferSize size.toNat
  · by_cases hwithin : (Memcpy.mk s.bufferReadIndex size.toNat).Within s.bufferSize
    · have hcall : perform (depth + 1) s (readBytes dest size) =
          .ok { s with bufferReadIndex := toInt64 (s.bufferReadIndex + size.toNat) } := by
        rw [perform, hread, if_pos hpasses, if_pos hwithin]
        rfl
      exact Bounded.of_ok hcall (hstate.moved _ _ _) rfl hconfined
    · have hcall : perform (depth + 1) s (readBytes dest size) = .error .fault := by
        rw [perform, hread, if_pos hpasses, if_neg hwithin]
        rfl
      exact Bounded.of_error hcall hstate hconfined
  · rw [if_neg hpasses] at hread
    exact Bounded.of_ok (by rw [perform, hread]; rfl) hstate rfl hconfined

theorem bounded_writeBytes (depth : Nat) {s : Serial β} (hstate : s.BufferState)
    (src : { bytes : List UInt8 // bytes.length < 2 ^ 64 }) :
    (writeBytes src).Bounded (depth + 1) s := by
  have hwrite := writeBytes_tested hstate.notCount hstate.isBuffer depth src.val
  have hconfined := @blockCopy_within_iff s.bufferWriteIndex s.bufferSize src.val.length
    hstate.size_nonneg hstate.size_lt
  rw [← writeBytesCopies_tested hstate.notCount hstate.isBuffer] at hconfined
  by_cases hpasses : PassesTest s.bufferWriteIndex s.bufferSize src.val.length
  · have hcall : perform (depth + 1) s (writeBytes src) =
        .ok { s with
          bufferPointer := overwrite s.bufferPointer s.bufferWriteIndex.toNat src.val
          bufferWriteIndex := toInt64 (s.bufferWriteIndex + src.val.length) } := by
      rw [perform, hwrite, if_pos hpasses]
      rfl
    exact Bounded.of_ok hcall (hstate.moved _ _ _) rfl hconfined
  · rw [if_neg hpasses] at hwrite
    exact Bounded.of_ok (by rw [perform, hwrite]; rfl) hstate rfl hconfined

theorem bounded_readBits (depth : Nat) {s : Serial β} (hstate : s.BufferState)
    (bitContainer : List UInt8) (index size : UInt64) :
    (readBits bitContainer index size).Bounded (depth + 3) s := by
  by_cases hstream : s.bitStream = true
  · have htouches := readBitsLoop_touches depth (size.toNat + 1) index.toNat bitContainer hstate
      (Nat.zero_le (min size.toNat (2 ^ 31))) (by omega)
    have hcopies : copies (depth + 3) s (readBits bitContainer index size) =
        readBitsLoopCopies (depth + 3) index.toNat (min size.toNat (2 ^ 31)) (size.toNat + 1) 0
          bitContainer s := if_neg (by simp [hstream])
    have hconfined : Confined s (readBits bitContainer index size) ↔
        0 ≤ s.bufferReadIndex ∨
          ¬8 - s.bitsReadReadByte < min size.toNat (2 ^ 31) - 0 := by
      unfold Confined
      simp only [hstream, true_and]
      omega
    rw [← hcopies] at htouches
    have hread : Serial.readBits (depth + 3) s bitContainer index.toNat size.toNat =
        if 2 ^ 31 ≤ size.toNat then .error .outOfFuel
        else readBitsLoop (depth + 3) index.toNat size.toNat (size.toNat + 1) 0 bitContainer s :=
      if_neg (by simp [hstream])
    by_cases hsize : 2 ^ 31 ≤ size.toNat
    · rw [if_pos hsize] at hread
      exact Bounded.of_error (by rw [perform, hread]; rfl) hstate
        (htouches.within_iff.trans hconfined.symm)
    · have hmin : min size.toNat (2 ^ 31) = size.toNat := by omega
      have hcall : perform (depth + 3) s (readBits bitContainer index size) =
          (readBitsLoop (depth + 3) index.toNat (min size.toNat (2 ^ 31)) (size.toNat + 1) 0
            bitContainer s).map Prod.snd := by
        rw [perform, hread, if_neg hsize, hmin]
        cases readBitsLoop (depth + 3) index.toNat size.toNat (size.toNat + 1) 0 bitContainer s with
        | error halt => rfl
        | ok result => rfl
      exact Bounded.of_touches hcall htouches (fun s' hs' => hs') hstate hconfined
  · have hread : Serial.readBits (depth + 3) s bitContainer index.toNat size.toNat =
        .error (.exception "readBits called and Serial is not a bitStream") :=
      if_pos (by simp [hstream])
    have hcopies : copies (depth + 3) s (readBits bitContainer index size) = [] :=
      if_pos (by simp [hstream])
    apply Bounded.of_error (by rw [perform, hread]; rfl) hstate
    rw [hcopies]
    exact iff_of_true (by simp) (Or.inr fun hneeds => hstream hneeds.1)

theorem bounded_writeBits (depth : Nat) {s : Serial β} (hstate : s.BufferState)
    (bitContainer : List UInt8) (index size : UInt64) :
    (writeBits bitContainer index size).Bounded (depth + 2) s := by
  by_cases hstream : s.bitStream = true
  · obtain ⟨s', hloop, hstate', htouches⟩ := writeBitsLoop_touches depth (size.toNat + 1)
      bitContainer hstate (Nat.zero_le (min size.toNat (2 ^ 31))) (by omega)
    have hcopies : copies (depth + 2) s (writeBits bitContainer index size) =
        writeBitsLoopCopies (depth + 2) bitContainer (min size.toNat (2 ^ 31)) (size.toNat + 1) 0
          s := if_neg (by simp [hstream])
    have hconfined : Confined s (writeBits bitContainer index size) ↔
        0 ≤ s.bufferWriteIndex ∨
          ¬8 ≤ s.bitsWrittenWriteByte + (min size.toNat (2 ^ 31) - 0) := by
      unfold Confined
      simp only [hstream, true_and]
      omega
    rw [← hcopies] at htouches
    have hwithin := htouches.within_iff.trans hconfined.symm
    have hwrite : Serial.writeBits (depth + 2) s bitContainer index.toNat size.toNat =
        if 2 ^ 31 ≤ size.toNat then .error .outOfFuel
        else writeBitsLoop (depth + 2) bitContainer size.toNat (size.toNat + 1) 0 s :=
      if_neg (by simp [hstream])
    by_cases hsize : 2 ^ 31 ≤ size.toNat
    · rw [if_pos hsize] at hwrite
      exact Bounded.of_error (by rw [perform, hwrite]) hstate hwithin
    · have hmin : min size.toNat (2 ^ 31) = size.toNat := by omega
      rw [hmin] at hloop
      rw [if_neg hsize, hloop] at hwrite
      exact Bounded.of_ok (by rw [perform, hwrite]) hstate' htouches.sameSize hwithin
  · have hwrite : Serial.writeBits (depth + 2) s bitContainer index.toNat size.toNat =
        .error (.exception "writeBits called and Serial is not a bitStream") :=
      if_pos (by simp [hstream])
    have hcopies : copies (depth + 2) s (writeBits bitContainer index size) = [] :=
      if_pos (by simp [hstream])
    apply Bounded.of_error (by rw [perform, hwrite]) hstate
    rw [hcopies]
    exact iff_of_true (by simp) (Or.inr fun hneeds => hstream hneeds.1)

theorem bounded (depth : Nat) (call : BufferCall) {s : Serial β} (hstate : s.BufferState) :
    call.Bounded (depth + 4) s := by
  cases call with
  | readBytes dest size => exact bounded_readBytes _ hstate dest size
  | writeBytes src => exact bounded_writeBytes _ hstate src
  | readBit =>
      exact Bounded.of_touches rfl (skipBit_touches hstate (depth + 2)) (fun s' hs' => hs'.1) hstate
        Iff.rfl
  | readByte =>
      have hcall : perform (depth + 4) s readByte = skipByte (depth + 4) s := by
        rw [perform, skipByte]
        cases Serial.readByte (depth + 4) s with
        | error halt => rfl
        | ok result => rfl
      exact Bounded.of_touches hcall (skipByte_touches hstate (depth + 1)) (fun s' hs' => hs'.1)
        hstate (by simp [Confined])
  | readBits bitContainer index size => exact bounded_readBits _ hstate bitContainer index size
  | writeBit bit =>
      obtain ⟨s', hwrite, hstate', -, htouches⟩ := writeBit_touches hstate bit (depth + 1)
      exact Bounded.of_ok hwrite hstate' htouches.sameSize htouches.within_iff
  | writeByte byte =>
      obtain ⟨s', hwrite, hstate', htouches⟩ := writeByte_touches hstate byte depth
      exact Bounded.of_ok hwrite hstate' htouches.sameSize
        (htouches.within_iff.trans (by simp [Confined]))
  | writeBits bitContainer index size => exact bounded_writeBits _ hstate bitContainer index size
  | setReadPosition index =>
      have hset : s.setReadPosition index.toNat =
          { s with bufferReadIndex := toInt64 index.toNat } := by
        simp only [Serial.setReadPosition, hstate.notCount, hstate.isBuffer, Bool.false_eq_true,
          if_true, if_false]
      exact Bounded.of_ok (congrArg Except.ok hset) (hstate.moved _ _ _) rfl (by
        simp [copies, Confined])
  | setWritePosition index =>
      have hset : s.setWritePosition index.toNat =
          { s with bufferWriteIndex := toInt64 index.toNat } := by
        simp only [Serial.setWritePosition, hstate.notCount, hstate.isBuffer, Bool.false_eq_true,
          if_true, if_false]
      exact Bounded.of_ok (congrArg Except.ok hset) (hstate.moved _ _ _) rfl (by
        simp [copies, Confined])

end BufferCall

omit [Streambuf β] in
theorem bufferState_ofBuffer (memory : Object) (bitStream : Bool) :
    (ofBuffer memory.val bitStream : Serial β).BufferState :=
  ⟨rfl, rfl, by show (0 : Int) ≤ memory.val.length; omega,
    by show (memory.val.length : Int) < 2 ^ 63; have := memory.property; omega, rfl, Nat.le_refl 8,
    Nat.succ_pos 7⟩

/-- **Memory of the buffer transfers.**  Every copy of a run lies inside the buffer exactly if
every call of the run is confined. -/
theorem copies_within_iff (depth : Nat) (memory : Object) (bitStream : Bool)
    (calls : List BufferCall) :
    EachAllowed (BufferCall.after (depth + 4))
        (fun s call => ∀ copy ∈ call.copies (depth + 4) s, copy.Within memory.val.length)
        (ofBuffer memory.val bitStream : Serial β) calls ↔
      EachAllowed (BufferCall.after (depth + 4)) BufferCall.Confined
        (ofBuffer memory.val bitStream : Serial β) calls := by
  refine eachAllowed_iff
    (fun s : Serial β => s.BufferState ∧ s.bufferSize = (memory.val.length : Int))
    (fun s call hs => ?_) (fun s call hs _ => ?_) ⟨bufferState_ofBuffer memory bitStream, rfl⟩
  · obtain ⟨-, -, hconfined⟩ := call.bounded depth hs.1
    rwa [hs.2] at hconfined
  · obtain ⟨hstate, hsize, -⟩ := call.bounded depth hs.1
    exact ⟨hstate, hsize.trans hs.2⟩

/-- After a seek to `2 ^ 64 - 1` a byte is read in front of the buffer; a block of `2 ^ 63 + 1`
bytes passes the test of an empty one. -/
theorem not_copies_within :
    (BufferCall.readBytes [0] 1).copies 4
        ((BufferCall.setReadPosition 18446744073709551615).after 4
          (ofBuffer [7] false : Serial Stringbuf)) = [⟨-1, 1⟩] ∧
      (BufferCall.readBytes [] 9223372036854775809).copies 4
        (ofBuffer [] false : Serial Stringbuf) = [⟨0, 9223372036854775809⟩] ∧
      ¬EachAllowed (BufferCall.after 4)
        (fun s call => ∀ copy ∈ call.copies 4 s, copy.Within 1)
        (ofBuffer [7] false : Serial Stringbuf)
        [.setReadPosition 18446744073709551615, .readBytes [0] 1] := by
  have hcopies : (BufferCall.readBytes [0] 1).copies 4
      ((BufferCall.setReadPosition 18446744073709551615).after 4
        (ofBuffer [7] false : Serial Stringbuf)) = [⟨-1, 1⟩] := by decide
  refine ⟨hcopies, by decide, ?_⟩
  rintro ⟨-, hread, -⟩
  have hcopy := hread ⟨-1, 1⟩ (by rw [hcopies]; exact List.mem_singleton_self _)
  rw [Memcpy.within_iff] at hcopy
  exact absurd hcopy (by decide)

end Runs

end Serial
end Iostreams
