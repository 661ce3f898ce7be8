import Iostreams.Serial.Containers

/-!
# Transfers on a buffer

On a `Serial` over a caller-supplied buffer a block that fits is copied at the
write index, and a block whose bytes are all present is copied from the read
index; neither depends on the mode of the `Serial` or on pending bits.

`Wrote s bytes s'` and `Consumed r bytes r'` state the net effect of a sequence
of writes and reads: the bytes, the index, and nothing else except the state
of the bit accumulators, which a boolean transfer resets.  Both compose.
-/

namespace Iostreams

open Foundation

namespace Serial

variable {β : Type}

/-- A `Serial` constructed over a buffer: its declared size is the size of its
memory, and the mismatch flags, which only stream transfers set, are clear. -/
structure BufferMode (s : Serial β) : Prop where
  notCount : s.isCountSerial = false
  isBuffer : s.isBufferSerial = true
  size_eq : s.bufferSize = s.bufferPointer.length
  size_lt : s.bufferPointer.length < 2 ^ 63
  noMismatch : s.sizeMismatchFlag = false
  noLastMismatch : s.lastSizeMismatchFlag = false

theorem bufferMode_ofBuffer {memory : List UInt8} (hsize : memory.length < 2 ^ 63)
    (bitStream : Bool) : (ofBuffer memory bitStream : Serial β).BufferMode :=
  ⟨rfl, rfl, rfl, hsize, rfl, rfl⟩

/-- The next `count` bytes fit behind the write index. -/
def Room (s : Serial β) (count : Nat) : Prop :=
  0 ≤ s.bufferWriteIndex ∧ s.bufferWriteIndex + count ≤ s.bufferPointer.length

/-- `bytes` lie behind the read index. -/
def Holds (s : Serial β) (bytes : List UInt8) : Prop :=
  0 ≤ s.bufferReadIndex ∧ s.bufferReadIndex + bytes.length ≤ s.bufferPointer.length ∧
    slice s.bufferPointer s.bufferReadIndex.toNat bytes.length = bytes

/-- Copy `bytes` to the write index. -/
def stored (s : Serial β) (bytes : List UInt8) : Serial β :=
  { s with
    bufferPointer := overwrite s.bufferPointer s.bufferWriteIndex.toNat bytes
    bufferWriteIndex := s.bufferWriteIndex + bytes.length }

/-- Move the read index. -/
def advanced (s : Serial β) (count : Nat) : Serial β :=
  { s with bufferReadIndex := s.bufferReadIndex + count }

/-- Set the output accumulator. -/
def withWriteBits (s : Serial β) (byte : UInt8) (count : Nat) : Serial β :=
  { s with currentWriteByte := byte, bitsWrittenWriteByte := count }

/-- Set the input accumulator. -/
def withReadBits (s : Serial β) (byte : UInt8) (count : Nat) : Serial β :=
  { s with currentReadByte := byte, bitsReadReadByte := count }

@[simp] theorem withWriteBits_self (s : Serial β) :
    s.withWriteBits s.currentWriteByte s.bitsWrittenWriteByte = s := rfl

@[simp] theorem withReadBits_self (s : Serial β) :
    s.withReadBits s.currentReadByte s.bitsReadReadByte = s := rfl

@[simp] theorem stored_nil (s : Serial β) : s.stored [] = s := by
  simp [stored]

@[simp] theorem advanced_zero (s : Serial β) : s.advanced 0 = s := by
  simp [advanced]

theorem Room.mono {s : Serial β} {count total : Nat} (hroom : s.Room total)
    (hle : count ≤ total) : s.Room count := by
  obtain ⟨hindex, hfits⟩ := hroom
  exact ⟨hindex, by omega⟩

theorem stored_stored {s : Serial β} {front back : List UInt8}
    (hroom : s.Room (front.length + back.length)) :
    (s.stored front).stored back = s.stored (front ++ back) := by
  obtain ⟨hindex, hfits⟩ := hroom
  have hnat : (s.bufferWriteIndex + front.length).toNat =
      s.bufferWriteIndex.toNat + front.length := by
    omega
  simp only [stored, hnat, List.length_append]
  rw [overwrite_overwrite (by omega)]
  congr 1
  omega

theorem Holds.left {s : Serial β} {front back : List UInt8} (hholds : s.Holds (front ++ back)) :
    s.Holds front := by
  obtain ⟨hindex, hfits, hslice⟩ := hholds
  rw [List.length_append] at hfits hslice
  exact ⟨hindex, by omega, (slice_append hslice).1⟩

theorem Holds.right {s : Serial β} {front back : List UInt8} (hholds : s.Holds (front ++ back)) :
    (s.advanced front.length).Holds back := by
  obtain ⟨hindex, hfits, hslice⟩ := hholds
  rw [List.length_append] at hfits hslice
  have hnat : (s.bufferReadIndex + front.length).toNat =
      s.bufferReadIndex.toNat + front.length := by
    omega
  refine ⟨?_, ?_, ?_⟩
  · simp only [advanced]
    omega
  · simp only [advanced]
    omega
  · simp only [advanced, hnat]
    exact (slice_append hslice).2

/-! ## The test of the bounds -/

/-- The test in front of a `memcpy`: `index <= buffer_size - (int64_t)size` -/
def PassesTest (index bufferSize : Int) (size : Nat) : Prop :=
  index ≤ toInt64 (bufferSize - toInt64 size)

instance (index bufferSize : Int) (size : Nat) : Decidable (PassesTest index bufferSize size) :=
  inferInstanceAs (Decidable (_ ≤ _))

theorem passesTest_iff {index bufferSize : Int} {size : Nat} (hnonneg : 0 ≤ bufferSize)
    (hlt : bufferSize < 2 ^ 63) (hsize : size < 2 ^ 63) :
    PassesTest index bufferSize size ↔ index + size ≤ bufferSize := by
  unfold PassesTest
  rw [toInt64_natCast hsize, toInt64_of_bounds (by omega) (by omega)]
  omega

/-- A size that the cast makes negative: the difference grows, and may grow out of the range. -/
theorem passesTest_large {index bufferSize : Int} {size : Nat} (hindex : 0 ≤ index)
    (hle : index ≤ bufferSize) (hlt : bufferSize < 2 ^ 63) (hlarge : 2 ^ 63 ≤ size)
    (hsize : size < 2 ^ 64) :
    PassesTest index bufferSize size ↔ bufferSize + 2 ^ 63 < size := by
  have hcast : toInt64 (size : Int) = size - 2 ^ 64 := by
    unfold toInt64
    rw [Int.bmod_def]
    omega
  unfold PassesTest
  rw [hcast, toInt64, Int.bmod_def]
  omega

theorem BufferMode.passesTest_iff {s : Serial β} (hmode : s.BufferMode) {index : Int} {size : Nat}
    (hsize : size < 2 ^ 63) :
    PassesTest index s.bufferSize size ↔ index + size ≤ s.bufferPointer.length := by
  have hlt := hmode.size_lt
  rw [hmode.size_eq]
  exact Serial.passesTest_iff (by omega) (by omega) hsize

section Transfers

variable [Streambuf β]

theorem writeBytes_tested {s : Serial β} (hcount : s.isCountSerial = false)
    (hbuffer : s.isBufferSerial = true) (depth : Nat) (src : List UInt8) :
    writeBytes (depth + 1) s src =
      if PassesTest s.bufferWriteIndex s.bufferSize src.length then
        .ok (toInt64 src.length,
          { s with
            bufferPointer := overwrite s.bufferPointer s.bufferWriteIndex.toNat src
            bufferWriteIndex := toInt64 (s.bufferWriteIndex + src.length) })
      else .ok (toInt64 src.length, s) := by
  simp only [writeBytes, hcount, hbuffer, PassesTest, Bool.false_eq_true, if_true, if_false]

theorem readBytes_tested {s : Serial β} (hcount : s.isCountSerial = false)
    (hbuffer : s.isBufferSerial = true) (depth : Nat) (dest : List UInt8) (size : Nat) :
    readBytes (depth + 1) s dest size =
      if PassesTest s.bufferReadIndex s.bufferSize size then
        if (Memcpy.mk s.bufferReadIndex size).Within s.bufferSize then
          .ok (toInt64 size,
            overwrite dest 0 (slice s.bufferPointer s.bufferReadIndex.toNat size),
            { s with bufferReadIndex := toInt64 (s.bufferReadIndex + size) })
        else .error .fault
      else .ok (0, dest, s) := by
  simp only [readBytes, hcount, hbuffer, PassesTest, Bool.false_eq_true, if_true, if_false]

/-- A read whose copy stays in the buffer. -/
theorem readBytes_copied {s : Serial β} (hcount : s.isCountSerial = false)
    (hbuffer : s.isBufferSerial = true) {size : Nat}
    (hpasses : PassesTest s.bufferReadIndex s.bufferSize size)
    (hwithin : (Memcpy.mk s.bufferReadIndex size).Within s.bufferSize) (depth : Nat)
    (dest : List UInt8) :
    readBytes (depth + 1) s dest size =
      .ok (toInt64 size, overwrite dest 0 (slice s.bufferPointer s.bufferReadIndex.toNat size),
        { s with bufferReadIndex := toInt64 (s.bufferReadIndex + size) }) := by
  rw [readBytes_tested hcount hbuffer, if_pos hpasses, if_pos hwithin]

/-- A read whose copy leaves the buffer. -/
theorem readBytes_fault {s : Serial β} (hcount : s.isCountSerial = false)
    (hbuffer : s.isBufferSerial = true) {size : Nat}
    (hpasses : PassesTest s.bufferReadIndex s.bufferSize size)
    (hpast : ¬(Memcpy.mk s.bufferReadIndex size).Within s.bufferSize) (depth : Nat)
    (dest : List UInt8) : readBytes (depth + 1) s dest size = .error .fault := by
  rw [readBytes_tested hcount hbuffer, if_pos hpasses, if_neg hpast]

theorem writeBytes_buffer {s : Serial β} (hmode : s.BufferMode) (src : List UInt8)
    (hroom : s.Room src.length) (depth : Nat) :
    writeBytes (depth + 1) s src = .ok ((src.length : Int), s.stored src) := by
  obtain ⟨hindex, hfits⟩ := hroom
  have hlt := hmode.size_lt
  have hpasses := (hmode.passesTest_iff (by omega)).mpr hfits
  have hnext : toInt64 (s.bufferWriteIndex + src.length) = s.bufferWriteIndex + src.length :=
    toInt64_of_bounds (by omega) (by omega)
  rw [writeBytes_tested hmode.notCount hmode.isBuffer, if_pos hpasses, hnext,
    toInt64_natCast (by omega)]
  rfl

/-- A block that does not fit is dropped, and its size returned. -/
theorem writeBytes_dropped {s : Serial β} (hmode : s.BufferMode) {src : List UInt8}
    (hsrc : src.length < 2 ^ 63)
    (hpast : (s.bufferPointer.length : Int) < s.bufferWriteIndex + src.length) (depth : Nat) :
    writeBytes (depth + 1) s src = .ok ((src.length : Int), s) := by
  have hfails := mt (hmode.passesTest_iff hsrc).mp (Int.not_le.mpr hpast)
  rw [writeBytes_tested hmode.notCount hmode.isBuffer, if_neg hfails, toInt64_natCast hsrc]

theorem readBytes_buffer {s : Serial β} (hmode : s.BufferMode) {bytes : List UInt8}
    (hholds : s.Holds bytes) (depth : Nat) (dest : List UInt8) :
    readBytes (depth + 1) s dest bytes.length =
      .ok ((bytes.length : Int), overwrite dest 0 bytes, s.advanced bytes.length) := by
  obtain ⟨hindex, hfits, hslice⟩ := hholds
  have hlt := hmode.size_lt
  have hpasses := (hmode.passesTest_iff (by omega)).mpr hfits
  have hnext : toInt64 (s.bufferReadIndex + bytes.length) = s.bufferReadIndex + bytes.length :=
    toInt64_of_bounds (by omega) (by omega)
  have hwithin : (Memcpy.mk s.bufferReadIndex bytes.length).Within s.bufferSize := by
    rw [hmode.size_eq]
    exact Memcpy.within_iff.mpr (Or.inr ⟨hindex, hfits⟩)
  rw [readBytes_copied hmode.notCount hmode.isBuffer hpasses hwithin, hnext, hslice,
    toInt64_natCast (by omega)]
  rfl

/-- A buffer has nothing for a request past its end. -/
theorem readBytes_buffer_short {s : Serial β} (hmode : s.BufferMode) {size : Nat}
    (hsize : size < 2 ^ 63) (hshort : (s.bufferPointer.length : Int) < s.bufferReadIndex + size)
    (depth : Nat) (dest : List UInt8) : readBytes (depth + 1) s dest size = .ok (0, dest, s) := by
  have hfails := mt (hmode.passesTest_iff hsize).mp (Int.not_le.mpr hshort)
  rw [readBytes_tested hmode.notCount hmode.isBuffer, if_neg hfails]

end Transfers

/-! ## Net effects -/

/-- `s'` is `s` after `bytes` were written, up to the bit accumulator. -/
def Wrote (s : Serial β) (bytes : List UInt8) (s' : Serial β) : Prop :=
  ∃ byte count, s' = (s.stored bytes).withWriteBits byte count

/-- `s'` is `s` after `bytes` were read, up to the bit accumulator. -/
def Consumed (s : Serial β) (bytes : List UInt8) (s' : Serial β) : Prop :=
  ∃ byte count, s' = (s.advanced bytes.length).withReadBits byte count

theorem Wrote.nil (s : Serial β) : Wrote s [] s :=
  ⟨s.currentWriteByte, s.bitsWrittenWriteByte, by rw [stored_nil, withWriteBits_self]⟩

theorem Wrote.stored (s : Serial β) (bytes : List UInt8) : Wrote s bytes (s.stored bytes) :=
  ⟨s.currentWriteByte, s.bitsWrittenWriteByte, rfl⟩

theorem Wrote.append {s s' s'' : Serial β} {front back : List UInt8}
    (hroom : s.Room (front.length + back.length)) (hfront : Wrote s front s')
    (hback : Wrote s' back s'') : Wrote s (front ++ back) s'' := by
  obtain ⟨_, _, rfl⟩ := hfront
  obtain ⟨byte, count, rfl⟩ := hback
  exact ⟨byte, count, by rw [← stored_stored hroom]; rfl⟩

theorem Wrote.bufferMode {s s' : Serial β} {bytes : List UInt8} (hwrote : Wrote s bytes s')
    (hmode : s.BufferMode) : s'.BufferMode := by
  obtain ⟨_, _, rfl⟩ := hwrote
  exact ⟨hmode.notCount, hmode.isBuffer,
    by simpa [withWriteBits, Serial.stored] using hmode.size_eq,
    by simpa [withWriteBits, Serial.stored] using hmode.size_lt,
    hmode.noMismatch, hmode.noLastMismatch⟩

theorem Wrote.bitStream {s s' : Serial β} {bytes : List UInt8} (hwrote : Wrote s bytes s') :
    s'.bitStream = s.bitStream := by
  obtain ⟨_, _, rfl⟩ := hwrote
  rfl

theorem Wrote.room {s s' : Serial β} {bytes : List UInt8} {count : Nat}
    (hwrote : Wrote s bytes s') (hroom : s.Room (bytes.length + count)) : s'.Room count := by
  obtain ⟨_, _, rfl⟩ := hwrote
  obtain ⟨hindex, hfits⟩ := hroom
  simp only [Room, withWriteBits, Serial.stored, overwrite_length]
  omega

theorem Wrote.bufferWriteIndex {s s' : Serial β} {bytes : List UInt8}
    (hwrote : Wrote s bytes s') :
    s'.bufferWriteIndex = s.bufferWriteIndex + bytes.length := by
  obtain ⟨_, _, rfl⟩ := hwrote
  rfl

/-- What was written lies in the buffer at the old write index. -/
theorem Wrote.slice_eq {s s' : Serial β} {bytes : List UInt8} (hwrote : Wrote s bytes s')
    (hroom : s.Room bytes.length) :
    slice s'.bufferPointer s.bufferWriteIndex.toNat bytes.length = bytes := by
  obtain ⟨_, _, rfl⟩ := hwrote
  obtain ⟨hindex, hfits⟩ := hroom
  exact slice_overwrite (by omega)

theorem Consumed.nil (s : Serial β) : Consumed s [] s :=
  ⟨s.currentReadByte, s.bitsReadReadByte, by
    rw [List.length_nil, advanced_zero, withReadBits_self]⟩

theorem Consumed.advanced (s : Serial β) (bytes : List UInt8) :
    Consumed s bytes (s.advanced bytes.length) :=
  ⟨s.currentReadByte, s.bitsReadReadByte, rfl⟩

theorem Consumed.append {s s' s'' : Serial β} {front back : List UInt8}
    (hfront : Consumed s front s') (hback : Consumed s' back s'') :
    Consumed s (front ++ back) s'' := by
  obtain ⟨_, _, rfl⟩ := hfront
  obtain ⟨byte, count, rfl⟩ := hback
  refine ⟨byte, count, ?_⟩
  simp [Serial.advanced, withReadBits, add_assoc]

theorem Consumed.bufferMode {s s' : Serial β} {bytes : List UInt8}
    (hconsumed : Consumed s bytes s') (hmode : s.BufferMode) : s'.BufferMode := by
  obtain ⟨_, _, rfl⟩ := hconsumed
  exact ⟨hmode.notCount, hmode.isBuffer, hmode.size_eq, hmode.size_lt, hmode.noMismatch,
    hmode.noLastMismatch⟩

theorem Consumed.bitStream {s s' : Serial β} {bytes : List UInt8}
    (hconsumed : Consumed s bytes s') : s'.bitStream = s.bitStream := by
  obtain ⟨_, _, rfl⟩ := hconsumed
  rfl

theorem Consumed.holds {s s' : Serial β} {front back : List UInt8}
    (hconsumed : Consumed s front s') (hholds : s.Holds (front ++ back)) : s'.Holds back := by
  obtain ⟨_, _, rfl⟩ := hconsumed
  exact hholds.right

theorem Consumed.bufferReadIndex {s s' : Serial β} {bytes : List UInt8}
    (hconsumed : Consumed s bytes s') :
    s'.bufferReadIndex = s.bufferReadIndex + bytes.length := by
  obtain ⟨_, _, rfl⟩ := hconsumed
  rfl

end Serial
end Iostreams
