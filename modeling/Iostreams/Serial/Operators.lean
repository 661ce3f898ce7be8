import Iostreams.Serial.Transfer

/-!
# Stream operators

`operator<<` and `operator>>` for booleans and for trivially copyable values,
and the two functions for `std::string`.  Input consults the pointer
`read_buffer`: when it is set, bytes are first replayed from the second
`Serial` and only then taken from the main one (`readBytesWithBuffer`).  A
`Reader` is a `Serial` together with that pointer.

A trivially copyable value is its object representation.  What the allocation of
a longer string throws is a parameter; the functions without it throw above the
size of any object only.
-/

namespace Iostreams

open Foundation

/-- A `Serial` and the `Serial` its `read_buffer` points to. -/
structure Reader (β γ : Type) where
  serial : Serial β
  readBuffer : Option (Serial γ) := none

namespace Serial

variable {β γ : Type} [Streambuf β] [Streambuf γ]

/-! ## Output -/

/-- `operator<<` on `bool` -/
def putBool (depth : Nat) (value : Bool) (s : Serial β) : Except Halt (Serial β) :=
  if s.bitStream then writeBit depth s value else writeByte depth s (UInt8.ofNat value.toNat)

/-- `operator<<` on a trivially copyable value -/
def putBytes (depth : Nat) (value : List UInt8) (s : Serial β) : Except Halt (Serial β) := do
  let (_, s) ← writeBytes depth s value
  .ok s

/-- `operator<<` on `size_t` -/
def putSize (depth size : Nat) (s : Serial β) : Except Halt (Serial β) :=
  putBytes depth (leBytes 8 size) s

/-- `serialize(Serial&, const std::string&)` -/
def serializeString (depth : Nat) (str : List UInt8) (s : Serial β) :
    Except Halt (Serial β) := do
  let s ← putSize depth str.length s
  putBytes depth str s

/-! ## Input through a replay buffer -/

/-- The main stream continues behind the part of the destination that was
replayed. -/
def startAfter (main : Serial β) (bufferRead : Int) : Serial β :=
  if bufferRead ≠ 0 then
    let (position, main) := main.getReadPosition
    { main with nextReadOffset := bufferRead, startReadOffsetPosition := position }
  else
    main

/-- The bytes the main stream delivered are kept for the next attempt. -/
def keepReplay (depth : Nat) (buffer : Serial γ) (popped : List UInt8) (index : Nat) :
    Except Halt (Serial γ) := do
  let buffer := buffer.clearRead
  let buffer ← if popped ≠ [] then putBytes depth popped buffer else .ok buffer
  .ok (buffer.setReadPosition index)

/-- `readBytesWithBuffer` once the replay buffer has returned `bufferRead`. -/
def readBytesAfterReplay (depth : Nat) (main : Serial β) (buffer : Serial γ)
    (dest : List UInt8) (size : Nat) (beginPos bufferRead : Int) :
    Except Halt (Int × List UInt8 × Serial β × Serial γ) :=
  if bufferRead ≠ 0 ∧ toSizeT bufferRead = size then
    .ok (bufferRead, dest, { main with sizeMismatchFlag := false }, buffer)
  else do
    let main := (main.startAfter bufferRead).pushByteReadBuffer
    let (mainReadBytes, dest, main) ← readBytes depth main dest size
    let popped ← main.peekByteReadBuffer
    let buffer ← keepReplay depth buffer popped (toSizeT (beginPos + bufferRead + popped.length))
    .ok (toInt64 (bufferRead + mainReadBytes), dest, main.popByteReadBuffer, buffer)

def readBytesWithBuffer (depth : Nat) (main : Serial β) (buffer : Serial γ)
    (dest : List UInt8) (size : Nat) :
    Except Halt (Int × List UInt8 × Serial β × Serial γ) := do
  let (beginPos, buffer) := buffer.getReadPosition
  let (bufferReadRet, dest, buffer) ← readBytes depth buffer dest size
  let endPos := toInt64 (beginPos + bufferReadRet)
  readBytesAfterReplay depth main buffer dest size beginPos (toInt64 (endPos - beginPos))

end Serial

namespace Reader

variable {β γ : Type} [Streambuf β] [Streambuf γ]

/-- The transfer behind `operator>>`: through `read_buffer` when it is set. -/
def readInto (depth : Nat) (r : Reader β γ) (dest : List UInt8) (size : Nat) :
    Except Halt (List UInt8 × Reader β γ) :=
  match r.readBuffer with
  | some buffer => do
      let (_, dest, serial, buffer) ← r.serial.readBytesWithBuffer depth buffer dest size
      .ok (dest, { serial, readBuffer := some buffer })
  | none => do
      let (_, dest, serial) ← r.serial.readBytes depth dest size
      .ok (dest, { r with serial })

/-- `operator>>` on `bool` -/
def getBool (depth : Nat) (r : Reader β γ) : Except Halt (Bool × Reader β γ) :=
  if r.serial.bitStream then do
    let (value, serial) ← r.serial.readBit depth
    .ok (value, { r with serial })
  else do
    let (byte, serial) ← r.serial.readByte depth
    .ok (byte != 0, { r with serial })

/-- `operator>>` on a trivially copyable value with the given old representation -/
def getBytes (depth : Nat) (old : List UInt8) (r : Reader β γ) :
    Except Halt (List UInt8 × Reader β γ) :=
  r.readInto depth old old.length

/-- `operator>>` on `size_t` -/
def getSize (depth old : Nat) (r : Reader β γ) : Except Halt (Nat × Reader β γ) := do
  let (dest, r) ← r.getBytes depth (leBytes 8 old)
  .ok (leValue dest, r)

/-- `str.resize(size)` -/
def resize (str : List UInt8) (size : Nat) : List UInt8 :=
  str.take size ++ List.replicate (size - str.length) 0

/-- What `resize` throws where a string grows to so many characters.  `max_size()` is less than
`2 ^ 63`. -/
structure StringAllocation where
  throws : Nat → Option String
  throws_large : ∀ size, 2 ^ 63 ≤ size → (throws size).isSome = true

/-- Memory is not exhausted. -/
def StringAllocation.objects : StringAllocation where
  throws size := if 2 ^ 63 ≤ size then some "std::length_error" else none
  throws_large size hlarge := by rw [if_pos hlarge]; rfl

theorem StringAllocation.throws_objects {size : Nat} (hsize : size < 2 ^ 63) :
    StringAllocation.objects.throws size = none := if_neg (Nat.not_le.mpr hsize)

theorem StringAllocation.resize_objects (old : Nat) {size : Nat} (hsize : size < 2 ^ 63) :
    (if old < size then StringAllocation.objects.throws size else none) = none := by
  split
  · exact throws_objects hsize
  · rfl

/-- `deserialize(Serial&, std::string&)` -/
def deserializeStringWith (allocation : StringAllocation) (depth : Nat) (str : List UInt8)
    (r : Reader β γ) : Except Halt (List UInt8 × Reader β γ) := do
  let (size, r) ← r.getSize depth str.length
  if r.serial.lastDidNotReadWholeSize then
    .ok (str, r)
  else
    match if str.length < size then allocation.throws size else none with
    | some what => .error (.exception what)
    | none => r.readInto depth (resize str size) size

def deserializeString (depth : Nat) (str : List UInt8) (r : Reader β γ) :
    Except Halt (List UInt8 × Reader β γ) :=
  r.deserializeStringWith .objects depth str

/-- A length that no exception stops is read, and so many characters after it. -/
theorem deserializeStringWith_sized {allocation : StringAllocation} {depth size : Nat}
    (str : List UInt8) {r r' : Reader β γ} (hsize : r.getSize depth str.length = .ok (size, r'))
    (hflag : r'.serial.lastDidNotReadWholeSize = false)
    (hreturns : str.length < size → allocation.throws size = none) :
    r.deserializeStringWith allocation depth str = r'.readInto depth (resize str size) size := by
  have hnone : (if str.length < size then allocation.throws size else none) = none := by
    split
    · next hgrow => exact hreturns hgrow
    · rfl
  rw [deserializeStringWith, hsize, ok_bind]
  simp only [hflag, Bool.false_eq_true, if_false, hnone]

theorem deserializeString_sized {depth size : Nat} (str : List UInt8) {r r' : Reader β γ}
    (hsize : r.getSize depth str.length = .ok (size, r'))
    (hflag : r'.serial.lastDidNotReadWholeSize = false) (hlt : size < 2 ^ 63) :
    r.deserializeString depth str = r'.readInto depth (resize str size) size :=
  deserializeStringWith_sized str hsize hflag fun _ => StringAllocation.throws_objects hlt

theorem deserializeString_large {depth size : Nat} {str : List UInt8} {r r' : Reader β γ}
    (hsize : r.getSize depth str.length = .ok (size, r'))
    (hflag : r'.serial.lastDidNotReadWholeSize = false) (hgrow : str.length < size)
    (hlarge : 2 ^ 63 ≤ size) :
    r.deserializeString depth str = .error (.exception "std::length_error") := by
  have hthrows : StringAllocation.objects.throws size = some "std::length_error" := if_pos hlarge
  rw [deserializeString, deserializeStringWith, hsize, ok_bind]
  simp only [hflag, Bool.false_eq_true, if_false, if_pos hgrow, hthrows]

/-- The early exit. -/
theorem deserializeStringWith_acknowledged {allocation : StringAllocation} {depth size : Nat}
    {str : List UInt8} {r r' : Reader β γ} (hsize : r.getSize depth str.length = .ok (size, r'))
    (hflag : r'.serial.lastDidNotReadWholeSize = true) :
    r.deserializeStringWith allocation depth str = .ok (str, r') := by
  rw [deserializeStringWith, hsize, ok_bind]
  simp only [hflag, if_true]

end Reader

namespace Serial

variable {β γ : Type}

/-- The size mismatch, eof and empty flags, as `readTypeWithBuffer` tests them. -/
def missedBytes (s : Serial β) : Bool :=
  s.lastDidNotReadWholeSize || s.isReadEmpty || s.isReadEof

/-- `readTypeWithBuffer(val, buffer)`, where `get` is `>> val`. -/
def readTypeWithBuffer {α : Type} (get : Reader β γ → Except Halt (α × Reader β γ))
    (main : Serial β) (buffer : Serial γ) : Except Halt (Bool × α × Serial β × Serial γ) := do
  let (val, r) ← get { serial := main, readBuffer := some buffer }
  let buffer := r.readBuffer.getD buffer
  .ok (!(buffer.missedBytes && r.serial.missedBytes), val, r.serial, buffer)

end Serial
end Iostreams
