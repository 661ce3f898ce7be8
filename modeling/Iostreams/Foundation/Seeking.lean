import Iostreams.Foundation.Memory

/-!
# Seeking in a block

The arguments of `seekoff` and `seekpos`, and what a buffer over a fixed block
of memory is for: `CursorBlock` is an array with a read and a write cursor that
never leave it.  A transfer takes as much as there is between the cursor and
the end and moves the cursor by exactly that, and a seek outside the block
changes nothing.
-/

namespace Iostreams
namespace Foundation

/-- `std::ios_base::seekdir` -/
inductive Seekdir where
  | beg
  | cur
  | end_
  deriving DecidableEq, Repr

/-- `std::ios_base::openmode`: the bits `in` and `out`. -/
structure Openmode where
  input : Bool
  output : Bool
  deriving DecidableEq, Repr

/-- A `std::streamsize` that is not negative. -/
abbrev Streamsize := { n : Nat // n < 2 ^ 63 }

/-- The position that an offset is relative to. -/
def Seekdir.origin (begin cur fin : Int) : Seekdir → Int
  | .beg => begin
  | .cur => cur
  | .end_ => fin

/-- A block with a read and a write cursor inside it. -/
structure CursorBlock where
  bytes : List UInt8
  readPos : Nat
  writePos : Nat
  readPos_le : readPos ≤ bytes.length
  writePos_le : writePos ≤ bytes.length

namespace CursorBlock

theorem start_le (bytes : List UInt8) : 0 ≤ bytes.length := Nat.zero_le _

/-- The block with both cursors at its start. -/
def ofBytes (bytes : List UInt8) : CursorBlock :=
  ⟨bytes, 0, 0, start_le bytes, start_le bytes⟩

/-- The bytes behind the read cursor. -/
def unread (block : CursorBlock) : List UInt8 := block.bytes.drop block.readPos

/-- The bytes from the write cursor to the end of the block. -/
def space (block : CursorBlock) : Nat := block.bytes.length - block.writePos

/-- Store what fits at the write cursor, and move the cursor behind it. -/
def put (block : CursorBlock) (src : List UInt8) : CursorBlock where
  bytes := overwrite block.bytes block.writePos (src.take block.space)
  readPos := block.readPos
  writePos := block.writePos + min src.length block.space
  readPos_le := by
    rw [overwrite_length]
    exact block.readPos_le
  writePos_le := by
    have hle := block.writePos_le
    rw [overwrite_length, space]
    omega

/-- Move the read cursor over `count` bytes, or to the end of the block. -/
def skip (block : CursorBlock) (count : Nat) : CursorBlock :=
  { block with
    readPos := block.readPos + min count block.unread.length
    readPos_le := by
      have hle := block.readPos_le
      rw [unread, List.length_drop]
      omega }

/-- Move the read cursor to a position of the block. -/
def seekRead (block : CursorBlock) (target : Int) : Option CursorBlock :=
  if hvalid : 0 ≤ target ∧ target ≤ block.bytes.length then
    some { block with readPos := target.toNat, readPos_le := by omega }
  else none

/-- Move the write cursor to a position of the block. -/
def seekWrite (block : CursorBlock) (target : Int) : Option CursorBlock :=
  if hvalid : 0 ≤ target ∧ target ≤ block.bytes.length then
    some { block with writePos := target.toNat, writePos_le := by omega }
  else none

end CursorBlock
end Foundation
end Iostreams
