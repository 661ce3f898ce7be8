import Mathlib.Tactic.Common
import Mathlib.Tactic.Ring

/-!
# Blocks of memory

A block is the list of its bytes.  `overwrite` stores a byte string at an
offset and never changes the size of the block: bytes that would fall outside
are dropped.  `slice` reads a byte string back.

`Memcpy` is a copy as it meets one of its two objects: from which offset, and
how many bytes.
-/

namespace Iostreams

/-- A `memcpy` of `size` bytes, at `offset` from the start of the buffer. -/
structure Memcpy where
  offset : Int
  size : Nat
  deriving DecidableEq, Repr

/-- Every byte that is touched lies in the buffer. -/
def Memcpy.Within (copy : Memcpy) (bufferSize : Int) : Prop :=
  ∀ position, copy.offset ≤ position → position < copy.offset + copy.size →
    0 ≤ position ∧ position < bufferSize

theorem Memcpy.within_iff {copy : Memcpy} {bufferSize : Int} :
    copy.Within bufferSize ↔
      copy.size = 0 ∨ (0 ≤ copy.offset ∧ copy.offset + copy.size ≤ bufferSize) := by
  constructor
  · intro hwithin
    by_cases hempty : copy.size = 0
    · exact Or.inl hempty
    · have hfirst := hwithin copy.offset (by omega) (by omega)
      have hlast := hwithin (copy.offset + copy.size - 1) (by omega) (by omega)
      exact Or.inr ⟨hfirst.1, by omega⟩
  · intro hranges position hlow hhigh
    rcases hranges with hempty | ⟨hoffset, hend⟩ <;> omega

instance (copy : Memcpy) (bufferSize : Int) : Decidable (copy.Within bufferSize) :=
  decidable_of_iff _ Memcpy.within_iff.symm

theorem Memcpy.within_of_le {offset size bufferSize : Nat} (hfits : offset + size ≤ bufferSize) :
    Memcpy.Within ⟨offset, size⟩ bufferSize := by
  rw [Memcpy.within_iff]
  right
  constructor
  · exact Int.natCast_nonneg offset
  · show (offset : Int) + size ≤ bufferSize
    exact_mod_cast hfits

namespace Foundation

/-- An object in memory: none takes `2 ^ 63` bytes or more. -/
abbrev Object := { bytes : List UInt8 // bytes.length < 2 ^ 63 }

/-- Store `bytes` at `offset`, inside the block. -/
def overwrite (block : List UInt8) (offset : Nat) (bytes : List UInt8) : List UInt8 :=
  (block.take offset ++ bytes ++ block.drop (offset + bytes.length)).take block.length

/-- The `count` bytes that start at `offset`. -/
def slice (block : List UInt8) (offset count : Nat) : List UInt8 :=
  (block.drop offset).take count

theorem overwrite_eq {block bytes : List UInt8} {offset : Nat}
    (hfits : offset + bytes.length ≤ block.length) :
    overwrite block offset bytes =
      block.take offset ++ bytes ++ block.drop (offset + bytes.length) := by
  apply List.take_of_length_le
  simp
  omega

@[simp] theorem overwrite_length (block : List UInt8) (offset : Nat) (bytes : List UInt8) :
    (overwrite block offset bytes).length = block.length := by
  simp [overwrite]
  omega

@[simp] theorem overwrite_nil (block : List UInt8) (offset : Nat) :
    overwrite block offset [] = block := by
  simp [overwrite]

/-- Overwriting a whole block replaces it. -/
theorem overwrite_all {block bytes : List UInt8} (hlength : bytes.length = block.length) :
    overwrite block 0 bytes = bytes := by
  rw [overwrite_eq (by omega)]
  simp [hlength]

/-- Two adjacent stores are one store of the concatenation. -/
theorem overwrite_overwrite {block front back : List UInt8} {offset : Nat}
    (hfits : offset + front.length + back.length ≤ block.length) :
    overwrite (overwrite block offset front) (offset + front.length) back =
      overwrite block offset (front ++ back) := by
  have hfront : offset + front.length ≤ block.length := by omega
  rw [overwrite_eq (by simpa using hfits), overwrite_eq hfront,
    overwrite_eq (by rw [List.length_append]; omega)]
  have htake : (block.take offset).length = offset := by simp; omega
  have hhead : (block.take offset ++ front).length = offset + front.length := by
    rw [List.length_append, htake]
  rw [List.take_append_of_le_length (by omega), List.take_of_length_le (by omega),
    List.drop_append, List.drop_eq_nil_of_le (by omega), List.nil_append, List.drop_drop,
    hhead, List.length_append, ← List.append_assoc (block.take offset)]
  congr 2
  omega

/-- A block that is stored in two parts. -/
theorem overwrite_parts {block front back : List UInt8} {split : Nat}
    (hsplit : front.length = split) (hfits : split + back.length ≤ block.length) :
    overwrite (overwrite block 0 front) split back = overwrite block 0 (front ++ back) := by
  have hstores : 0 + front.length + back.length ≤ block.length := by omega
  have hjoin := overwrite_overwrite hstores
  rwa [Nat.zero_add, hsplit] at hjoin

/-- What was stored is read back. -/
theorem slice_overwrite {block bytes : List UInt8} {offset : Nat}
    (hfits : offset + bytes.length ≤ block.length) :
    slice (overwrite block offset bytes) offset bytes.length = bytes := by
  have htake : (block.take offset).length = offset := by simp; omega
  rw [overwrite_eq hfits, slice, List.append_assoc, List.drop_append, htake,
    List.drop_eq_nil_of_le (by omega), Nat.sub_self, List.drop_zero, List.nil_append,
    List.take_append_of_le_length (Nat.le_refl _), List.take_length]

/-- What lies before a store stays. -/
theorem take_overwrite (block : List UInt8) (offset : Nat) (bytes : List UInt8) :
    (overwrite block offset bytes).take offset = block.take offset := by
  by_cases hinside : offset ≤ block.length
  · have hlength : (block.take offset).length = offset := by
      rw [List.length_take]
      omega
    rw [overwrite, List.take_take, Nat.min_eq_left hinside, List.append_assoc,
      List.take_append_of_le_length (by omega), List.take_take, Nat.min_self]
  · have hall : block.take offset = block := List.take_of_length_le (by omega)
    have hsame : overwrite block offset bytes = block := by
      rw [overwrite, hall, List.append_assoc, List.take_append_of_le_length (Nat.le_refl _),
        List.take_length]
    rw [hsame]

/-- Blocks that agree up to a limit have the same slices below it. -/
theorem slice_eq_of_take_eq {block block' : List UInt8} {limit offset count : Nat}
    (hagree : block.take limit = block'.take limit) (hbelow : offset + count ≤ limit) :
    slice block offset count = slice block' offset count := by
  have hslice (memory : List UInt8) :
      slice memory offset count = slice (memory.take limit) offset count := by
    rw [slice, slice, List.drop_take, List.take_take, Nat.min_eq_left (by omega)]
  rw [hslice block, hslice block', hagree]

/-- A slice holding a concatenation holds its parts. -/
theorem slice_append {block front back : List UInt8} {offset : Nat}
    (hslice : slice block offset (front.length + back.length) = front ++ back) :
    slice block offset front.length = front ∧
      slice block (offset + front.length) back.length = back := by
  constructor
  · have hfront := congrArg (List.take front.length) hslice
    simpa [slice, List.take_take] using hfront
  · have hback := congrArg (List.drop front.length) hslice
    simpa [slice, List.drop_take, List.drop_drop] using hback

theorem slice_length {block : List UInt8} {offset count : Nat}
    (hfits : offset + count ≤ block.length) : (slice block offset count).length = count := by
  simp [slice]
  omega

end Foundation
end Iostreams
