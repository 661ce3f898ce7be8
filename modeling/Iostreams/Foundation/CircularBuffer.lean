import Mathlib.Data.List.GetD
import Mathlib.Data.List.OfFn
import Mathlib.Data.Nat.ModEq
import Mathlib.Tactic.Common

/-!
# Circular buffers

A circular buffer of `size` cells is addressed by unbounded counters: counter
`c` stands for cell `c % size`.  A window of at most `size` consecutive
counters names distinct cells, so that a store into one window leaves every
window next to it alone.

A copy in or out that starts at some cell and is longer than the rest of the
memory is made in two parts.  `storeWrapped` and `loadWrapped` are these
two-part copies; the lemmas relate them to windows.
-/

namespace Iostreams
namespace Foundation

variable {α : Type*}

/-- Store items at consecutive cells. -/
def store (cells : Nat → α) (offset : Nat) (items : List α) : Nat → α :=
  fun i => if offset ≤ i then items.getD (i - offset) (cells i) else cells i

/-- Load consecutive cells. -/
def load (cells : Nat → α) (offset count : Nat) : List α :=
  (List.range count).map fun i => cells (offset + i)

/-- Store items from cell `offset` on, the second part from cell zero on. -/
def storeWrapped (size : Nat) (cells : Nat → α) (offset : Nat) (items : List α) : Nat → α :=
  let split := min items.length (size - offset)
  let cells := store cells offset (items.take split)
  if split < items.length then store cells 0 (items.drop split) else cells

/-- Load `count` cells from cell `offset` on, the second part from cell zero on. -/
def loadWrapped (size : Nat) (cells : Nat → α) (offset count : Nat) : List α :=
  let split := min count (size - offset)
  let items := load cells offset split
  if split < count then items ++ load cells 0 (count - split) else items

/-- The items in the cells of `count` consecutive counters. -/
def window (size : Nat) (cells : Nat → α) (start count : Nat) : List α :=
  (List.range count).map fun i => cells ((start + i) % size)

/-! ## Counters -/

/-- Two counters less than `size` apart name different cells. -/
theorem cell_ne {size a b : Nat} (hlt : a < b) (hnear : b < a + size) : a % size ≠ b % size := by
  intro heq
  have hdvd : size ∣ b - a := (Nat.modEq_iff_dvd' (by omega)).mp heq
  have hle := Nat.le_of_dvd (by omega) hdvd
  omega

/-- The cell of a counter a little further on. -/
theorem cell_add {size offset : Nat} (hoffset : offset < size) {i : Nat} (hi : i < size) :
    (offset + i) % size = if offset + i < size then offset + i else offset + i - size := by
  by_cases hwrap : offset + i < size
  · rw [if_pos hwrap, Nat.mod_eq_of_lt hwrap]
  · rw [if_neg hwrap, Nat.mod_eq_sub_mod (by omega), Nat.mod_eq_of_lt (by omega)]

/-- A counter that names cell `i`, at most `size` after one that names `offset`. -/
theorem cell_index {size offset i : Nat} (hoffset : offset < size) (hi : i < size) :
    (offset + if offset ≤ i then i - offset else i + size - offset) % size = i := by
  split
  · rw [show offset + (i - offset) = i by omega, Nat.mod_eq_of_lt hi]
  · rw [show offset + (i + size - offset) = i + size by omega, Nat.add_mod_right,
      Nat.mod_eq_of_lt hi]

/-- The distance from one counter to a later one, computed from their cells. -/
theorem cell_distance {size start count : Nat} (hcount : count < size) :
    ((start + count) % size + size - start % size) % size = count := by
  have hstart : start % size < size := Nat.mod_lt _ (by omega)
  rw [Nat.add_mod, Nat.mod_eq_of_lt hcount, cell_add hstart hcount]
  split
  · rw [show start % size + count + size - start % size = count + size by omega,
      Nat.add_mod_right, Nat.mod_eq_of_lt hcount]
  · rw [show start % size + count - size + size - start % size = count by omega,
      Nat.mod_eq_of_lt hcount]

/-- What is left of `size - 1` counters after the later one. -/
theorem cell_remaining {size start count : Nat} (hcount : count < size) :
    (size - 1 + start % size - (start + count) % size) % size = size - 1 - count := by
  have hstart : start % size < size := Nat.mod_lt _ (by omega)
  rw [Nat.add_mod, Nat.mod_eq_of_lt hcount, cell_add hstart hcount]
  split
  · rw [Nat.mod_eq_of_lt (by omega)]
    omega
  · rw [show size - 1 + start % size - (start % size + count - size) = size - 1 - count + size by
      omega, Nat.add_mod_right, Nat.mod_eq_of_lt (by omega)]

/-! ## Windows -/

@[simp] theorem window_length (size : Nat) (cells : Nat → α) (start count : Nat) :
    (window size cells start count).length = count := by
  simp [window]

@[simp] theorem window_zero (size : Nat) (cells : Nat → α) (start : Nat) :
    window size cells start 0 = [] := rfl

theorem window_append (size : Nat) (cells : Nat → α) (start front back : Nat) :
    window size cells start (front + back) =
      window size cells start front ++ window size cells (start + front) back := by
  simp [window, List.range_add, Nat.add_assoc]

/-- A prefix of a window. -/
theorem window_take {size : Nat} {cells : Nat → α} {start total count : Nat}
    (hle : count ≤ total) :
    (window size cells start total).take count = window size cells start count := by
  obtain ⟨rest, rfl⟩ := Nat.exists_eq_add_of_le hle
  rw [window_append, List.take_append_of_le_length (by simp), List.take_of_length_le (by simp)]

/-- What follows a prefix of a window. -/
theorem window_drop {size : Nat} {cells : Nat → α} {start total count : Nat}
    (hle : count ≤ total) :
    (window size cells start total).drop count =
      window size cells (start + count) (total - count) := by
  obtain ⟨rest, rfl⟩ := Nat.exists_eq_add_of_le hle
  rw [window_append, List.drop_append, List.drop_eq_nil_of_le (by simp), window_length,
    Nat.sub_self, List.drop_zero, List.nil_append, Nat.add_sub_cancel_left]

/-- Cells that agree on a window have the same window. -/
theorem window_congr {size : Nat} {cells cells' : Nat → α} {start count : Nat}
    (hcells : ∀ i < count, cells' ((start + i) % size) = cells ((start + i) % size)) :
    window size cells' start count = window size cells start count := by
  apply List.map_congr_left
  intro i hi
  exact hcells i (List.mem_range.mp hi)

theorem loadWrapped_eq {size offset : Nat} (hoffset : offset < size) (cells : Nat → α)
    {count : Nat} (hcount : count ≤ size) :
    loadWrapped size cells offset count = window size cells offset count := by
  have hfirst : load cells offset (min count (size - offset)) =
      window size cells offset (min count (size - offset)) := by
    apply List.map_congr_left
    intro i hi
    have hlt := List.mem_range.mp hi
    rw [Nat.mod_eq_of_lt (by omega)]
  rw [loadWrapped, hfirst]
  by_cases hsplit : min count (size - offset) < count
  · have hsecond : load cells 0 (count - min count (size - offset)) =
        window size cells (offset + min count (size - offset))
          (count - min count (size - offset)) := by
      apply List.map_congr_left
      intro i hi
      have hlt := List.mem_range.mp hi
      rw [show offset + min count (size - offset) + i = 0 + i + size by omega,
        Nat.add_mod_right, Nat.mod_eq_of_lt (by omega)]
    rw [if_pos hsplit, hsecond, ← window_append]
    congr 1
    omega
  · rw [if_neg hsplit]
    congr 1
    omega

/-! ## Stores -/

theorem storeWrapped_apply {size offset : Nat} (hoffset : offset < size) (cells : Nat → α)
    {items : List α} (hitems : items.length ≤ size) {i : Nat} (hi : i < size) :
    storeWrapped size cells offset items i =
      items.getD (if offset ≤ i then i - offset else i + size - offset) (cells i) := by
  unfold storeWrapped
  by_cases hsplit : min items.length (size - offset) < items.length
  · have hmin : min items.length (size - offset) = size - offset := by omega
    rw [if_pos hsplit, hmin]
    simp only [store, Nat.zero_le, if_true, Nat.sub_zero, List.getD_eq_getElem?_getD,
      List.getElem?_drop, List.getElem?_take]
    by_cases hlow : offset ≤ i
    · rw [if_pos hlow, if_pos hlow, if_pos (by omega),
        List.getElem?_eq_none (show items.length ≤ size - offset + i by omega), Option.getD_none]
    · rw [if_neg hlow, if_neg hlow, show size - offset + i = i + size - offset by omega]
  · have hmin : min items.length (size - offset) = items.length := by omega
    rw [if_neg hsplit, hmin, List.take_length, store]
    by_cases hlow : offset ≤ i
    · rw [if_pos hlow, if_pos hlow]
    · rw [if_neg hlow, if_neg hlow, List.getD_eq_default _ _ (by omega)]

/-- A store fills the window at its counter. -/
theorem window_storeWrapped {size : Nat} (cells : Nat → α) (start : Nat) {items : List α}
    (hitems : items.length ≤ size) (hsize : 0 < size) :
    window size (storeWrapped size cells (start % size) items) start items.length = items := by
  apply List.ext_getElem (by simp)
  intro i hleft hright
  have hoffset : start % size < size := Nat.mod_lt _ hsize
  simp only [window, List.getElem_map, List.getElem_range]
  have hcell : (start + i) % size = if start % size + i < size then start % size + i
      else start % size + i - size := by
    rw [← cell_add hoffset (by omega), Nat.mod_add_mod]
  have hlt : (start + i) % size < size := Nat.mod_lt _ hsize
  have hindex : (if start % size ≤ (start + i) % size then (start + i) % size - start % size
      else (start + i) % size + size - start % size) = i := by
    rw [hcell]
    split <;> split <;> omega
  rw [storeWrapped_apply hoffset cells hitems hlt, hindex, List.getD_eq_getElem _ _ hright]

/-- A store leaves the windows before it alone, as long as it does not catch up
with them. -/
theorem window_storeWrapped_before {size : Nat} (cells : Nat → α) {first start count : Nat}
    {items : List α} (hbefore : first + count ≤ start)
    (hnear : start + items.length ≤ first + size) (hsize : 0 < size) :
    window size (storeWrapped size cells (start % size) items) first count =
      window size cells first count := by
  apply window_congr
  intro i hi
  have hoffset : start % size < size := Nat.mod_lt _ hsize
  have hlt : (first + i) % size < size := Nat.mod_lt _ hsize
  rw [storeWrapped_apply hoffset cells (by omega) hlt]
  apply List.getD_eq_default
  by_contra hinside
  rw [Nat.not_le] at hinside
  -- the cell would also be that of a counter of the store
  have hcell := cell_index hoffset hlt
  rw [Nat.mod_add_mod] at hcell
  exact cell_ne (by omega) (by omega) hcell.symm

end Foundation
end Iostreams
