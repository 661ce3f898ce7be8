import Mathlib.Tactic.Common

/-!
# Bounded queues

A first-in first-out queue that never holds more than `capacity` items.  What
does not fit is not taken, and no more is removed than there is.
-/

namespace Iostreams
namespace Foundation

structure BoundedFifo (α : Type*) (capacity : Nat) where
  items : List α
  length_le : items.length ≤ capacity

namespace BoundedFifo

variable {α : Type*} {capacity : Nat}

@[ext] theorem ext_items {queue other : BoundedFifo α capacity}
    (hitems : queue.items = other.items) : queue = other := by
  cases queue
  cases other
  congr

def empty : BoundedFifo α capacity := ⟨[], Nat.zero_le _⟩

/-- How many items still fit. -/
def space (queue : BoundedFifo α capacity) : Nat := capacity - queue.items.length

/-- Append as many of the items as fit. -/
def push (queue : BoundedFifo α capacity) (items : List α) : BoundedFifo α capacity where
  items := queue.items ++ items.take queue.space
  length_le := by
    have hle := queue.length_le
    rw [List.length_append, List.length_take, space]
    omega

/-- Remove the oldest `count` items, or all if there are fewer. -/
def pop (queue : BoundedFifo α capacity) (count : Nat) : BoundedFifo α capacity where
  items := queue.items.drop count
  length_le := by
    have hle := queue.length_le
    rw [List.length_drop]
    omega

theorem push_of_full {queue : BoundedFifo α capacity} (hfull : queue.space = 0)
    (items : List α) : queue.push items = queue := by
  ext1
  rw [show (queue.push items).items = queue.items ++ items.take queue.space from rfl, hfull,
    List.take_zero, List.append_nil]

theorem pop_of_empty {queue : BoundedFifo α capacity} (hempty : queue.items = []) (count : Nat) :
    queue.pop count = queue := by
  ext1
  rw [show (queue.pop count).items = queue.items.drop count from rfl, hempty, List.drop_nil]

end BoundedFifo
end Foundation
end Iostreams
