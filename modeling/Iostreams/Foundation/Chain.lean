import Mathlib.Data.Finset.Card
import Mathlib.Logic.Function.Iterate
import Mathlib.Data.Fintype.EquivFin

/-!
# Chains of a partial function

`follow next start n` is what `n` steps of a partial function lead to.  A chain that ends has no
element twice, and one that stays among finitely many elements ends if it has none twice.
-/

namespace Iostreams
namespace Foundation

variable {α : Type*} {next : α → Option α} {start : α}

/-- After `n` steps; `none` where the chain has ended before. -/
def follow (next : α → Option α) (start : α) (n : Nat) : Option α :=
  (fun element => element.bind next)^[n] (some start)

/-- The first step, and then the chain from where it leads to. -/
theorem follow_succ_eq_none (n : Nat) :
    follow next start (n + 1) = none ↔
      ∀ element, next start = some element → follow next element n = none := by
  have hfirst : follow next start (n + 1) =
      (fun element => element.bind next)^[n] (next start) := rfl
  rw [hfirst]
  cases next start with
  | none =>
      have hfixed : (fun element : Option α => element.bind next) none = none := rfl
      exact iff_of_true (Function.iterate_fixed hfixed n) nofun
  | some element =>
      constructor
      · intro hended later hlater
        cases hlater
        exact hended
      · intro hended
        exact hended element rfl

theorem follow_add (m n : Nat) :
    follow next start (m + n) =
      (fun element => element.bind next)^[m] (follow next start n) :=
  Function.iterate_add_apply _ m n _

/-- A chain that has ended stays so. -/
theorem follow_none_of_le {m n : Nat} (hended : follow next start m = none) (hle : m ≤ n) :
    follow next start n = none := by
  obtain ⟨k, rfl⟩ := Nat.exists_eq_add_of_le' hle
  have hfixed : (fun element : Option α => element.bind next) none = none := rfl
  rw [follow_add, hended]
  exact Function.iterate_fixed hfixed k

/-- A chain that comes to an element again never ends. -/
theorem follow_ne_none_of_eq {i j : Nat} (hlt : i < j)
    (hagain : follow next start i = follow next start j) (helement : follow next start i ≠ none)
    (n : Nat) : follow next start n ≠ none := by
  have hround : ∀ k, follow next start (i + k * (j - i)) = follow next start i := by
    intro k
    induction k with
    | zero => rw [Nat.zero_mul, Nat.add_zero]
    | succ k ih =>
        have hsum : i + (k + 1) * (j - i) = j - i + (i + k * (j - i)) := by
          rw [Nat.succ_mul]
          omega
        rw [hsum, follow_add, ih, ← follow_add, Nat.sub_add_cancel (Nat.le_of_lt hlt), hagain]
  intro hended
  have hle : n ≤ i + n * (j - i) := by
    have hmul : n * 1 ≤ n * (j - i) := Nat.mul_le_mul_left n (by omega)
    omega
  exact helement ((hround n).symm.trans (follow_none_of_le hended hle))

/-- Among finitely many elements a chain ends exactly if none comes again. -/
theorem follow_ends_iff {elements : Finset α}
    (hstays : ∀ n element, follow next start n = some element → element ∈ elements) :
    (∃ n, follow next start n = none) ↔
      ∀ i j, i < j → follow next start i = follow next start j → follow next start i = none := by
  constructor
  · rintro ⟨n, hended⟩ i j hlt hagain
    by_contra helement
    exact follow_ne_none_of_eq hlt hagain helement n hended
  · intro hfresh
    by_contra hendless
    rw [not_exists] at hendless
    have hsome : ∀ n, ∃ element ∈ elements, follow next start n = some element := by
      intro n
      obtain ⟨element, helement⟩ := Option.ne_none_iff_exists'.mp (hendless n)
      exact ⟨element, hstays n element helement, helement⟩
    choose element hmem helement using hsome
    have hinjective : Function.Injective fun n => (⟨element n, hmem n⟩ : elements) := by
      intro i j hsame
      have hagain : follow next start i = follow next start j := by
        rw [helement, helement]
        exact congrArg some (Subtype.mk.inj hsame)
      rcases Nat.lt_trichotomy i j with hlt | heq | hlt
      · exact absurd (hfresh i j hlt hagain) (hendless i)
      · exact heq
      · exact absurd (hfresh j i hlt hagain.symm) (hendless j)
    exact not_injective_infinite_finite _ hinjective

end Foundation
end Iostreams
