import Mathlib.Data.Finmap

/-!
# Entries of a finite map

Where an entry comes from that is found in a finite map after an update.
-/

namespace Iostreams
namespace Foundation

variable {κ ω : Type*} [DecidableEq κ]

/-- What is found after a key was erased is the entry of another key. -/
theorem lookup_erase_eq_some {map : Finmap fun _ : κ => ω} {key other : κ} {item : ω} :
    (map.erase key).lookup other = some item ↔ other ≠ key ∧ map.lookup other = some item := by
  by_cases hsame : other = key
  · rw [hsame, Finmap.lookup_erase]
    exact iff_of_false (fun hfound => nomatch hfound) fun hother => hother.1 rfl
  · rw [Finmap.lookup_erase_ne hsame]
    exact (and_iff_right hsame).symm

/-- What is found after an insertion is the new entry, or the entry of another key. -/
theorem lookup_insert_eq_some {map : Finmap fun _ : κ => ω} {key other : κ} {new item : ω} :
    (map.insert key new).lookup other = some item ↔
      other = key ∧ item = new ∨ other ≠ key ∧ map.lookup other = some item := by
  by_cases hsame : other = key
  · rw [hsame, Finmap.lookup_insert, Option.some.injEq]
    constructor
    · intro hnew
      exact Or.inl ⟨rfl, hnew.symm⟩
    · rintro (⟨-, rfl⟩ | ⟨hne, -⟩)
      · rfl
      · exact absurd rfl hne
  · rw [Finmap.lookup_insert_of_ne _ hsame]
    constructor
    · intro hold
      exact Or.inr ⟨hsame, hold⟩
    · rintro (⟨heq, -⟩ | ⟨-, hold⟩)
      · exact absurd heq hsame
      · exact hold

/-- Erasing a key that is not there changes nothing. -/
theorem erase_of_lookup_none {map : Finmap fun _ : κ => ω} {key : κ}
    (habsent : map.lookup key = none) : map.erase key = map := by
  apply Finmap.ext_lookup
  intro other
  by_cases hsame : other = key
  · rw [hsame, Finmap.lookup_erase, habsent]
  · exact Finmap.lookup_erase_ne hsame

end Foundation
end Iostreams
