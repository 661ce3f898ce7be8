import Mathlib.Data.Multiset.Bind
import Mathlib.Data.Multiset.Filter
import Mathlib.Tactic.Common

/-!
# Sets and maps up to key equivalence

An associative container compares keys by an equivalence: the one its ordering
induces, or the equality its hash agrees with.  Its content, without any
iteration order, is a multiset in which no two keys are equivalent.

* `insertKey` is `set.insert(x)`: an equivalent element already present stays.
* `assignKey` is `map[k] = v`: the key already present stays, its value goes.

Inserting or assigning the elements of a container one after the other, in
whatever order it lists them, yields `unionKeys` and `overrideKeys`, which
mention no order.
-/

namespace Iostreams
namespace Foundation

/-- A decidable equivalence of keys. -/
structure KeyEquiv (κ : Type*) where
  eqv : κ → κ → Bool
  refl : ∀ a, eqv a a = true
  symm : ∀ {a b}, eqv a b = true → eqv b a = true
  trans : ∀ {a b c}, eqv a b = true → eqv b c = true → eqv a c = true

instance existsMemDecidable {α : Type*} (s : Multiset α) (p : α → Prop) [DecidablePred p] :
    Decidable (∃ x ∈ s, p x) :=
  Multiset.decidableExistsMultiset

namespace KeyEquiv

variable {κ : Type*} (E : KeyEquiv κ)

/-- Equality, where it is decidable. -/
def ofEq [DecidableEq κ] : KeyEquiv κ where
  eqv a b := decide (a = b)
  refl _ := decide_eq_true rfl
  symm h := decide_eq_true (of_decide_eq_true h).symm
  trans h₁ h₂ := decide_eq_true ((of_decide_eq_true h₁).trans (of_decide_eq_true h₂))

/-- An element equivalent to `b` is inequivalent to whatever `b` is. -/
theorem eqv_false_of_eqv {a b c : κ} (hab : E.eqv a b = true) (hbc : E.eqv b c = false) :
    E.eqv a c = false := by
  cases hac : E.eqv a c with
  | false => rfl
  | true => exact absurd (E.trans (E.symm hab) hac) (by simp [hbc])

end KeyEquiv

/-! ## Sets -/

section Sets

variable {κ : Type*} (E : KeyEquiv κ)

/-- `set.insert(x)` -/
def insertKey (s : Multiset κ) (x : κ) : Multiset κ :=
  if ∃ y ∈ s, E.eqv y x = true then s else x ::ₘ s

/-- The old elements together with the new ones that no old one is equivalent to. -/
def unionKeys (old new : Multiset κ) : Multiset κ :=
  old + new.filter fun x => ¬∃ y ∈ old, E.eqv y x = true

theorem unionKeys_empty (new : Multiset κ) : unionKeys E 0 new = new := by
  simp [unionKeys]

theorem foldl_insertKey {items : List κ}
    (hitems : items.Pairwise fun a b => E.eqv a b = false) (old : Multiset κ) :
    items.foldl (insertKey E) old = unionKeys E old items := by
  induction items generalizing old with
  | nil => simp [unionKeys]
  | cons x rest ih =>
      obtain ⟨hx, hrest⟩ := List.pairwise_cons.mp hitems
      rw [List.foldl_cons, ih hrest, insertKey]
      by_cases hold : ∃ y ∈ old, E.eqv y x = true
      · rw [if_pos hold, unionKeys, unionKeys, ← Multiset.cons_coe, Multiset.filter_cons,
          if_neg (not_not.mpr hold), zero_add]
      · rw [if_neg hold, unionKeys, unionKeys, ← Multiset.cons_coe, Multiset.filter_cons,
          if_pos hold, Multiset.singleton_add, Multiset.cons_add, Multiset.add_cons]
        congr 2
        apply Multiset.filter_congr
        intro z hz
        have hxz : E.eqv x z = false := hx z hz
        simp [hxz]

theorem card_insertKey_le (s : Multiset κ) (x : κ) : (insertKey E s x).card ≤ s.card + 1 := by
  unfold insertKey
  split
  · exact Nat.le_succ _
  · rw [Multiset.card_cons]

end Sets

/-! ## Maps -/

section Maps

variable {κ ν : Type*} (E : KeyEquiv κ)

/-- `map[key] = value` -/
def assignKey (m : Multiset (κ × ν)) (binding : κ × ν) : Multiset (κ × ν) :=
  if ∃ p ∈ m, E.eqv p.1 binding.1 = true then
    m.map fun p => if E.eqv p.1 binding.1 = true then (p.1, binding.2) else p
  else
    binding ::ₘ m

/-- The binding `p` after the bindings `new` were assigned: their value if one
of them has an equivalent key, else the old value. -/
def rebind (new : Multiset (κ × ν)) (p : κ × ν) : Multiset (κ × ν) :=
  if ∃ q ∈ new, E.eqv p.1 q.1 = true then
    (new.filter fun q => E.eqv p.1 q.1 = true).map fun q => (p.1, q.2)
  else
    {p}

/-- The old map overridden by the new bindings. -/
def overrideKeys (old new : Multiset (κ × ν)) : Multiset (κ × ν) :=
  old.bind (rebind E new) + new.filter fun q => ¬∃ p ∈ old, E.eqv p.1 q.1 = true

theorem overrideKeys_empty (new : Multiset (κ × ν)) : overrideKeys E 0 new = new := by
  simp [overrideKeys]

/-- A binding whose key the new bindings do not mention keeps its value. -/
theorem rebind_of_fresh {new : Multiset (κ × ν)} {p : κ × ν}
    (hfresh : ∀ q ∈ new, E.eqv p.1 q.1 = false) : rebind E new p = {p} := by
  rw [rebind, if_neg]
  rintro ⟨q, hq, heqv⟩
  rw [hfresh q hq] at heqv
  contradiction

theorem rebind_cons_of_neg {new : Multiset (κ × ν)} {p q : κ × ν}
    (hkey : E.eqv p.1 q.1 = false) : rebind E (q ::ₘ new) p = rebind E new p := by
  have hexists : (∃ r ∈ q ::ₘ new, E.eqv p.1 r.1 = true) ↔
      ∃ r ∈ new, E.eqv p.1 r.1 = true := by
    simp [hkey]
  simp only [rebind, hexists, Multiset.filter_cons, hkey, Bool.false_eq_true, if_false, zero_add]

theorem rebind_cons_of_pos {new : Multiset (κ × ν)} {p q : κ × ν}
    (hkey : E.eqv p.1 q.1 = true) (hfresh : ∀ r ∈ new, E.eqv p.1 r.1 = false) :
    rebind E (q ::ₘ new) p = {(p.1, q.2)} := by
  have hfilter : (new.filter fun r => E.eqv p.1 r.1 = true) = 0 := by
    apply Multiset.filter_eq_nil.mpr
    intro r hr
    simp [hfresh r hr]
  rw [rebind, if_pos ⟨q, Multiset.mem_cons_self q new, hkey⟩, Multiset.filter_cons,
    if_pos hkey, hfilter, add_zero, Multiset.map_singleton]

theorem foldl_assignKey {bindings : List (κ × ν)}
    (hbindings : bindings.Pairwise fun p q => E.eqv p.1 q.1 = false)
    (old : Multiset (κ × ν)) :
    bindings.foldl (assignKey E) old = overrideKeys E old bindings := by
  induction bindings generalizing old with
  | nil =>
      have hbind : old.bind (rebind E 0) = old := by
        rw [Multiset.bind_congr fun p _ => rebind_of_fresh E fun q hq =>
          absurd hq (Multiset.notMem_zero q)]
        exact Multiset.bind_singleton old id |>.trans (Multiset.map_id old)
      simpa [overrideKeys] using hbind.symm
  | cons binding rest ih =>
      obtain ⟨hbinding, hrest⟩ := List.pairwise_cons.mp hbindings
      rw [List.foldl_cons, ih hrest, assignKey]
      by_cases hold : ∃ p ∈ old, E.eqv p.1 binding.1 = true
      · -- the key is present: no later binding touches it again
        rw [if_pos hold, overrideKeys, overrideKeys, ← Multiset.cons_coe, Multiset.filter_cons,
          if_neg (not_not.mpr hold), zero_add, Multiset.bind_map]
        congr 1
        · apply Multiset.bind_congr
          intro p _
          cases hkey : E.eqv p.1 binding.1 with
          | true =>
              have hfresh : ∀ r ∈ (rest : Multiset (κ × ν)), E.eqv p.1 r.1 = false :=
                fun r hr => E.eqv_false_of_eqv hkey (hbinding r hr)
              rw [if_pos rfl, rebind_cons_of_pos E hkey hfresh]
              exact rebind_of_fresh E hfresh
          | false => rw [if_neg (by simp), rebind_cons_of_neg E hkey]
        · apply Multiset.filter_congr
          intro q _
          have hkeys : (∃ p ∈ old.map fun p =>
                if E.eqv p.1 binding.1 = true then (p.1, binding.2) else p,
              E.eqv p.1 q.1 = true) ↔ ∃ p ∈ old, E.eqv p.1 q.1 = true := by
            simp only [Multiset.mem_map, exists_exists_and_eq_and]
            constructor
            · rintro ⟨p, hp, heqv⟩
              exact ⟨p, hp, by split at heqv <;> exact heqv⟩
            · rintro ⟨p, hp, heqv⟩
              exact ⟨p, hp, by split <;> exact heqv⟩
          rw [hkeys]
      · -- the key is new: its binding is added, and no later one is equivalent to it
        rw [if_neg hold, overrideKeys, overrideKeys, ← Multiset.cons_coe, Multiset.filter_cons,
          if_pos hold, Multiset.cons_bind, rebind_of_fresh E (fun r hr => hbinding r hr),
          Multiset.singleton_add, Multiset.singleton_add, Multiset.cons_add, Multiset.add_cons]
        congr 2
        · apply Multiset.bind_congr
          intro p hp
          have hkey : E.eqv p.1 binding.1 = false := by
            rw [← Bool.not_eq_true]
            exact fun heqv => hold ⟨p, hp, heqv⟩
          rw [rebind_cons_of_neg E hkey]
        · apply Multiset.filter_congr
          intro q hq
          have hkey : E.eqv binding.1 q.1 = false := hbinding q hq
          simp [hkey]

theorem card_assignKey_le (m : Multiset (κ × ν)) (binding : κ × ν) :
    (assignKey E m binding).card ≤ m.card + 1 := by
  unfold assignKey
  split
  · rw [Multiset.card_map]
    exact Nat.le_succ _
  · rw [Multiset.card_cons]

end Maps

end Foundation
end Iostreams
