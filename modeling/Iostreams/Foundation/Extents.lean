import Mathlib.Data.List.Basic
import Mathlib.Tactic.Common

/-!
# Extents of encodings

How far an encoding reaches into the items in front of a reader: its extent obtains the items
behind a complete encoding, and nothing if the encoding is cut off.  Extents are put together as
encodings are, one behind the other, repeated, or after a count.

`AtLeast width` is the lower bound of an extent: `count` encodings of at least `width` items each
need `count * width` items.

A reader that does not notice a cut has an extent too, which obtains the items it leaves in any
case, and nothing only where it gives up.  It `Agrees` with the extent of the encodings if it gets
right behind those that are complete, and its reads are `Covered` if each of them finds a complete
encoding until one gives up.
-/

namespace Iostreams
namespace Foundation

/-- The items behind a complete encoding. -/
def Extent (ι : Type*) : Type _ := List ι → Option (List ι)

namespace Extent

variable {ι : Type*}

/-- `size` items -/
def block (size : Nat) : Extent ι := fun items =>
  if size ≤ items.length then some (items.drop size) else none

def andThen (first second : Extent ι) : Extent ι := fun items => (first items).bind second

def times (each : Extent ι) : Nat → Extent ι
  | 0 => some
  | count + 1 => each.andThen (each.times count)

/-- A field of `size` items, and what its value announces. -/
def counted (size : Nat) (value : List ι → Nat) (body : Nat → Extent ι) : Extent ι := fun items =>
  if size ≤ items.length then body (value (items.take size)) (items.drop size) else none

/-- `size` items, or fewer: of too few all are taken, or, if they are to be `kept`, none. -/
def taken (kept : Bool) (size : Nat) : Extent ι := fun items =>
  if kept = true ∧ items.length < size then some items else some (items.drop size)

/-- A field of `size` items, and what its value announces; a field whose items are kept announces
nothing. -/
def prefixed (kept : Bool) (size : Nat) (value : List ι → Nat) (body : Nat → Extent ι) :
    Extent ι := fun items =>
  if kept = true ∧ items.length < size then body 0 items
  else body (value (items.take size)) (items.drop size)

/-- Where a reader gets behind a complete encoding, it is right behind it. -/
def Agrees (extent reader : Extent ι) : Prop :=
  ∀ items rest left : List ι, extent items = some rest → reader items = some left → left = rest

/-- Of `count` reads, each finds a complete encoding, up to the first one that gives up. -/
def Covered (extent reader : Extent ι) : Nat → List ι → Prop
  | 0, _ => True
  | count + 1, items =>
      match reader items with
      | none => True
      | some left => (extent items).isSome = true ∧ extent.Covered reader count left

/-- No complete encoding is shorter than `width`. -/
def AtLeast (extent : Extent ι) (width : Nat) : Prop :=
  ∀ items rest : List ι, extent items = some rest → rest.length + width ≤ items.length

theorem block_some {size : Nat} {items rest : List ι} (hblock : block size items = some rest) :
    size ≤ items.length ∧ rest = items.drop size := by
  unfold block at hblock
  split at hblock
  · next hle => exact ⟨hle, (Option.some.inj hblock).symm⟩
  · cases hblock

theorem counted_some {size : Nat} {value : List ι → Nat} {body : Nat → Extent ι}
    {items rest : List ι} (hcounted : counted size value body items = some rest) :
    size ≤ items.length ∧ body (value (items.take size)) (items.drop size) = some rest := by
  unfold counted at hcounted
  split at hcounted
  · next hle => exact ⟨hle, hcounted⟩
  · cases hcounted

theorem andThen_some {first second : Extent ι} {items rest : List ι}
    (hboth : first.andThen second items = some rest) :
    ∃ between, first items = some between ∧ second between = some rest := by
  unfold andThen at hboth
  exact Option.bind_eq_some_iff.mp hboth

theorem andThen_of_some {first second : Extent ι} {items between : List ι}
    (hfirst : first items = some between) : first.andThen second items = second between := by
  unfold andThen
  rw [hfirst]
  rfl

theorem AtLeast.mono {extent : Extent ι} {width less : Nat} (hextent : extent.AtLeast width)
    (hle : less ≤ width) : extent.AtLeast less := by
  intro items rest hsome
  have hlength := hextent items rest hsome
  omega

theorem block_atLeast (size : Nat) : (block size : Extent ι).AtLeast size := by
  intro items rest hblock
  obtain ⟨hle, rfl⟩ := block_some hblock
  rw [List.length_drop]
  omega

theorem AtLeast.andThen {first second : Extent ι} {width more : Nat}
    (hfirst : first.AtLeast width) (hsecond : second.AtLeast more) :
    (first.andThen second).AtLeast (width + more) := by
  intro items rest hboth
  obtain ⟨between, hbefore, hafter⟩ := andThen_some hboth
  have hwidth := hfirst items between hbefore
  have hmore := hsecond between rest hafter
  omega

theorem AtLeast.times {each : Extent ι} {width : Nat} (heach : each.AtLeast width) (count : Nat) :
    (each.times count).AtLeast (count * width) := by
  induction count with
  | zero =>
      intro items rest hnone
      cases hnone
      omega
  | succ count ih =>
      have hboth : (each.times (count + 1)).AtLeast (width + count * width) := heach.andThen ih
      rw [Nat.succ_mul, Nat.add_comm (count * width)]
      exact hboth

theorem AtLeast.counted {size : Nat} {value : List ι → Nat} {body : Nat → Extent ι}
    (hbody : ∀ count, (body count).AtLeast 0) : (counted size value body).AtLeast size := by
  intro items rest hcounted
  obtain ⟨hle, hrest⟩ := counted_some hcounted
  have hlength := hbody _ _ _ hrest
  rw [List.length_drop] at hlength
  omega

/-! ## Readers -/

theorem agrees_block (kept : Bool) (size : Nat) :
    (block size : Extent ι).Agrees (taken kept size) := by
  intro items rest left hblock hleft
  obtain ⟨hle, rfl⟩ := block_some hblock
  rw [taken, if_neg fun hcut => Nat.not_lt.mpr hle hcut.2] at hleft
  exact (Option.some.inj hleft).symm

theorem Agrees.andThen {first second reader next : Extent ι} (hfirst : first.Agrees reader)
    (hsecond : second.Agrees next) : (first.andThen second).Agrees (reader.andThen next) := by
  intro items rest left hboth hleft
  obtain ⟨between, hbefore, hafter⟩ := andThen_some hboth
  obtain ⟨stop, hread, hnext⟩ := andThen_some hleft
  obtain rfl := hfirst items between stop hbefore hread
  exact hsecond stop rest left hafter hnext

theorem Agrees.times {each reader : Extent ι} (heach : each.Agrees reader) (count : Nat) :
    (each.times count).Agrees (reader.times count) := by
  induction count with
  | zero =>
      intro items rest left hrest hleft
      cases hrest
      cases hleft
      rfl
  | succ count ih => exact heach.andThen ih

theorem Agrees.counted {kept : Bool} {size : Nat} {value : List ι → Nat}
    {body reader : Nat → Extent ι} (hbody : ∀ count, (body count).Agrees (reader count)) :
    (counted size value body).Agrees (prefixed kept size value reader) := by
  intro items rest left hcounted hleft
  obtain ⟨hle, hrest⟩ := counted_some hcounted
  rw [prefixed, if_neg fun hcut => Nat.not_lt.mpr hle hcut.2] at hleft
  exact hbody _ _ _ _ hrest hleft

theorem covered_of_none {extent reader : Extent ι} {items : List ι}
    (hnone : reader items = none) (count : Nat) : extent.Covered reader (count + 1) items := by
  rw [Covered, hnone]
  trivial

theorem covered_of_some {extent reader : Extent ι} {items left : List ι}
    (hsome : reader items = some left) (count : Nat) :
    extent.Covered reader (count + 1) items ↔
      (extent items).isSome = true ∧ extent.Covered reader count left := by
  rw [Covered, hsome]

end Extent

end Foundation
end Iostreams
