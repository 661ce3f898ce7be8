import Iostreams.Foundation.KeyedContainer
import Iostreams.Serial.Operators

/-!
# Containers

The types a program can write: `bool`, trivially copyable types of a fixed
size, `std::string`, and the containers over them, nested to any depth.

A container that is written is in memory: its elements come in an iteration
order, which for the unordered containers depends on their history.  `Layout`
pairs this stored form with the order-free content it represents; the layout
of a set or map carries the invariant that no two keys are equivalent.  A
container that is read into is its content (`Ty.Value`), since insertion is
the only operation the readers perform on it.

The eight helpers of the source differ in the element they transfer and in how
they insert it; each is `serializeElements` or `deserializeElements` at its
own element.
-/

namespace Iostreams

open Foundation

/-- The fixed-size trivially copyable types of a program. -/
structure ScalarTypes where
  Name : Type
  sizeof : Name → Nat
  sizeof_pos : ∀ name, 0 < sizeof name
  sizeof_lt : ∀ name, sizeof name < 2 ^ 63
  /-- The representation a local of this type happens to have before it is read. -/
  indeterminate : (name : Name) → { bytes : List UInt8 // bytes.length = sizeof name }

/-- The types that can be written and read. -/
inductive Ty (T : ScalarTypes) where
  | bool
  | scalar (name : T.Name)
  | string
  | vector (element : Ty T)
  | set (element : Ty T)
  | unorderedSet (element : Ty T)
  | map (key value : Ty T)
  | unorderedMap (key value : Ty T)

namespace Ty

variable {T : ScalarTypes}

/-- The content of a value: what it holds apart from any iteration order. -/
def Value : Ty T → Type
  | .bool => Bool
  | .scalar name => { bytes : List UInt8 // bytes.length = T.sizeof name }
  | .string => List UInt8
  | .vector element => List element.Value
  | .set element => Multiset element.Value
  | .unorderedSet element => Multiset element.Value
  | .map key value => Multiset (key.Value × value.Value)
  | .unorderedMap key value => Multiset (key.Value × value.Value)

/-- The value of a local `T v;` before it is read into. -/
def fresh : (t : Ty T) → t.Value
  | .bool => false
  | .scalar name => T.indeterminate name
  | .string => ([] : List UInt8)
  | .vector element => ([] : List element.Value)
  | .set element => (0 : Multiset element.Value)
  | .unorderedSet element => (0 : Multiset element.Value)
  | .map key value => (0 : Multiset (key.Value × value.Value))
  | .unorderedMap key value => (0 : Multiset (key.Value × value.Value))

end Ty

/-- The key equivalences of the containers: the one `operator<` induces for the
ordered ones, `operator==` for the unordered ones. -/
structure Keys (T : ScalarTypes) where
  ordered : (t : Ty T) → KeyEquiv t.Value
  hashed : (t : Ty T) → KeyEquiv t.Value

/-- Contents can be compared. -/
def Ty.decEqValue {T : ScalarTypes} : (t : Ty T) → DecidableEq t.Value
  | .bool => inferInstanceAs (DecidableEq Bool)
  | .scalar name =>
      inferInstanceAs (DecidableEq { bytes : List UInt8 // bytes.length = T.sizeof name })
  | .string => inferInstanceAs (DecidableEq (List UInt8))
  | .vector element => @instDecidableEqList _ element.decEqValue
  | .set element => @Multiset.decidableEq _ element.decEqValue
  | .unorderedSet element => @Multiset.decidableEq _ element.decEqValue
  | .map key value =>
      @Multiset.decidableEq _ (@instDecidableEqProd _ _ key.decEqValue value.decEqValue)
  | .unorderedMap key value =>
      @Multiset.decidableEq _ (@instDecidableEqProd _ _ key.decEqValue value.decEqValue)

/-- The keys of a program whose orderings and hashes distinguish all values. -/
def Keys.equality (T : ScalarTypes) : Keys T where
  ordered t := @KeyEquiv.ofEq _ t.decEqValue
  hashed t := @KeyEquiv.ofEq _ t.decEqValue

/-- A stored form and the content it represents. -/
structure Layout (α : Type) where
  Stored : Type
  content : Stored → α

namespace Layout

variable {α ν : Type}

/-- A sequence of elements. -/
def sequence (element : Layout α) : Layout (List α) where
  Stored := List element.Stored
  content := List.map element.content

/-- The elements of a set in iteration order. -/
def keys (E : KeyEquiv α) (element : Layout α) : Layout (Multiset α) where
  Stored := { items : List element.Stored //
    (items.map element.content).Pairwise fun a b => E.eqv a b = false }
  content items := ((items.val.map element.content : List α) : Multiset α)

/-- The content of a binding. -/
def binding (key : Layout α) (value : Layout ν) (item : key.Stored × value.Stored) : α × ν :=
  (key.content item.1, value.content item.2)

/-- The bindings of a map in iteration order. -/
def bindings (E : KeyEquiv α) (key : Layout α) (value : Layout ν) :
    Layout (Multiset (α × ν)) where
  Stored := { items : List (key.Stored × value.Stored) //
    (items.map (binding key value)).Pairwise fun p q => E.eqv p.1 q.1 = false }
  content items := ((items.val.map (binding key value) : List (α × ν)) : Multiset (α × ν))

end Layout

/-- How a value of each type is stored. -/
def Ty.layout {T : ScalarTypes} (K : Keys T) : (t : Ty T) → Layout t.Value
  | .bool => ⟨Bool, id⟩
  | .scalar name => ⟨{ bytes : List UInt8 // bytes.length = T.sizeof name }, id⟩
  | .string => ⟨List UInt8, id⟩
  | .vector element => .sequence (element.layout K)
  | .set element => .keys (K.ordered element) (element.layout K)
  | .unorderedSet element => .keys (K.hashed element) (element.layout K)
  | .map key value => .bindings (K.ordered key) (key.layout K) (value.layout K)
  | .unorderedMap key value => .bindings (K.hashed key) (key.layout K) (value.layout K)

/-! ## Writing -/

namespace Serial

variable {β : Type} [Streambuf β]

/-- `serial << c.size(); for (auto& v : c) serial << v;` -/
def serializeElements {α : Type} (depth : Nat)
    (put : α → Serial β → Except Halt (Serial β)) (items : List α) (s : Serial β) :
    Except Halt (Serial β) := do
  let s ← putSize depth items.length s
  writeEach (fun s item => put item s) items s

/-- `serial << k << v` -/
def putBinding {κ ν : Type} (putKey : κ → Serial β → Except Halt (Serial β))
    (putValue : ν → Serial β → Except Halt (Serial β)) (item : κ × ν) (s : Serial β) :
    Except Halt (Serial β) := do
  let s ← putKey item.1 s
  putValue item.2 s

section Helpers

variable {α κ ν : Type} (depth : Nat) (put : α → Serial β → Except Halt (Serial β))
  (putKey : κ → Serial β → Except Halt (Serial β))
  (putValue : ν → Serial β → Except Halt (Serial β))

def serializeVector (st : List α) (s : Serial β) : Except Halt (Serial β) :=
  serializeElements depth put st s

def serializeSet (st : List α) (s : Serial β) : Except Halt (Serial β) :=
  serializeElements depth put st s

def serializeUnorderedSet (st : List α) (s : Serial β) : Except Halt (Serial β) :=
  serializeElements depth put st s

def serializeMap (kv : List (κ × ν)) (s : Serial β) : Except Halt (Serial β) :=
  serializeElements depth (putBinding putKey putValue) kv s

def serializeUnorderedMap (kv : List (κ × ν)) (s : Serial β) : Except Halt (Serial β) :=
  serializeElements depth (putBinding putKey putValue) kv s

end Helpers

/-- `serial << v` at each type -/
def put {T : ScalarTypes} (K : Keys T) (depth : Nat) :
    (t : Ty T) → (t.layout K).Stored → Serial β → Except Halt (Serial β)
  | .bool, value, s => putBool depth value s
  | .scalar _, value, s => putBytes depth value.val s
  | .string, str, s => serializeString depth str s
  | .vector element, st, s => serializeVector depth (put K depth element) st s
  | .set element, st, s => serializeSet depth (put K depth element) st.val s
  | .unorderedSet element, st, s => serializeUnorderedSet depth (put K depth element) st.val s
  | .map key value, kv, s => serializeMap depth (put K depth key) (put K depth value) kv.val s
  | .unorderedMap key value, kv, s =>
      serializeUnorderedMap depth (put K depth key) (put K depth value) kv.val s

end Serial

/-! ## Reading -/

namespace Reader

variable {β γ : Type} [Streambuf β] [Streambuf γ]

/-- `for (size_t i = 0; i < size; i++) { VT v; serial >> v; insert(v); }` -/
def getEach {α σ : Type} (get : Reader β γ → Except Halt (α × Reader β γ)) (insert : σ → α → σ) :
    Nat → σ → Reader β γ → Except Halt (σ × Reader β γ)
  | 0, target, r => .ok (target, r)
  | count + 1, target, r => do
      let (item, r) ← get r
      getEach get insert count (insert target item) r

/-- `size_t size = 0; serial >> size;` and the loop -/
def deserializeElements {α σ : Type} (depth : Nat)
    (get : Reader β γ → Except Halt (α × Reader β γ)) (insert : σ → α → σ) (target : σ)
    (r : Reader β γ) : Except Halt (σ × Reader β γ) := do
  let (size, r) ← r.getSize depth 0
  getEach get insert size target r

/-- `serial >> k >> v` -/
def getBinding {κ ν : Type} (getKey : Reader β γ → Except Halt (κ × Reader β γ))
    (getValue : Reader β γ → Except Halt (ν × Reader β γ)) (r : Reader β γ) :
    Except Halt ((κ × ν) × Reader β γ) := do
  let (key, r) ← getKey r
  let (value, r) ← getValue r
  .ok ((key, value), r)

section Helpers

variable {α κ ν : Type} (depth : Nat) (get : Reader β γ → Except Halt (α × Reader β γ))
  (getKey : Reader β γ → Except Halt (κ × Reader β γ))
  (getValue : Reader β γ → Except Halt (ν × Reader β γ))

/-- `reserve` changes the capacity only. -/
def deserializeVector (st : List α) (r : Reader β γ) : Except Halt (List α × Reader β γ) :=
  deserializeElements depth get (fun st v => st ++ [v]) st r

def deserializeSet (E : KeyEquiv α) (st : Multiset α) (r : Reader β γ) :
    Except Halt (Multiset α × Reader β γ) :=
  deserializeElements depth get (insertKey E) st r

def deserializeUnorderedSet (E : KeyEquiv α) (st : Multiset α) (r : Reader β γ) :
    Except Halt (Multiset α × Reader β γ) :=
  deserializeElements depth get (insertKey E) st r

def deserializeMap (E : KeyEquiv κ) (kv : Multiset (κ × ν)) (r : Reader β γ) :
    Except Halt (Multiset (κ × ν) × Reader β γ) :=
  deserializeElements depth (getBinding getKey getValue) (assignKey E) kv r

def deserializeUnorderedMap (E : KeyEquiv κ) (kv : Multiset (κ × ν)) (r : Reader β γ) :
    Except Halt (Multiset (κ × ν) × Reader β γ) :=
  deserializeElements depth (getBinding getKey getValue) (assignKey E) kv r

end Helpers

/-- The representation left in an object of `size` bytes. -/
def asObject (size : Nat) (bytes : List UInt8) : { bytes : List UInt8 // bytes.length = size } :=
  ⟨resize bytes size, by simp [resize]; omega⟩

theorem asObject_eq {size : Nat} (object : { bytes : List UInt8 // bytes.length = size }) :
    asObject size object.val = object := by
  apply Subtype.ext
  simp [asObject, resize, object.property, List.take_of_length_le]

/-- `serial >> v` at each type, with the prior content of `v` -/
def get {T : ScalarTypes} (K : Keys T) (depth : Nat) :
    (t : Ty T) → t.Value → Reader β γ → Except Halt (t.Value × Reader β γ)
  | .bool, _, r => r.getBool depth
  | .scalar name, old, r => do
      let (bytes, r) ← r.getBytes depth old.val
      .ok (asObject (T.sizeof name) bytes, r)
  | .string, old, r => r.deserializeString depth old
  | .vector element, old, r => deserializeVector depth (get K depth element element.fresh) old r
  | .set element, old, r =>
      deserializeSet depth (get K depth element element.fresh) (K.ordered element) old r
  | .unorderedSet element, old, r =>
      deserializeUnorderedSet depth (get K depth element element.fresh) (K.hashed element) old r
  | .map key value, old, r =>
      deserializeMap depth (get K depth key key.fresh) (get K depth value value.fresh)
        (K.ordered key) old r
  | .unorderedMap key value, old, r =>
      deserializeUnorderedMap depth (get K depth key key.fresh) (get K depth value value.fresh)
        (K.hashed key) old r

end Reader
end Iostreams
