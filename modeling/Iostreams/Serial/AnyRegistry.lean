import Iostreams.Foundation.FiniteMap
import Iostreams.Serial.Wire

/-!
# The registry of `std::any`

A value of any type is written as a flag, the stable name of its type and what the
type's serializer writes.  `any_registry` finds the serializer, the deserializer and
the name in four maps, and `register_type` updates all four or, when the name is
taken, none.

`Coherent` is what every history of registrations keeps: the three maps over types
have the same keys, and the name of a type leads back to it.  A type that is named
again keeps its old name in the map of names, so the converse fails.
-/

namespace Iostreams

open Foundation

/-- A `std::any` over the types `τ`. -/
abbrev AnyValue {τ : Type} (V : τ → Type) : Type := Option (Σ type, V type)

/-- `any_registry::any_serialize` -/
abbrev AnySerialize {τ : Type} (V : τ → Type) (β : Type) : Type :=
  AnyValue V → Serial β → Except Halt (Serial β)

/-- `any_registry::any_deserialize`; the `std::any` is passed and returned. -/
abbrev AnyDeserialize {τ : Type} (V : τ → Type) (β γ : Type) : Type :=
  AnyValue V → Reader β γ → Except Halt (AnyValue V × Reader β γ)

/-- The four maps. -/
structure AnyRegistry {τ : Type} (V : τ → Type) (β γ : Type) where
  serializers : Finmap fun _ : τ => AnySerialize V β
  deserializers : Finmap fun _ : τ => AnyDeserialize V β γ
  typeToStableName : Finmap fun _ : τ => List UInt8
  stableNameToType : Finmap fun _ : List UInt8 => τ

/-- The arguments of a `register_type` call. -/
structure Registration {τ : Type} (V : τ → Type) (β γ : Type) where
  type : τ
  stableName : List UInt8
  serFunc : AnySerialize V β
  deserFunc : AnyDeserialize V β γ

namespace AnyRegistry

variable {τ : Type} [DecidableEq τ] {V : τ → Type} {β γ : Type}

/-- The maps before any registration. -/
def empty : AnyRegistry V β γ := ⟨∅, ∅, ∅, ∅⟩

/-- `map.emplace(key, item)` -/
def emplace {κ ν : Type} [DecidableEq κ] (m : Finmap fun _ : κ => ν) (key : κ) (item : ν) :
    Finmap fun _ : κ => ν :=
  if key ∈ m then m else m.insert key item

def registerType (registry : AnyRegistry V β γ) (call : Registration V β γ) :
    AnyRegistry V β γ :=
  if call.stableName ∈ registry.stableNameToType then
    registry
  else
    { serializers := registry.serializers.insert call.type call.serFunc
      deserializers := registry.deserializers.insert call.type call.deserFunc
      typeToStableName := registry.typeToStableName.insert call.type call.stableName
      stableNameToType := emplace registry.stableNameToType call.stableName call.type }

/-- A history of registrations. -/
def registerAll (registry : AnyRegistry V β γ) (history : List (Registration V β γ)) :
    AnyRegistry V β γ :=
  history.foldl registerType registry

section Transfer

variable [Streambuf β] [Streambuf γ]

/-- `serialize(Serial&, const std::any&)` -/
def serialize (depth : Nat) (registry : AnyRegistry V β γ) (any : AnyValue V) (s : Serial β) :
    Except Halt (Serial β) :=
  match any with
  | none => Serial.putBool depth false s
  | some ⟨type, _⟩ =>
      match registry.serializers.lookup type with
      | none => Serial.putBool depth false s
      | some serFunc =>
          match registry.typeToStableName.lookup type with
          | none => Serial.putBool depth false s
          | some stableName => do
              let s ← Serial.putBool depth true s
              let s ← Serial.serializeString depth stableName s
              serFunc any s

/-- The characters of a byte string. -/
def textOf (str : List UInt8) : String := String.ofList (str.map fun c => Char.ofNat c.toNat)

/-- `deserialize(Serial&, std::any&)` once the name is read. -/
def dispatch (registry : AnyRegistry V β γ) (any : AnyValue V) (stableName : List UInt8)
    (r : Reader β γ) : Except Halt (AnyValue V × Reader β γ) :=
  match registry.stableNameToType.lookup stableName with
  | none => .error (.exception ("no stable_name type found by: " ++ textOf stableName))
  | some type =>
      match registry.deserializers.lookup type with
      | none => .error (.exception ("no deserializer found for type: " ++ textOf stableName))
      | some deserFunc => deserFunc any r

/-- `deserialize(Serial&, std::any&)` -/
def deserialize (depth : Nat) (registry : AnyRegistry V β γ) (any : AnyValue V)
    (r : Reader β γ) : Except Halt (AnyValue V × Reader β γ) := do
  let (readBit, r) ← r.getBool depth
  if r.serial.lastDidNotReadWholeSize then
    .ok (any, r)
  else if !readBit then
    .ok (any, r)
  else do
    let (stableName, r) ← r.deserializeString depth []
    if r.serial.lastDidNotReadWholeSize then
      .ok (any, r)
    else
      registry.dispatch any stableName r

end Transfer

/-! ## Coherence -/

/-- The cross-map invariant. -/
structure Coherent (registry : AnyRegistry V β γ) : Prop where
  serializer_iff : ∀ type, type ∈ registry.serializers ↔ type ∈ registry.deserializers
  name_iff : ∀ type, type ∈ registry.serializers ↔ type ∈ registry.typeToStableName
  named : ∀ type stableName, registry.typeToStableName.lookup type = some stableName →
    registry.stableNameToType.lookup stableName = some type
  registered : ∀ stableName type, registry.stableNameToType.lookup stableName = some type →
    type ∈ registry.deserializers

theorem coherent_empty : (empty : AnyRegistry V β γ).Coherent where
  serializer_iff type := by simp [empty, Finmap.notMem_empty]
  name_iff type := by simp [empty, Finmap.notMem_empty]
  named type stableName hname := by simp [empty] at hname
  registered stableName type htype := by simp [empty] at htype

theorem registerType_taken {registry : AnyRegistry V β γ} {call : Registration V β γ}
    (htaken : call.stableName ∈ registry.stableNameToType) :
    registry.registerType call = registry := if_pos htaken

/-- With a free name all four maps are updated. -/
theorem registerType_free {registry : AnyRegistry V β γ} {call : Registration V β γ}
    (hfree : call.stableName ∉ registry.stableNameToType) :
    registry.registerType call =
      { serializers := registry.serializers.insert call.type call.serFunc
        deserializers := registry.deserializers.insert call.type call.deserFunc
        typeToStableName := registry.typeToStableName.insert call.type call.stableName
        stableNameToType := registry.stableNameToType.insert call.stableName call.type } := by
  rw [registerType, if_neg hfree, emplace, if_neg hfree]

theorem Coherent.registerType {registry : AnyRegistry V β γ} (hcoherent : registry.Coherent)
    (call : Registration V β γ) : (registry.registerType call).Coherent := by
  by_cases hname : call.stableName ∈ registry.stableNameToType
  · rw [registerType_taken hname]
    exact hcoherent
  · rw [registerType_free hname]
    refine ⟨fun type => ?_, fun type => ?_, fun type stableName hlookup => ?_,
      fun stableName type hlookup => ?_⟩
    · simp only [Finmap.mem_insert, hcoherent.serializer_iff type]
    · simp only [Finmap.mem_insert, hcoherent.name_iff type]
    · rcases lookup_insert_eq_some.mp hlookup with ⟨rfl, rfl⟩ | ⟨-, hlookup⟩
      · exact Finmap.lookup_insert _
      · have hold := hcoherent.named type stableName hlookup
        -- the name of another type is not free
        have hne : stableName ≠ call.stableName := by
          rintro rfl
          exact hname (Finmap.lookup_isSome.mp (by rw [hold]; rfl))
        rw [Finmap.lookup_insert_of_ne _ hne]
        exact hold
    · rw [Finmap.mem_insert]
      rcases lookup_insert_eq_some.mp hlookup with ⟨-, htype⟩ | ⟨-, hlookup⟩
      · exact Or.inl htype
      · exact Or.inr (hcoherent.registered stableName type hlookup)

/-- Every history of registrations keeps the maps coherent. -/
theorem Coherent.registerAll {registry : AnyRegistry V β γ} (hcoherent : registry.Coherent)
    (history : List (Registration V β γ)) : (registry.registerAll history).Coherent := by
  induction history generalizing registry with
  | nil => exact hcoherent
  | cons call rest ih => exact ih (hcoherent.registerType call)

/-! ## Further registrations -/

/-- A name that is bound stays bound to its type. -/
theorem lookup_name_registerType {registry : AnyRegistry V β γ} {stableName : List UInt8}
    {type : τ} (hlookup : registry.stableNameToType.lookup stableName = some type)
    (call : Registration V β γ) :
    (registry.registerType call).stableNameToType.lookup stableName = some type := by
  by_cases hname : call.stableName ∈ registry.stableNameToType
  · rw [registerType_taken hname]
    exact hlookup
  · have hne : stableName ≠ call.stableName := by
      rintro rfl
      exact hname (Finmap.lookup_isSome.mp (by rw [hlookup]; rfl))
    rw [registerType_free hname]
    exact (Finmap.lookup_insert_of_ne _ hne).trans hlookup

/-- Registrations of other types leave a type's deserializer alone. -/
theorem lookup_deserializer_registerType {registry : AnyRegistry V β γ} {type : τ}
    {call : Registration V β γ} (hother : call.type ≠ type) :
    (registry.registerType call).deserializers.lookup type =
      registry.deserializers.lookup type := by
  by_cases hname : call.stableName ∈ registry.stableNameToType
  · rw [registerType_taken hname]
  · rw [registerType_free hname]
    exact Finmap.lookup_insert_of_ne _ hother.symm

/-- What decoding a type under a name rests on survives registrations of other types. -/
theorem lookups_registerAll {registry : AnyRegistry V β γ} {stableName : List UInt8} {type : τ}
    {deserFunc : AnyDeserialize V β γ}
    (hname : registry.stableNameToType.lookup stableName = some type)
    (hdeser : registry.deserializers.lookup type = some deserFunc)
    (more : List (Registration V β γ)) (hother : ∀ call ∈ more, call.type ≠ type) :
    (registry.registerAll more).stableNameToType.lookup stableName = some type ∧
      (registry.registerAll more).deserializers.lookup type = some deserFunc := by
  induction more generalizing registry with
  | nil => exact ⟨hname, hdeser⟩
  | cons call rest ih =>
      refine ih (lookup_name_registerType hname call) ?_
        (fun later hlater => hother later (List.mem_cons_of_mem _ hlater))
      rw [lookup_deserializer_registerType (hother call List.mem_cons_self)]
      exact hdeser

/-! ## Dispatch -/

/-- A pair of functions writes a value as `code` and reads it back from there. -/
def RoundTripsAs {ι : Type} (wire : Wire β γ ι) (serFunc : AnySerialize V β)
    (deserFunc : AnyDeserialize V β γ) (any : AnyValue V) (code : List ι) : Prop :=
  wire.Puts (serFunc any) code ∧ ∀ target, wire.Gets (deserFunc target) code any

variable [Streambuf β] [Streambuf γ]

omit [Streambuf γ] in
theorem serialize_eq {registry : AnyRegistry V β γ} {type : τ} {serFunc : AnySerialize V β}
    {stableName : List UInt8} (hser : registry.serializers.lookup type = some serFunc)
    (hname : registry.typeToStableName.lookup type = some stableName) (depth : Nat)
    (item : V type) :
    registry.serialize depth (some ⟨type, item⟩) = fun s => Serial.putBool depth true s >>=
      fun s => Serial.serializeString depth stableName s >>= serFunc (some ⟨type, item⟩) := by
  funext s
  simp only [serialize, hser, hname]

/-- Where flags and names are read back, a type whose pair round-trips behind them does so in a
`std::any`: the name leads to the deserializer of the pair. -/
theorem roundTripsAs_any {ι : Type} {wire named bare : Wire β γ ι} {depth : Nat}
    (hheads : wire.Heads named bare depth) {writer : AnyRegistry V β γ}
    (hcoherent : writer.Coherent) {type : τ} {serFunc : AnySerialize V β}
    {deserFunc : AnyDeserialize V β γ} {stableName : List UInt8}
    (hser : writer.serializers.lookup type = some serFunc)
    (hdeser : writer.deserializers.lookup type = some deserFunc)
    (hname : writer.typeToStableName.lookup type = some stableName)
    {more : List (Registration V β γ)} (hother : ∀ call ∈ more, call.type ≠ type) {item : V type}
    {code : List ι} (hpair : RoundTripsAs bare serFunc deserFunc (some ⟨type, item⟩) code) :
    RoundTripsAs wire (writer.serialize depth) ((writer.registerAll more).deserialize depth)
      (some ⟨type, item⟩) (wire.flag true ++ (wire.string stableName ++ code)) := by
  obtain ⟨hback, hstill⟩ :=
    lookups_registerAll (hcoherent.named type stableName hname) hdeser more hother
  obtain ⟨hputs, hgets⟩ := hpair
  refine ⟨?_, fun target => ?_⟩
  · rw [serialize_eq hser hname]
    exact hheads.after_flag.puts_append hheads.puts_flag
      ((hheads.after_name stableName).puts_append (hheads.puts_string stableName) hputs)
  · -- behind the name the deserializer of the type is found
    have hdispatch : bare.Gets (fun r => if r.serial.lastDidNotReadWholeSize then .ok (target, r)
        else (writer.registerAll more).dispatch target stableName r) code
        (some ⟨type, item⟩) := by
      intro r hbefore
      have hflag := hheads.noMismatch_bare hbefore
      simp only [hflag, Bool.false_eq_true, if_false, dispatch, hback, hstill]
      exact hgets target r hbefore
    have hstring : named.Gets (fun r => r.deserializeString depth [] >>= fun p =>
        if p.2.serial.lastDidNotReadWholeSize then .ok (target, p.2)
        else (writer.registerAll more).dispatch target p.1 p.2)
        (wire.string stableName ++ code) (some ⟨type, item⟩) :=
      (hheads.after_name stableName).gets_append (hheads.gets_string stableName) hdispatch
    apply hheads.after_flag.gets_append hheads.gets_flag
    intro r hbefore
    have hflag := hheads.noMismatch_named hbefore
    simp only [hflag, Bool.false_eq_true, if_false, Bool.not_true]
    exact hstring r hbefore

end AnyRegistry
end Iostreams
