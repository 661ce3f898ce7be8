import Iostreams.Serial.BufferMode

/-!
# Round trip of nested values

`Ty.encode` is the wire format: a boolean is one byte, a trivially copyable
value its object representation, a string and every container an eight-byte
length followed by the bytes, the elements or the bindings.  `Ty.merge` is what
reading a value into a target does to the target: scalars and strings are
replaced, a vector is appended to, a set is united with, a map is overridden.

Both directions go by induction on the type.  The writer's induction shows that
`put` stores exactly the wire format (`put_wrote`); the reader's shows that
`get`, placed before the wire format of a value, consumes exactly that and
merges the content into the target (`get_consumed`).  The element loops are
treated once, for any element reader that has the property already.
-/

namespace Iostreams

open Foundation Serial

variable {T : ScalarTypes} {β γ : Type}

namespace Ty

/-- A length followed by the encodings of the elements. -/
def encodeElements {α : Type} (encode : α → List UInt8) (items : List α) : List UInt8 :=
  leBytes 8 items.length ++ items.flatMap encode

/-- One byte, zero or one. -/
def encodeBool (value : Bool) : List UInt8 := [UInt8.ofNat value.toNat]

/-- A length followed by the bytes. -/
def encodeString (str : List UInt8) : List UInt8 := leBytes 8 str.length ++ str

theorem encodeString_length (str : List UInt8) : (encodeString str).length = 8 + str.length := by
  simp [encodeString]

/-- The wire format. -/
def encode (K : Keys T) : (t : Ty T) → (t.layout K).Stored → List UInt8
  | .bool, value => encodeBool value
  | .scalar _, value => value.val
  | .string, str => encodeString str
  | .vector element, st => encodeElements (encode K element) st
  | .set element, st => encodeElements (encode K element) st.val
  | .unorderedSet element, st => encodeElements (encode K element) st.val
  | .map key value, kv =>
      encodeElements (fun item => encode K key item.1 ++ encode K value item.2) kv.val
  | .unorderedMap key value, kv =>
      encodeElements (fun item => encode K key item.1 ++ encode K value item.2) kv.val

/-- The target after a value was read into it. -/
def merge (K : Keys T) : (t : Ty T) → (old new : t.Value) → t.Value
  | .bool, _, new => new
  | .scalar _, _, new => new
  | .string, _, new => new
  | .vector _, old, new => List.append old new
  | .set element, old, new => unionKeys (K.ordered element) old new
  | .unorderedSet element, old, new => unionKeys (K.hashed element) old new
  | .map key _, old, new => overrideKeys (K.ordered key) old new
  | .unorderedMap key _, old, new => overrideKeys (K.hashed key) old new

/-- Reading into a fresh target yields the value itself. -/
theorem merge_fresh (K : Keys T) (t : Ty T) (new : t.Value) : t.merge K t.fresh new = new := by
  cases t with
  | bool => rfl
  | scalar name => rfl
  | string => rfl
  | vector element => rfl
  | set element => exact unionKeys_empty _ new
  | unorderedSet element => exact unionKeys_empty _ new
  | map key value => exact overrideKeys_empty _ new
  | unorderedMap key value => exact overrideKeys_empty _ new

/-- No encoding is empty. -/
theorem encode_length_pos (K : Keys T) (t : Ty T) (value : (t.layout K).Stored) :
    0 < (t.encode K value).length := by
  cases t with
  | bool => exact Nat.zero_lt_one
  | scalar name =>
      have hlength : value.val.length = T.sizeof name := value.property
      have hpos := T.sizeof_pos name
      simp only [encode]
      omega
  | string =>
      have hlength := encodeString_length value
      simp only [encode]
      omega
  | _ => simp [encode, encodeElements]

theorem binding_length_pos (K : Keys T) (key value : Ty T)
    (item : (key.layout K).Stored × (value.layout K).Stored) :
    0 < (key.encode K item.1 ++ value.encode K item.2).length := by
  have hkey := encode_length_pos K key item.1
  rw [List.length_append]
  omega

end Ty

/-! ## Element loops -/

theorem foldl_pushBack {α : Type} (old items : List α) :
    items.foldl (fun st v => st ++ [v]) old = old ++ items := by
  induction items generalizing old with
  | nil => simp
  | cons item rest ih => rw [List.foldl_cons, ih, List.append_assoc, List.singleton_append]

/-- At least one byte for each element bounds the number of elements. -/
theorem length_le_flatMap_length {α : Type} {encode : α → List UInt8}
    (hencode : ∀ item, 0 < (encode item).length) (items : List α) :
    items.length ≤ (items.flatMap encode).length := by
  induction items with
  | nil => rfl
  | cons item rest ih =>
      have hitem := hencode item
      simp only [List.flatMap_cons, List.length_append, List.length_cons]
      omega

section Writing

/-- An element writer that stores the wire format `encode` on a buffer. -/
def StoresAs {α : Type} (put : α → Serial β → Except Halt (Serial β))
    (encode : α → List UInt8) : Prop :=
  ∀ item s, s.BufferMode → s.bitStream = false → s.Room (encode item).length →
    ∃ s', put item s = .ok s' ∧ Wrote s (encode item) s'

theorem writeEach_wrote {α : Type} {put : α → Serial β → Except Halt (Serial β)}
    {encode : α → List UInt8} (hput : StoresAs put encode) (items : List α) (s : Serial β)
    (hmode : s.BufferMode) (hplain : s.bitStream = false)
    (hroom : s.Room (items.flatMap encode).length) :
    ∃ s', writeEach (fun s item => put item s) items s = .ok s' ∧
      Wrote s (items.flatMap encode) s' := by
  induction items generalizing s with
  | nil => exact ⟨s, rfl, Wrote.nil s⟩
  | cons item rest ih =>
      rw [List.flatMap_cons, List.length_append] at hroom
      obtain ⟨s₁, hfirst, hwrote⟩ := hput item s hmode hplain (hroom.mono (by omega))
      obtain ⟨s₂, hrest, hwroteRest⟩ := ih s₁ (hwrote.bufferMode hmode)
        (hwrote.bitStream.trans hplain) (hwrote.room hroom)
      refine ⟨s₂, ?_, hwrote.append hroom hwroteRest⟩
      rw [writeEach, hfirst, ok_bind, hrest]

theorem putBinding_storesAs {κ ν : Type} {putKey : κ → Serial β → Except Halt (Serial β)}
    {putValue : ν → Serial β → Except Halt (Serial β)} {encodeKey : κ → List UInt8}
    {encodeValue : ν → List UInt8} (hkey : StoresAs putKey encodeKey)
    (hvalue : StoresAs putValue encodeValue) :
    StoresAs (putBinding putKey putValue)
      (fun item => encodeKey item.1 ++ encodeValue item.2) := by
  intro item s hmode hplain hroom
  rw [List.length_append] at hroom
  obtain ⟨s₁, hputKey, hwroteKey⟩ := hkey item.1 s hmode hplain (hroom.mono (by omega))
  obtain ⟨s₂, hputValue, hwroteValue⟩ := hvalue item.2 s₁ (hwroteKey.bufferMode hmode)
    (hwroteKey.bitStream.trans hplain) (hwroteKey.room hroom)
  refine ⟨s₂, ?_, hwroteKey.append hroom hwroteValue⟩
  rw [putBinding, hputKey, ok_bind, hputValue]

variable [Streambuf β]

theorem putBytes_wrote (depth : Nat) {s : Serial β} (hmode : s.BufferMode)
    {value : List UInt8} (hroom : s.Room value.length) :
    putBytes (depth + 1) value s = .ok (s.stored value) := by
  simp [putBytes, writeBytes_buffer hmode value hroom]

theorem putBool_storesAs (depth : Nat) :
    StoresAs (putBool (depth + 2) : Bool → Serial β → _) Ty.encodeBool := by
  intro value s hmode hplain hroom
  refine ⟨{ s.stored (Ty.encodeBool value) with
    currentWriteByte := 0, bitsWrittenWriteByte := 0 }, ?_, 0, 0, rfl⟩
  have hwrite := writeBytes_buffer hmode _ hroom depth
  unfold Ty.encodeBool at hwrite ⊢
  simp [putBool, hplain, writeByte, hwrite]

/-- The length and the characters are blocks, wherever the output accumulator stands. -/
theorem serializeString_buffer (depth : Nat) {s : Serial β} (hmode : s.BufferMode)
    {str : List UInt8} (hroom : s.Room (Ty.encodeString str).length) :
    serializeString (depth + 1) str s = .ok (s.stored (Ty.encodeString str)) := by
  rw [Ty.encodeString, List.length_append] at hroom
  have hsize := Wrote.stored s (leBytes 8 str.length)
  rw [serializeString, putSize, putBytes_wrote depth hmode (hroom.mono (by omega)), ok_bind,
    putBytes_wrote depth (hsize.bufferMode hmode) (hsize.room hroom), stored_stored hroom]
  rfl

theorem serializeString_storesAs (depth : Nat) :
    StoresAs (serializeString (depth + 1) : List UInt8 → Serial β → _) Ty.encodeString := by
  intro str s hmode _ hroom
  exact ⟨_, serializeString_buffer depth hmode hroom, Wrote.stored s (Ty.encodeString str)⟩

theorem serializeElements_storesAs {α : Type} (depth : Nat)
    {put : α → Serial β → Except Halt (Serial β)} {encode : α → List UInt8}
    (hput : StoresAs put encode) :
    StoresAs (serializeElements (depth + 1) put) (Ty.encodeElements encode) := by
  intro items s hmode hplain hroom
  rw [Ty.encodeElements, List.length_append] at hroom
  have hsize := Wrote.stored s (leBytes 8 items.length)
  obtain ⟨s', heach, hwrote⟩ := writeEach_wrote hput items _ (hsize.bufferMode hmode)
    (hsize.bitStream.trans hplain) (hsize.room hroom)
  refine ⟨s', ?_, hsize.append hroom hwrote⟩
  rw [serializeElements, putSize, putBytes_wrote depth hmode (hroom.mono (by omega)), ok_bind,
    heach]

/-- Writing a value of any type stores its wire format. -/
theorem put_wrote (K : Keys T) (depth : Nat) (t : Ty T) :
    StoresAs (put K (depth + 2) t : _ → Serial β → _) (t.encode K) := by
  induction t with
  | bool => exact putBool_storesAs depth
  | scalar name =>
      intro value s hmode _ hroom
      exact ⟨_, putBytes_wrote (depth + 1) hmode hroom, Wrote.stored s _⟩
  | string => exact serializeString_storesAs (depth + 1)
  | vector element ih => exact serializeElements_storesAs (depth + 1) ih
  | set element ih =>
      exact fun items (s : Serial β) => serializeElements_storesAs (depth + 1) ih items.val s
  | unorderedSet element ih =>
      exact fun items (s : Serial β) => serializeElements_storesAs (depth + 1) ih items.val s
  | map key value ihKey ihValue =>
      exact fun items (s : Serial β) =>
        serializeElements_storesAs (depth + 1) (putBinding_storesAs ihKey ihValue) items.val s
  | unorderedMap key value ihKey ihValue =>
      exact fun items (s : Serial β) =>
        serializeElements_storesAs (depth + 1) (putBinding_storesAs ihKey ihValue) items.val s

end Writing

section Reading

/-- An element reader that, placed before the wire format of an item on a
buffer, consumes it and yields the item's content. -/
def RestoresAs {ι α : Type} (get : Reader β γ → Except Halt (α × Reader β γ))
    (encode : ι → List UInt8) (content : ι → α) : Prop :=
  ∀ item (s : Serial β), s.BufferMode → s.bitStream = false → s.Holds (encode item) →
    ∃ s', get ⟨s, none⟩ = .ok (content item, ⟨s', none⟩) ∧ Consumed s (encode item) s'

/-- The same reader, seen from items that carry more than it looks at. -/
theorem RestoresAs.comap {ι ι' α : Type} {get : Reader β γ → Except Halt (α × Reader β γ)}
    {encode : ι → List UInt8} {content : ι → α} (hget : RestoresAs get encode content)
    (view : ι' → ι) {content' : ι' → α} (hcontent : ∀ item, content (view item) = content' item) :
    RestoresAs get (fun item => encode (view item)) content' := by
  intro item s hmode hplain hholds
  rw [← hcontent item]
  exact hget (view item) s hmode hplain hholds

theorem getEach_consumed {ι α σ : Type} {get : Reader β γ → Except Halt (α × Reader β γ)}
    {encode : ι → List UInt8} {content : ι → α} (hget : RestoresAs get encode content)
    (insert : σ → α → σ) (items : List ι) (target : σ) (s : Serial β) (hmode : s.BufferMode)
    (hplain : s.bitStream = false) (hholds : s.Holds (items.flatMap encode)) :
    ∃ s', Reader.getEach get insert items.length target ⟨s, none⟩ =
        .ok ((items.map content).foldl insert target, ⟨s', none⟩) ∧
      Consumed s (items.flatMap encode) s' := by
  induction items generalizing target s with
  | nil => exact ⟨s, rfl, Consumed.nil s⟩
  | cons item rest ih =>
      rw [List.flatMap_cons] at hholds
      obtain ⟨s₁, hfirst, hconsumed⟩ := hget item s hmode hplain hholds.left
      obtain ⟨s₂, hrest, hconsumedRest⟩ := ih (insert target (content item)) s₁
        (hconsumed.bufferMode hmode) (hconsumed.bitStream.trans hplain) (hconsumed.holds hholds)
      refine ⟨s₂, ?_, hconsumed.append hconsumedRest⟩
      simp only [List.length_cons, Reader.getEach, hfirst, ok_bind, hrest, List.map_cons,
        List.foldl_cons]

theorem getBinding_restoresAs {ι κ ν ρ : Type}
    {getKey : Reader β γ → Except Halt (κ × Reader β γ)}
    {getValue : Reader β γ → Except Halt (ν × Reader β γ)} {encodeKey : ι → List UInt8}
    {encodeValue : ρ → List UInt8} {key : ι → κ} {value : ρ → ν}
    (hkey : RestoresAs getKey encodeKey key) (hvalue : RestoresAs getValue encodeValue value) :
    RestoresAs (Reader.getBinding getKey getValue)
      (fun item : ι × ρ => encodeKey item.1 ++ encodeValue item.2)
      (fun item => (key item.1, value item.2)) := by
  intro item s hmode hplain hholds
  obtain ⟨s₁, hgetKey, hconsumedKey⟩ := hkey item.1 s hmode hplain hholds.left
  obtain ⟨s₂, hgetValue, hconsumedValue⟩ := hvalue item.2 s₁ (hconsumedKey.bufferMode hmode)
    (hconsumedKey.bitStream.trans hplain) (hconsumedKey.holds hholds)
  refine ⟨s₂, ?_, hconsumedKey.append hconsumedValue⟩
  simp only [Reader.getBinding, hgetKey, ok_bind, hgetValue]

variable [Streambuf β] [Streambuf γ]

/-- Bytes of the same number replace the old representation. -/
theorem getBytes_buffer (depth : Nat) {s : Serial β} (hmode : s.BufferMode)
    {bytes old : List UInt8} (hlength : old.length = bytes.length) (hholds : s.Holds bytes) :
    Reader.getBytes (depth + 1) old (⟨s, none⟩ : Reader β γ) =
      .ok (bytes, ⟨s.advanced bytes.length, none⟩) := by
  simp only [Reader.getBytes, Reader.readInto, hlength, readBytes_buffer hmode hholds, ok_bind]
  rw [overwrite_all hlength.symm]

theorem getSize_buffer (depth old : Nat) {s : Serial β} (hmode : s.BufferMode) {size : Nat}
    (hsize : size < 2 ^ 64) (hholds : s.Holds (leBytes 8 size)) :
    Reader.getSize (depth + 1) old (⟨s, none⟩ : Reader β γ) =
      .ok (size, ⟨s.advanced (leBytes 8 size).length, none⟩) := by
  simp only [Reader.getSize, getBytes_buffer depth hmode (leBytes_length_eq 8 old size) hholds,
    ok_bind, leValue_leBytes (show size < 256 ^ 8 by omega)]

omit [Streambuf γ] in
theorem getBool_restoresAs (depth : Nat) :
    RestoresAs (Reader.getBool (depth + 2) : Reader β γ → _) Ty.encodeBool id := by
  intro value s hmode hplain hholds
  have hread := readBytes_buffer hmode hholds depth [s.currentReadByte]
  have hvalue : (UInt8.ofNat value.toNat != 0) = value := by cases value <;> rfl
  have hdest : overwrite [s.currentReadByte] 0 (Ty.encodeBool value) = Ty.encodeBool value :=
    overwrite_all rfl
  rw [hdest] at hread
  simp only [Ty.encodeBool, List.length_singleton] at hread ⊢
  refine ⟨(s.advanced 1).refilled [UInt8.ofNat value.toNat], ?_, UInt8.ofNat value.toNat, 0, rfl⟩
  simp [Reader.getBool, hplain, readByte, hread, refilled, hvalue]

/-- Likewise wherever the current byte of the reader stands. -/
theorem deserializeString_buffer (depth : Nat) (old : List UInt8) {s : Serial β}
    (hmode : s.BufferMode) {str : List UInt8} (hholds : s.Holds (Ty.encodeString str)) :
    Reader.deserializeString (depth + 1) old (⟨s, none⟩ : Reader β γ) =
      .ok (str, ⟨s.advanced (Ty.encodeString str).length, none⟩) := by
  unfold Ty.encodeString at hholds
  have hlength := Consumed.advanced s (leBytes 8 str.length)
  have hfits : str.length < 2 ^ 63 := by
    have hlast := (hlength.holds hholds).2.1
    have hsize := hmode.size_lt
    have hindex := (hlength.holds hholds).1
    simp only [Serial.advanced] at hlast hindex
    omega
  have hflag : (s.advanced (leBytes 8 str.length).length).lastDidNotReadWholeSize = false :=
    hmode.noLastMismatch
  rw [Reader.deserializeString_sized old
    (getSize_buffer depth old.length hmode (by omega) hholds.left) hflag hfits]
  simp only [Reader.readInto, readBytes_buffer (hlength.bufferMode hmode) (hlength.holds hholds),
    ok_bind]
  rw [overwrite_all (by simp [Reader.resize]; omega)]
  simp [Serial.advanced, Ty.encodeString, add_assoc]

theorem deserializeString_restoresAs (depth : Nat) (old : List UInt8) :
    RestoresAs (Reader.deserializeString (depth + 1) old : Reader β γ → _)
      Ty.encodeString id := by
  intro str s hmode _ hholds
  exact ⟨_, deserializeString_buffer depth old hmode hholds,
    Consumed.advanced s (Ty.encodeString str)⟩

theorem deserializeElements_consumed {ι α σ : Type} (depth : Nat)
    {get : Reader β γ → Except Halt (α × Reader β γ)} {encode : ι → List UInt8}
    {content : ι → α} (hget : RestoresAs get encode content)
    (hencode : ∀ item, 0 < (encode item).length) (insert : σ → α → σ) (target : σ) :
    RestoresAs (Reader.deserializeElements (depth + 1) get insert target)
      (Ty.encodeElements encode) (fun items => (items.map content).foldl insert target) := by
  intro items s hmode hplain hholds
  unfold Ty.encodeElements at hholds
  have hlength := Consumed.advanced s (leBytes 8 items.length)
  have hfits : items.length < 2 ^ 64 := by
    have hcount := length_le_flatMap_length hencode items
    have hlast := (hlength.holds hholds).2.1
    have hsize := hmode.size_lt
    have hindex := (hlength.holds hholds).1
    simp only [Serial.advanced] at hlast hindex
    omega
  obtain ⟨s', heach, hconsumed⟩ := getEach_consumed hget insert items target _
    (hlength.bufferMode hmode) (hlength.bitStream.trans hplain) (hlength.holds hholds)
  refine ⟨s', ?_, hlength.append hconsumed⟩
  simp only [Reader.deserializeElements, getSize_buffer depth 0 hmode hfits hholds.left, ok_bind,
    heach]

/-- Reading a value of any type into a target consumes its wire format and
merges its content into the target. -/
theorem get_consumed (K : Keys T) (depth : Nat) (t : Ty T) (old : t.Value) :
    RestoresAs (Reader.get K (depth + 2) t old : Reader β γ → _) (t.encode K)
      (fun value => t.merge K old ((t.layout K).content value)) := by
  -- by induction on the type; a container restores its elements into fresh objects
  induction t with
  | bool => exact getBool_restoresAs depth
  | scalar name =>
      intro value s hmode _ hholds
      refine ⟨_, ?_, Consumed.advanced s value.val⟩
      have hlength : old.val.length = value.val.length :=
        old.property.trans value.property.symm
      have hobject : Reader.asObject (T.sizeof name) value.val = value :=
        Reader.asObject_eq value
      have hget := getBytes_buffer (γ := γ) (depth + 1) hmode hlength hholds
      simp only [Reader.get, hget, ok_bind, hobject]
      rfl
  | string => exact deserializeString_restoresAs (depth + 1) old
  | vector element ih =>
      have helement := (ih element.fresh).comap id fun value => Ty.merge_fresh K element _
      exact (deserializeElements_consumed (depth + 1) helement (Ty.encode_length_pos K element)
        (fun st v => st ++ [v]) old).comap id fun items => foldl_pushBack old _
  | set element ih =>
      have helement := (ih element.fresh).comap id fun value => Ty.merge_fresh K element _
      exact (deserializeElements_consumed (depth + 1) helement (Ty.encode_length_pos K element)
        (insertKey (K.ordered element)) old).comap Subtype.val fun items =>
          foldl_insertKey (K.ordered element) items.property old
  | unorderedSet element ih =>
      have helement := (ih element.fresh).comap id fun value => Ty.merge_fresh K element _
      exact (deserializeElements_consumed (depth + 1) helement (Ty.encode_length_pos K element)
        (insertKey (K.hashed element)) old).comap Subtype.val fun items =>
          foldl_insertKey (K.hashed element) items.property old
  | map key value ihKey ihValue =>
      have hkey := (ihKey key.fresh).comap id fun item => Ty.merge_fresh K key _
      have hvalue := (ihValue value.fresh).comap id fun item => Ty.merge_fresh K value _
      exact (deserializeElements_consumed (depth + 1) (getBinding_restoresAs hkey hvalue)
        (fun item => Ty.binding_length_pos K key value item)
        (assignKey (K.ordered key)) old).comap Subtype.val fun items =>
          foldl_assignKey (K.ordered key) items.property old
  | unorderedMap key value ihKey ihValue =>
      have hkey := (ihKey key.fresh).comap id fun item => Ty.merge_fresh K key _
      have hvalue := (ihValue value.fresh).comap id fun item => Ty.merge_fresh K value _
      exact (deserializeElements_consumed (depth + 1) (getBinding_restoresAs hkey hvalue)
        (fun item => Ty.binding_length_pos K key value item)
        (assignKey (K.hashed key)) old).comap Subtype.val fun items =>
          foldl_assignKey (K.hashed key) items.property old

end Reading

/-! ## Sequences of values -/

/-- A value to write, and the target it will be read into. -/
structure Entry (K : Keys T) where
  ty : Ty T
  value : (ty.layout K).Stored
  target : ty.Value

namespace Entry

variable {K : Keys T}

def encode (entry : Entry K) : List UInt8 := entry.ty.encode K entry.value

/-- The target after the value was read into it. -/
def merged (entry : Entry K) : Σ t : Ty T, t.Value :=
  ⟨entry.ty, entry.ty.merge K entry.target ((entry.ty.layout K).content entry.value)⟩

/-- The bytes of a sequence of values written back to back. -/
def encodeAll (entries : List (Entry K)) : List UInt8 := entries.flatMap encode

/-- `serial << v₁ << v₂ …` -/
def putAll [Streambuf β] (depth : Nat) (entries : List (Entry K)) (s : Serial β) :
    Except Halt (Serial β) :=
  writeEach (fun s entry => Serial.put K depth entry.ty entry.value s) entries s

/-- `serial >> t₁ >> t₂ …` -/
def getAll [Streambuf β] [Streambuf γ] (depth : Nat) :
    List (Entry K) → Reader β γ → Except Halt (List (Σ t : Ty T, t.Value) × Reader β γ)
  | [], r => .ok ([], r)
  | entry :: rest, r => do
      let (value, r) ← Reader.get K depth entry.ty entry.target r
      let (values, r) ← getAll depth rest r
      .ok (⟨entry.ty, value⟩ :: values, r)

theorem putAll_wrote [Streambuf β] (depth : Nat) (entries : List (Entry K)) {s : Serial β}
    (hmode : s.BufferMode) (hplain : s.bitStream = false)
    (hroom : s.Room (encodeAll entries).length) :
    ∃ s', putAll (depth + 2) entries s = .ok s' ∧ Wrote s (encodeAll entries) s' :=
  writeEach_wrote (fun entry s => put_wrote K depth entry.ty entry.value s) entries s hmode
    hplain hroom

theorem getAll_consumed [Streambuf β] [Streambuf γ] (depth : Nat) (entries : List (Entry K))
    {r : Serial β} (hmode : r.BufferMode) (hplain : r.bitStream = false)
    (hholds : r.Holds (encodeAll entries)) :
    ∃ r', getAll (depth + 2) entries (⟨r, none⟩ : Reader β γ) =
        .ok (entries.map merged, ⟨r', none⟩) ∧
      Consumed r (encodeAll entries) r' := by
  induction entries generalizing r with
  | nil => exact ⟨r, rfl, Consumed.nil r⟩
  | cons entry rest ih =>
      have hcons : encodeAll (entry :: rest) = entry.encode ++ encodeAll rest := rfl
      rw [hcons] at hholds ⊢
      obtain ⟨r₁, hget, hconsumed⟩ := get_consumed (γ := γ) K depth entry.ty entry.target
        entry.value r hmode hplain hholds.left
      obtain ⟨r₂, hrest, hconsumedRest⟩ := ih (hconsumed.bufferMode hmode)
        (hconsumed.bitStream.trans hplain) (hconsumed.holds hholds)
      refine ⟨r₂, ?_, hconsumed.append hconsumedRest⟩
      simp only [getAll, hget, ok_bind, hrest, List.map_cons]
      rfl

end Entry

/-- **Round trip.**  Values of any types written back to back into a buffer
that has room for their encodings can be read back in order, from the position
where the first was written, by any `Serial` whose buffer holds the written
bytes there, whatever else it holds.  Reading consumes exactly the bytes
written and leaves every target merged with the content of its value. -/
theorem values_roundTrip [Streambuf β] [Streambuf γ] (K : Keys T) (depth : Nat)
    (entries : List (Entry K)) (s : Serial β) (hmode : s.BufferMode)
    (hplain : s.bitStream = false) (hroom : s.Room (Entry.encodeAll entries).length) :
    ∃ s', Entry.putAll (depth + 2) entries s = .ok s' ∧
      s'.bufferWriteIndex = s.bufferWriteIndex + (Entry.encodeAll entries).length ∧
      ∀ r : Serial β, r.BufferMode → r.bitStream = false →
        r.bufferReadIndex = s.bufferWriteIndex →
        s'.bufferWriteIndex ≤ r.bufferPointer.length →
        slice r.bufferPointer s.bufferWriteIndex.toNat (Entry.encodeAll entries).length =
          slice s'.bufferPointer s.bufferWriteIndex.toNat (Entry.encodeAll entries).length →
        ∃ r', Entry.getAll (depth + 2) entries (⟨r, none⟩ : Reader β γ) =
            .ok (entries.map Entry.merged, ⟨r', none⟩) ∧
          r'.bufferReadIndex = s'.bufferWriteIndex := by
  obtain ⟨s', hput, hwrote⟩ := Entry.putAll_wrote depth entries hmode hplain hroom
  refine ⟨s', hput, hwrote.bufferWriteIndex, ?_⟩
  intro r hmodeReader hplainReader hposition hfits hregion
  have hholds : r.Holds (Entry.encodeAll entries) := by
    refine ⟨?_, ?_, ?_⟩
    · rw [hposition]
      exact hroom.1
    · rw [hposition, ← hwrote.bufferWriteIndex]
      exact hfits
    · rw [hposition, hregion]
      exact hwrote.slice_eq hroom
  obtain ⟨r', hget, hconsumed⟩ :=
    Entry.getAll_consumed (γ := γ) depth entries hmodeReader hplainReader hholds
  refine ⟨r', hget, ?_⟩
  rw [hconsumed.bufferReadIndex, hposition, hwrote.bufferWriteIndex]

/-- A program with no trivially copyable types but single bytes. -/
def byteScalars : ScalarTypes where
  Name := Unit
  sizeof _ := 1
  sizeof_pos _ := Nat.one_pos
  sizeof_lt _ := by norm_num
  indeterminate _ := ⟨[0], rfl⟩

/-- Two strings appended to a vector and a binding that overrides another. -/
def sampleEntries : List (Entry (Keys.equality byteScalars)) :=
  [⟨.vector .string, ([[104, 105], []] : List (List UInt8)), ([[1]] : List (List UInt8))⟩,
    ⟨.map .bool .bool, ⟨([(true, false)] : List (Bool × Bool)), by decide⟩,
      ({(true, true)} : Multiset (Bool × Bool))⟩]

/-- The round trip of `sampleEntries` through a block of 64 bytes. -/
theorem values_roundTrip_sample :
    ∃ s', Entry.putAll 2 sampleEntries
        (ofBuffer (List.replicate 64 0) false : Serial Stringbuf) = .ok s' ∧
      s'.bufferWriteIndex = 0 + (Entry.encodeAll sampleEntries).length ∧
      ∀ r : Serial Stringbuf, r.BufferMode → r.bitStream = false → r.bufferReadIndex = 0 →
        s'.bufferWriteIndex ≤ r.bufferPointer.length →
        slice r.bufferPointer 0 (Entry.encodeAll sampleEntries).length =
          slice s'.bufferPointer 0 (Entry.encodeAll sampleEntries).length →
        ∃ r', Entry.getAll 2 sampleEntries (⟨r, none⟩ : Reader Stringbuf Stringbuf) =
            .ok (sampleEntries.map Entry.merged, ⟨r', none⟩) ∧
          r'.bufferReadIndex = s'.bufferWriteIndex :=
  values_roundTrip (Keys.equality byteScalars) 0 sampleEntries
    (ofBuffer (List.replicate 64 0) false) (bufferMode_ofBuffer (by decide) false) rfl
    ⟨by decide, by decide⟩

end Iostreams
