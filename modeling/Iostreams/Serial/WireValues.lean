import Iostreams.Serial.Wire

/-!
# Values on a wire of bytes

A wire on which blocks and booleans are read back as they were written carries values of every
type (`puts_value`, `gets_value`), and lists of them.  Both directions go by induction on the type,
with the loops over the elements of a container treated once for any element.
-/

namespace Iostreams

open Foundation Serial

namespace Wire

variable {T : ScalarTypes} {β γ : Type} [Streambuf β] [Streambuf γ]

/-- Blocks and booleans are read back as they were written. -/
structure Blocks (wire : Wire β γ UInt8) (depth : Nat) : Prop extends wire.Lawful where
  wrote_nil : ∀ {s}, wire.Ready s [] → wire.Wrote s [] s
  consumed_nil : ∀ {r}, wire.Before r [] → wire.Consumed r [] r
  length_lt : ∀ {r code}, wire.Before r code → code.length < 2 ^ 63
  puts_flag : ∀ flag, wire.Puts (putBool depth flag) (Ty.encodeBool flag)
  gets_flag : ∀ flag, wire.Gets (Reader.getBool depth) (Ty.encodeBool flag) flag
  puts_block : ∀ bytes, wire.Puts (putBytes depth bytes) bytes
  gets_block : ∀ {old bytes}, old.length = bytes.length →
    wire.Gets (Reader.getBytes depth old) bytes bytes

namespace Blocks

variable {wire : Wire β γ UInt8} {depth : Nat}

/-! ## Writing -/

theorem puts_each (hwire : wire.Blocks depth) {α : Type}
    {put : α → Serial β → Except Halt (Serial β)} {encode : α → List UInt8}
    (hput : ∀ item, wire.Puts (put item) (encode item)) (items : List α) :
    wire.Puts (writeEach (fun s item => put item s) items) (items.flatMap encode) := by
  induction items with
  | nil => exact fun s hready => ⟨s, rfl, hwire.wrote_nil hready⟩
  | cons item rest ih => exact hwire.puts_append (hput item) ih

theorem puts_elements (hwire : wire.Blocks depth) {α : Type}
    {put : α → Serial β → Except Halt (Serial β)} {encode : α → List UInt8}
    (hput : ∀ item, wire.Puts (put item) (encode item)) (items : List α) :
    wire.Puts (serializeElements depth put items) (Ty.encodeElements encode items) :=
  hwire.puts_append (hwire.puts_block _) (hwire.puts_each hput items)

/-- Writing a value of any type puts its wire format on the wire. -/
theorem puts_value (hwire : wire.Blocks depth) (K : Keys T) (t : Ty T)
    (value : (t.layout K).Stored) : wire.Puts (put K depth t value) (t.encode K value) := by
  induction t with
  | bool => exact hwire.puts_flag value
  | scalar name => exact hwire.puts_block value.val
  | string => exact hwire.puts_append (hwire.puts_block _) (hwire.puts_block value)
  | vector element ih => exact hwire.puts_elements ih value
  | set element ih => exact hwire.puts_elements ih value.val
  | unorderedSet element ih => exact hwire.puts_elements ih value.val
  | map key element ihKey ihElement =>
      exact hwire.puts_elements
        (fun item => hwire.puts_append (ihKey item.1) (ihElement item.2)) value.val
  | unorderedMap key element ihKey ihElement =>
      exact hwire.puts_elements
        (fun item => hwire.puts_append (ihKey item.1) (ihElement item.2)) value.val

/-! ## Reading -/

omit [Streambuf β] [Streambuf γ] in
theorem gets_map {α α' : Type} {get : Reader β γ → Except Halt (α × Reader β γ)}
    {code : List UInt8} {item : α} (hget : wire.Gets get code item) (f : α → α') :
    wire.Gets (fun r => get r >>= fun (item, r) => .ok (f item, r)) code (f item) := by
  intro r hbefore
  obtain ⟨r', hread, hconsumed⟩ := hget r hbefore
  exact ⟨r', by simp only [hread, ok_bind], hconsumed⟩

omit [Streambuf β] [Streambuf γ] in
/-- The same item, written in another way. -/
theorem gets_of_eq {α : Type} {get : Reader β γ → Except Halt (α × Reader β γ)}
    {code : List UInt8} {item item' : α} (hget : wire.Gets get code item) (heq : item = item') :
    wire.Gets get code item' :=
  heq ▸ hget

theorem gets_size (hwire : wire.Blocks depth) (old : Nat) {size : Nat} (hsize : size < 2 ^ 64) :
    wire.Gets (Reader.getSize depth old) (leBytes 8 size) size := by
  have hget := gets_map (hwire.gets_block (leBytes_length_eq 8 old size)) leValue
  rw [leValue_leBytes (show size < 256 ^ 8 by omega)] at hget
  exact hget

theorem gets_string (hwire : wire.Blocks depth) (old str : List UInt8) :
    wire.Gets (Reader.deserializeString depth old) (Ty.encodeString str) str := by
  intro r hbefore
  have hlength := hwire.length_lt hbefore
  rw [Ty.encodeString_length] at hlength
  rw [Reader.deserializeString, Reader.deserializeStringWith]
  refine hwire.gets_append (hwire.gets_size old.length (by omega)) ?_ r hbefore
  -- the length was read in full, so that the block follows
  intro r hbefore
  have hresized : (Reader.resize old str.length).length = str.length := by
    simp [Reader.resize]
    omega
  obtain ⟨r', hread, hconsumed⟩ := hwire.gets_block hresized r hbefore
  rw [Reader.getBytes, hresized] at hread
  refine ⟨r', ?_, hconsumed⟩
  simp only [hwire.noMismatch hbefore, Bool.false_eq_true, if_false, hread,
    Reader.StringAllocation.resize_objects old.length (show str.length < 2 ^ 63 by omega)]

theorem gets_each (hwire : wire.Blocks depth) {ι α σ : Type}
    {get : Reader β γ → Except Halt (α × Reader β γ)} {encode : ι → List UInt8} {content : ι → α}
    (hget : ∀ item, wire.Gets get (encode item) (content item)) (insert : σ → α → σ)
    (items : List ι) (target : σ) :
    wire.Gets (Reader.getEach get insert items.length target) (items.flatMap encode)
      ((items.map content).foldl insert target) := by
  induction items generalizing target with
  | nil => exact fun r hbefore => ⟨r, rfl, hwire.consumed_nil hbefore⟩
  | cons item rest ih => exact hwire.gets_append (hget item) (ih (insert target (content item)))

theorem gets_elements (hwire : wire.Blocks depth) {ι α σ : Type}
    {get : Reader β γ → Except Halt (α × Reader β γ)} {encode : ι → List UInt8} {content : ι → α}
    (hget : ∀ item, wire.Gets get (encode item) (content item))
    (hencode : ∀ item, 0 < (encode item).length) (insert : σ → α → σ) (items : List ι)
    (target : σ) :
    wire.Gets (Reader.deserializeElements depth get insert target)
      (Ty.encodeElements encode items) ((items.map content).foldl insert target) := by
  intro r hbefore
  have hlength := hwire.length_lt hbefore
  rw [Ty.encodeElements, List.length_append] at hlength
  have hcount := length_le_flatMap_length hencode items
  exact hwire.gets_append (hwire.gets_size 0 (by omega))
    (hwire.gets_each hget insert items target) r hbefore

theorem gets_binding (hwire : wire.Blocks depth) {κ ν : Type}
    {getKey : Reader β γ → Except Halt (κ × Reader β γ)}
    {getValue : Reader β γ → Except Halt (ν × Reader β γ)} {keyCode valueCode : List UInt8}
    {key : κ} {value : ν} (hkey : wire.Gets getKey keyCode key)
    (hvalue : wire.Gets getValue valueCode value) :
    wire.Gets (Reader.getBinding getKey getValue) (keyCode ++ valueCode) (key, value) :=
  hwire.gets_append hkey (gets_map hvalue (Prod.mk key))

/-- Reading a value of any type takes its wire format off the wire and merges its content into
the target. -/
theorem gets_value (hwire : wire.Blocks depth) (K : Keys T) (t : Ty T) (old : t.Value)
    (value : (t.layout K).Stored) :
    wire.Gets (Reader.get K depth t old) (t.encode K value)
      (t.merge K old ((t.layout K).content value)) := by
  -- a container restores its elements into fresh objects
  induction t with
  | bool => exact hwire.gets_flag value
  | scalar name =>
      exact gets_of_eq (gets_map (hwire.gets_block (old.property.trans value.property.symm))
        (Reader.asObject (T.sizeof name))) (Reader.asObject_eq value)
  | string => exact hwire.gets_string old value
  | vector element ih =>
      have helement := fun item => gets_of_eq (ih element.fresh item) (Ty.merge_fresh K element _)
      exact gets_of_eq (hwire.gets_elements helement (Ty.encode_length_pos K element)
        (fun st v => st ++ [v]) value old) (foldl_pushBack old _)
  | set element ih =>
      have helement := fun item => gets_of_eq (ih element.fresh item) (Ty.merge_fresh K element _)
      exact gets_of_eq (hwire.gets_elements helement (Ty.encode_length_pos K element)
        (insertKey (K.ordered element)) value.val old)
        (foldl_insertKey (K.ordered element) value.property old)
  | unorderedSet element ih =>
      have helement := fun item => gets_of_eq (ih element.fresh item) (Ty.merge_fresh K element _)
      exact gets_of_eq (hwire.gets_elements helement (Ty.encode_length_pos K element)
        (insertKey (K.hashed element)) value.val old)
        (foldl_insertKey (K.hashed element) value.property old)
  | map key element ihKey ihElement =>
      have hkey := fun item => gets_of_eq (ihKey key.fresh item) (Ty.merge_fresh K key _)
      have helement := fun item =>
        gets_of_eq (ihElement element.fresh item) (Ty.merge_fresh K element _)
      have hbinding := fun item : (key.layout K).Stored × (element.layout K).Stored =>
        hwire.gets_binding (hkey item.1) (helement item.2)
      exact gets_of_eq (hwire.gets_elements hbinding
        (fun item => Ty.binding_length_pos K key element item) (assignKey (K.ordered key))
        value.val old) (foldl_assignKey (K.ordered key) value.property old)
  | unorderedMap key element ihKey ihElement =>
      have hkey := fun item => gets_of_eq (ihKey key.fresh item) (Ty.merge_fresh K key _)
      have helement := fun item =>
        gets_of_eq (ihElement element.fresh item) (Ty.merge_fresh K element _)
      have hbinding := fun item : (key.layout K).Stored × (element.layout K).Stored =>
        hwire.gets_binding (hkey item.1) (helement item.2)
      exact gets_of_eq (hwire.gets_elements hbinding
        (fun item => Ty.binding_length_pos K key element item) (assignKey (K.hashed key))
        value.val old) (foldl_assignKey (K.hashed key) value.property old)

end Blocks
end Wire
end Iostreams
