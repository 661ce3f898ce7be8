import Iostreams.Foundation.ReadProgram
import Iostreams.Serial.Channel

/-!
# The requests behind `operator>>`

On a plain stream `operator>>` is a program that asks the stream buffer for blocks: a boolean is a
block of one byte, a trivially copyable value one of its size, and a string and a container begin
with a block of eight bytes.  `InputProgram.get` is this program.

`Follows` says that a reader obtains from a pipe what a program computes on the bytes the pipe
holds, whatever they are; `get_follows` is the induction on the type.  On the wire format of a
value the program computes the target with the value merged into it (`run_get`).
-/

namespace Iostreams

open Foundation

variable {T : ScalarTypes}

namespace InputProgram

/-- The next byte, not zero -/
def getBool : ReadProgram UInt8 Bool := .read 1 fun bytes => .done (bytes.headD 0 != 0)

def getBytes (size : Nat) : ReadProgram UInt8 (List UInt8) := .read size .done

def getSize : ReadProgram UInt8 Nat := (getBytes 8).bind fun bytes => .done (leValue bytes)

def deserializeString : ReadProgram UInt8 (List UInt8) := getSize.bind getBytes

section Elements

variable {α σ κ ν : Type}

def getEach (get : ReadProgram UInt8 α) (insert : σ → α → σ) : Nat → σ → ReadProgram UInt8 σ
  | 0, target => .done target
  | count + 1, target => get.bind fun item => getEach get insert count (insert target item)

def deserializeElements (get : ReadProgram UInt8 α) (insert : σ → α → σ) (target : σ) :
    ReadProgram UInt8 σ :=
  getSize.bind fun size => getEach get insert size target

def deserializeVector (get : ReadProgram UInt8 α) (st : List α) : ReadProgram UInt8 (List α) :=
  deserializeElements get (fun st v => st ++ [v]) st

def getBinding (getKey : ReadProgram UInt8 κ) (getValue : ReadProgram UInt8 ν) :
    ReadProgram UInt8 (κ × ν) :=
  getKey.bind fun key => getValue.bind fun value => .done (key, value)

end Elements

/-- `serial >> v` at each type -/
def get (K : Keys T) : (t : Ty T) → t.Value → ReadProgram UInt8 t.Value
  | .bool, _ => getBool
  | .scalar name, old => (getBytes old.val.length).bind fun bytes =>
      .done (Reader.asObject (T.sizeof name) bytes)
  | .string, _ => deserializeString
  | .vector element, old => deserializeVector (get K element element.fresh) old
  | .set element, old =>
      deserializeElements (get K element element.fresh) (insertKey (K.ordered element)) old
  | .unorderedSet element, old =>
      deserializeElements (get K element element.fresh) (insertKey (K.hashed element)) old
  | .map key value, old =>
      deserializeElements (getBinding (get K key key.fresh) (get K value value.fresh))
        (assignKey (K.ordered key)) old
  | .unorderedMap key value, old =>
      deserializeElements (getBinding (get K key key.fresh) (get K value value.fresh))
        (assignKey (K.hashed key)) old

/-- `serial >> t₁ >> t₂ …` -/
def getAll {K : Keys T} : List (Entry K) → ReadProgram UInt8 (List (Σ t : Ty T, t.Value))
  | [] => .done []
  | entry :: rest => (get K entry.ty entry.target).bind fun value =>
      (getAll rest).bind fun values => .done (⟨entry.ty, value⟩ :: values)

end InputProgram

/-! ## A reader on a pipe -/

section Follows

variable {β γ : Type} [Pipe β] {α α' σ : Type}

/-- From a pipe the reader obtains what the program computes, and leaves what it leaves. -/
def Follows (get : Reader β γ → Except Halt (α × Reader β γ)) (program : ReadProgram UInt8 α) :
    Prop :=
  ∀ (s : Serial β) (bytes rest : List UInt8) (room : Nat) (result : α), s.Channel bytes room →
    program.run bytes = some (result, rest) →
    ∃ s' room', get ⟨s, none⟩ = .ok (result, ⟨s', none⟩) ∧ s'.Channel rest room'

namespace Follows

theorem done (result : α) :
    Follows (fun r : Reader β γ => .ok (result, r)) (.done result) := by
  intro s bytes rest room result hchannel hrun
  cases hrun
  exact ⟨s, room, rfl, hchannel⟩

theorem bind {first : Reader β γ → Except Halt (α × Reader β γ)}
    {second : α × Reader β γ → Except Halt (α' × Reader β γ)} {program : ReadProgram UInt8 α}
    {next : α → ReadProgram UInt8 α'} (hfirst : Follows first program)
    (hsecond : ∀ item, Follows (fun r => second (item, r)) (next item)) :
    Follows (fun r => first r >>= second) (program.bind next) := by
  intro s bytes rest room result hchannel hrun
  rw [ReadProgram.run_bind, Option.bind_eq_some_iff] at hrun
  obtain ⟨⟨item, left⟩, hrunFirst, hrunSecond⟩ := hrun
  obtain ⟨s₁, room₁, hget₁, hchannel₁⟩ := hfirst _ _ _ _ _ hchannel hrunFirst
  obtain ⟨s₂, room₂, hget₂, hchannel₂⟩ := hsecond item _ _ _ _ _ hchannel₁ hrunSecond
  exact ⟨s₂, room₂, by simp only [hget₁, ok_bind, hget₂], hchannel₂⟩

variable [Streambuf γ]

omit [Streambuf γ] in
/-- A block that is obtained lies in the pipe. -/
theorem size_lt {s : Serial β} {bytes result rest : List UInt8} {room size : Nat}
    (hchannel : s.Channel bytes room)
    (hrun : (InputProgram.getBytes size).run bytes = some (result, rest)) : size < 2 ^ 63 := by
  have hlength := hchannel.length_lt
  rw [InputProgram.getBytes, ReadProgram.run] at hrun
  split at hrun
  · omega
  · cases hrun

/-- A block of the size of its destination. -/
theorem getBytes (depth : Nat) {old : List UInt8} {size : Nat} (hsize : old.length = size) :
    Follows (Reader.getBytes (depth + 1) old : Reader β γ → _) (InputProgram.getBytes size) := by
  intro s bytes rest room result hchannel hrun
  rw [InputProgram.getBytes, ReadProgram.run] at hrun
  split at hrun
  · next hle =>
      cases hrun
      have hlength : (bytes.take size).length = size := by
        rw [List.length_take]
        omega
      have hfront : s.Channel (bytes.take size ++ bytes.drop size) room := by
        rw [List.take_append_drop]
        exact hchannel
      obtain ⟨s', hread, htaken⟩ := hfront.readBytes depth old
      rw [hlength] at hread
      refine ⟨s', _, ?_, htaken _ _ hfront s'.currentReadByte s'.bitsReadReadByte⟩
      simp only [Reader.getBytes, Reader.readInto, hsize, hread, ok_bind]
      rw [overwrite_all (hlength.trans hsize.symm)]
  · cases hrun

theorem getSize (depth old : Nat) :
    Follows (Reader.getSize (depth + 1) old : Reader β γ → _) InputProgram.getSize :=
  (Follows.getBytes depth (leBytes_length 8 old)).bind fun bytes => .done (leValue bytes)

omit [Streambuf γ] in
theorem getBool (depth : Nat) :
    Follows (Reader.getBool (depth + 2) : Reader β γ → _) InputProgram.getBool := by
  intro s bytes rest room result hchannel hrun
  rw [InputProgram.getBool, ReadProgram.run] at hrun
  split at hrun
  · next hle =>
      cases hrun
      obtain ⟨byte, bytes, rfl⟩ := List.length_pos_iff_exists_cons.mp hle
      obtain ⟨io, hmode, -, -⟩ := hchannel.stream
      have hplain : s.bitStream = false := hmode.plain
      have hfront : s.Channel ([byte] ++ bytes) room := hchannel
      obtain ⟨s', hread, htaken⟩ := hfront.readBytes depth [s.currentReadByte]
      have hdest : overwrite [s.currentReadByte] 0 [byte] = [byte] := overwrite_all rfl
      rw [hdest, List.length_singleton] at hread
      refine ⟨s'.refilled [byte], _, ?_, htaken _ _ hfront byte 0⟩
      simp [Reader.getBool, Serial.readByte, hplain, hread, Serial.refilled]
  · cases hrun

/-- The length was read in full, so that the bytes are asked for. -/
theorem deserializeString (depth : Nat) (old : List UInt8) :
    Follows (Reader.deserializeString (depth + 1) old : Reader β γ → _)
      InputProgram.deserializeString := by
  refine (Follows.getSize depth old.length).bind ?_
  intro size s bytes rest room result hchannel hrun
  have hresized : (Reader.resize old size).length = size := by
    simp [Reader.resize]
    omega
  have hbody : Follows (Reader.getBytes (depth + 1) (Reader.resize old size) : Reader β γ → _) _ :=
    .getBytes depth hresized
  obtain ⟨s', room', hread, hleft⟩ := hbody _ _ _ _ _ hchannel hrun
  rw [Reader.getBytes, hresized] at hread
  have hflag : s.lastDidNotReadWholeSize = false := hchannel.noMismatch
  refine ⟨s', room', ?_, hleft⟩
  simp only [hflag, Bool.false_eq_true, if_false, hread,
    Reader.StringAllocation.resize_objects old.length (size_lt hchannel hrun)]

omit [Streambuf γ] in
theorem getEach {get : Reader β γ → Except Halt (α × Reader β γ)} {program : ReadProgram UInt8 α}
    (hget : Follows get program) (insert : σ → α → σ) (count : Nat) (target : σ) :
    Follows (Reader.getEach get insert count target)
      (InputProgram.getEach program insert count target) := by
  induction count generalizing target with
  | zero => exact .done target
  | succ count ih => exact hget.bind fun item => ih (insert target item)

theorem deserializeElements {get : Reader β γ → Except Halt (α × Reader β γ)}
    {program : ReadProgram UInt8 α} (depth : Nat) (hget : Follows get program)
    (insert : σ → α → σ) (target : σ) :
    Follows (Reader.deserializeElements (depth + 1) get insert target)
      (InputProgram.deserializeElements program insert target) :=
  (Follows.getSize depth 0).bind fun size => hget.getEach insert size target

omit [Streambuf γ] in
theorem getBinding {κ ν : Type} {getKey : Reader β γ → Except Halt (κ × Reader β γ)}
    {getValue : Reader β γ → Except Halt (ν × Reader β γ)} {keyProgram : ReadProgram UInt8 κ}
    {valueProgram : ReadProgram UInt8 ν} (hkey : Follows getKey keyProgram)
    (hvalue : Follows getValue valueProgram) :
    Follows (Reader.getBinding getKey getValue)
      (InputProgram.getBinding keyProgram valueProgram) :=
  hkey.bind fun key => hvalue.bind fun value => .done (key, value)

end Follows

/-- `>>` of any type follows its program. -/
theorem get_follows [Streambuf γ] (K : Keys T) (depth : Nat) (t : Ty T) (old : t.Value) :
    Follows (Reader.get K (depth + 2) t old : Reader β γ → _) (InputProgram.get K t old) := by
  induction t with
  | bool => exact .getBool depth
  | scalar name =>
      exact (Follows.getBytes (depth + 1) rfl).bind fun bytes =>
        .done (Reader.asObject (T.sizeof name) bytes)
  | string => exact .deserializeString (depth + 1) old
  | vector element ih => exact .deserializeElements (depth + 1) (ih element.fresh) _ old
  | set element ih => exact .deserializeElements (depth + 1) (ih element.fresh) _ old
  | unorderedSet element ih => exact .deserializeElements (depth + 1) (ih element.fresh) _ old
  | map key value ihKey ihValue =>
      exact .deserializeElements (depth + 1) ((ihKey key.fresh).getBinding (ihValue value.fresh)) _
        old
  | unorderedMap key value ihKey ihValue =>
      exact .deserializeElements (depth + 1) ((ihKey key.fresh).getBinding (ihValue value.fresh)) _
        old

theorem getAll_follows [Streambuf γ] {K : Keys T} (depth : Nat) (entries : List (Entry K)) :
    Follows (Entry.getAll (depth + 2) entries : Reader β γ → _) (InputProgram.getAll entries) := by
  induction entries with
  | nil => exact .done []
  | cons entry rest ih =>
      exact (get_follows K depth entry.ty entry.target).bind fun value =>
        ih.bind fun values => .done (⟨entry.ty, value⟩ :: values)

end Follows

/-! ## The wire format -/

section Computes

variable {α α' σ : Type}

/-- On the code of an item the program computes the item, and leaves what comes behind. -/
def Computes (program : ReadProgram UInt8 α) (code : List UInt8) (item : α) : Prop :=
  ∀ rest, program.run (code ++ rest) = some (item, rest)

namespace Computes

theorem done (result : α) : Computes (.done result) [] result := fun _ => rfl

theorem bind {program : ReadProgram UInt8 α} {next : α → ReadProgram UInt8 α'}
    {front back : List UInt8} {item : α} {item' : α'} (hfirst : Computes program front item)
    (hsecond : Computes (next item) back item') :
    Computes (program.bind next) (front ++ back) item' := by
  intro rest
  rw [List.append_assoc, ReadProgram.run_bind_of_run (hfirst _), hsecond]

/-- The last step only looks at what was computed. -/
theorem map {program : ReadProgram UInt8 α} {code : List UInt8} {item : α}
    (hprogram : Computes program code item) (f : α → α') :
    Computes (program.bind fun item => .done (f item)) code (f item) := by
  have hbind : Computes (program.bind fun item => .done (f item)) (code ++ []) (f item) :=
    hprogram.bind (.done (f item))
  rw [List.append_nil] at hbind
  exact hbind

theorem of_eq {program : ReadProgram UInt8 α} {code : List UInt8} {item item' : α}
    (hprogram : Computes program code item) (heq : item = item') : Computes program code item' :=
  heq ▸ hprogram

theorem getBytes (bytes : List UInt8) : Computes (InputProgram.getBytes bytes.length) bytes bytes :=
  fun _ => ReadProgram.run_read_append _ _ _

theorem getBool (flag : Bool) : Computes InputProgram.getBool (Ty.encodeBool flag) flag := by
  intro rest
  cases flag <;> rfl

theorem getSize {size : Nat} (hsize : size < 2 ^ 64) :
    Computes InputProgram.getSize (leBytes 8 size) size := by
  have hbytes := Computes.getBytes (leBytes 8 size)
  rw [leBytes_length] at hbytes
  exact (hbytes.map leValue).of_eq (leValue_leBytes hsize)

theorem deserializeString {str : List UInt8} (hsize : str.length < 2 ^ 64) :
    Computes InputProgram.deserializeString (Ty.encodeString str) str :=
  (Computes.getSize hsize).bind (.getBytes str)

section Elements

variable {ι : Type} {program : ReadProgram UInt8 α} {encode : ι → List UInt8} {content : ι → α}

theorem getEach (hprogram : ∀ item, (encode item).length < 2 ^ 64 →
      Computes program (encode item) (content item)) (insert : σ → α → σ) (items : List ι)
    (target : σ) (hsize : (items.flatMap encode).length < 2 ^ 64) :
    Computes (InputProgram.getEach program insert items.length target) (items.flatMap encode)
      ((items.map content).foldl insert target) := by
  induction items generalizing target with
  | nil => exact .done target
  | cons item rest ih =>
      rw [List.flatMap_cons, List.length_append] at hsize
      exact (hprogram item (by omega)).bind (ih (insert target (content item)) (by omega))

theorem deserializeElements (hprogram : ∀ item, (encode item).length < 2 ^ 64 →
      Computes program (encode item) (content item))
    (hencode : ∀ item, 0 < (encode item).length) (insert : σ → α → σ) (items : List ι)
    (target : σ) (hsize : (Ty.encodeElements encode items).length < 2 ^ 64) :
    Computes (InputProgram.deserializeElements program insert target)
      (Ty.encodeElements encode items) ((items.map content).foldl insert target) := by
  rw [Ty.encodeElements, List.length_append] at hsize
  have hcount := length_le_flatMap_length hencode items
  exact (Computes.getSize (by omega)).bind (.getEach hprogram insert items target (by omega))

end Elements

theorem getBinding {κ ν : Type} {keyProgram : ReadProgram UInt8 κ}
    {valueProgram : ReadProgram UInt8 ν} {keyCode valueCode : List UInt8} {key : κ} {value : ν}
    (hkey : Computes keyProgram keyCode key) (hvalue : Computes valueProgram valueCode value) :
    Computes (InputProgram.getBinding keyProgram valueProgram) (keyCode ++ valueCode)
      (key, value) :=
  hkey.bind (hvalue.map (Prod.mk key))

end Computes

/-- A binding is computed into fresh objects. -/
theorem run_binding {K : Keys T} {key element : Ty T} {k : (key.layout K).Stored}
    {v : (element.layout K).Stored}
    (hkey : (key.encode K k).length < 2 ^ 64 → Computes (InputProgram.get K key key.fresh)
      (key.encode K k) (key.merge K key.fresh ((key.layout K).content k)))
    (helement : (element.encode K v).length < 2 ^ 64 →
      Computes (InputProgram.get K element element.fresh) (element.encode K v)
        (element.merge K element.fresh ((element.layout K).content v)))
    (hsize : (key.encode K k ++ element.encode K v).length < 2 ^ 64) :
    Computes (InputProgram.getBinding (InputProgram.get K key key.fresh)
        (InputProgram.get K element element.fresh)) (key.encode K k ++ element.encode K v)
      ((key.layout K).content k, (element.layout K).content v) := by
  rw [List.length_append] at hsize
  exact ((hkey (by omega)).of_eq (Ty.merge_fresh K key _)).getBinding
    ((helement (by omega)).of_eq (Ty.merge_fresh K element _))

/-- The program of a type computes on the wire format of a value the target with the value merged
into it. -/
theorem run_get (K : Keys T) (t : Ty T) (old : t.Value) (value : (t.layout K).Stored)
    (hsize : (t.encode K value).length < 2 ^ 64) :
    Computes (InputProgram.get K t old) (t.encode K value)
      (t.merge K old ((t.layout K).content value)) := by
  -- a container computes its elements from fresh objects
  induction t with
  | bool => exact .getBool value
  | scalar name =>
      have hbytes := Computes.getBytes value.val
      rw [value.property.trans old.property.symm] at hbytes
      exact (hbytes.map (Reader.asObject (T.sizeof name))).of_eq (Reader.asObject_eq value)
  | string =>
      have hlength := Ty.encodeString_length value
      simp only [Ty.encode] at hsize
      exact .deserializeString (by omega)
  | vector element ih =>
      have helement := fun item hitem =>
        (ih element.fresh item hitem).of_eq (Ty.merge_fresh K element _)
      exact (Computes.deserializeElements helement (Ty.encode_length_pos K element)
        (fun st v => st ++ [v]) value old hsize).of_eq (foldl_pushBack old _)
  | set element ih =>
      have helement := fun item hitem =>
        (ih element.fresh item hitem).of_eq (Ty.merge_fresh K element _)
      exact (Computes.deserializeElements helement (Ty.encode_length_pos K element)
        (insertKey (K.ordered element)) value.val old hsize).of_eq
        (foldl_insertKey (K.ordered element) value.property old)
  | unorderedSet element ih =>
      have helement := fun item hitem =>
        (ih element.fresh item hitem).of_eq (Ty.merge_fresh K element _)
      exact (Computes.deserializeElements helement (Ty.encode_length_pos K element)
        (insertKey (K.hashed element)) value.val old hsize).of_eq
        (foldl_insertKey (K.hashed element) value.property old)
  | map key element ihKey ihElement =>
      have hbinding := fun (item : (key.layout K).Stored × (element.layout K).Stored) hitem =>
        run_binding (ihKey key.fresh item.1) (ihElement element.fresh item.2) hitem
      exact (Computes.deserializeElements hbinding
        (fun item => Ty.binding_length_pos K key element item) (assignKey (K.ordered key))
        value.val old hsize).of_eq (foldl_assignKey (K.ordered key) value.property old)
  | unorderedMap key element ihKey ihElement =>
      have hbinding := fun (item : (key.layout K).Stored × (element.layout K).Stored) hitem =>
        run_binding (ihKey key.fresh item.1) (ihElement element.fresh item.2) hitem
      exact (Computes.deserializeElements hbinding
        (fun item => Ty.binding_length_pos K key element item) (assignKey (K.hashed key))
        value.val old hsize).of_eq (foldl_assignKey (K.hashed key) value.property old)

/-- The programs of a sequence of values, one after another. -/
theorem run_getAll {K : Keys T} (entries : List (Entry K))
    (hsize : (Entry.encodeAll entries).length < 2 ^ 64) :
    Computes (InputProgram.getAll entries) (Entry.encodeAll entries)
      (entries.map Entry.merged) := by
  induction entries with
  | nil => exact .done []
  | cons entry rest ih =>
      have hcons : Entry.encodeAll (entry :: rest) = entry.encode ++ Entry.encodeAll rest := rfl
      rw [hcons, List.length_append] at hsize
      have hvalue := run_get K entry.ty entry.target entry.value
        (show entry.encode.length < 2 ^ 64 by omega)
      have hlater := (ih (by omega)).map (List.cons entry.merged)
      exact hvalue.bind hlater

end Computes
end Iostreams
