import Mathlib.Algebra.BigOperators.Group.List.Basic
import Mathlib.Algebra.Ring.Nat
import Mathlib.Tactic.Common

/-!
# JSON text

The grammar of RFC 8259: `Json.Text text value` says that a text denotes a value.  Texts and
strings are sequences of code points, a number is kept as its text.

An object of strings takes at least the room of its names and values, with two quotation marks for
each string, a colon for each member and the commas between them.  `Text.object_tight` says that a
text of exactly this size has nothing to spare for an escape sequence.
-/

namespace Iostreams
namespace Foundation

inductive Json where
  | null
  | bool (value : Bool)
  | number (text : List Nat)
  | string (text : List Nat)
  | array (elements : List Json)
  | object (members : List (List Nat × Json))

namespace Json

/-! ## The grammar -/

/-- Space, tab, line feed and carriage return. -/
def Blank (text : List Nat) : Prop := ∀ c ∈ text, c = 32 ∨ c = 9 ∨ c = 10 ∨ c = 13

/-- A character that stands for itself in a string: neither a control character nor a quotation
mark nor a backslash. -/
def Unescaped (c : Nat) : Prop := 0x20 ≤ c ∧ c ≠ 0x22 ∧ c ≠ 0x5c ∧ c ≤ 0x10ffff

/-- What a character behind a backslash stands for. -/
def escaped (c : Nat) : Option Nat :=
  match c with
  | 34 => some 34
  | 92 => some 92
  | 47 => some 47
  | 98 => some 8
  | 102 => some 12
  | 110 => some 10
  | 114 => some 13
  | 116 => some 9
  | _ => none

def hexDigit (c : Nat) : Option Nat :=
  if 48 ≤ c ∧ c ≤ 57 then some (c - 48)
  else if 65 ≤ c ∧ c ≤ 70 then some (c - 55)
  else if 97 ≤ c ∧ c ≤ 102 then some (c - 87)
  else none

/-- The code unit of four hexadecimal digits. -/
def codeUnit (digits : List Nat) : Option Nat :=
  if digits.length = 4 then
    digits.foldlM (fun value c => (hexDigit c).map (16 * value + ·)) 0
  else none

def HighSurrogate (unit : Nat) : Prop := 0xd800 ≤ unit ∧ unit < 0xdc00

def LowSurrogate (unit : Nat) : Prop := 0xdc00 ≤ unit ∧ unit < 0xe000

/-- What stands between the quotation marks of a string. -/
inductive Chars : List Nat → List Nat → Prop
  | nil : Chars [] []
  | unescaped {c : Nat} {raw text : List Nat} (hchar : Unescaped c) (hrest : Chars raw text) :
      Chars (c :: raw) (c :: text)
  | escape {e c : Nat} {raw text : List Nat} (hchar : escaped e = some c)
      (hrest : Chars raw text) : Chars (92 :: e :: raw) (c :: text)
  | unicode {digits raw text : List Nat} {unit : Nat} (hunit : codeUnit digits = some unit)
      (hchar : ¬HighSurrogate unit ∧ ¬LowSurrogate unit) (hrest : Chars raw text) :
      Chars (92 :: 117 :: (digits ++ raw)) (unit :: text)
  /-- A code point that takes two code units. -/
  | surrogates {digits digits' raw text : List Nat} {high low : Nat}
      (hhigh : codeUnit digits = some high) (hlow : codeUnit digits' = some low)
      (hchar : HighSurrogate high ∧ LowSurrogate low) (hrest : Chars raw text) :
      Chars (92 :: 117 :: (digits ++ 92 :: 117 :: (digits' ++ raw)))
        ((0x10000 + 0x400 * (high - 0xd800) + (low - 0xdc00)) :: text)

def Digits (text : List Nat) : Prop := text ≠ [] ∧ ∀ c ∈ text, 48 ≤ c ∧ c ≤ 57

/-- An optional minus, digits without a leading zero, an optional fraction and an optional
exponent. -/
def IsNumber (text : List Nat) : Prop :=
  ∃ minus digits fraction exponent, text = minus ++ digits ++ fraction ++ exponent ∧
    (minus = [] ∨ minus = [45]) ∧
    (Digits digits ∧ (digits.head? = some 48 → digits = [48])) ∧
    (fraction = [] ∨ ∃ decimals, fraction = 46 :: decimals ∧ Digits decimals) ∧
    (exponent = [] ∨ ∃ e sign power, exponent = e :: (sign ++ power) ∧ (e = 101 ∨ e = 69) ∧
      (sign = [] ∨ sign = [43] ∨ sign = [45]) ∧ Digits power)

section Structure

variable {α : Type}

/-- An item with blanks around it. -/
inductive Padded (Item : List Nat → α → Prop) : List Nat → α → Prop
  | mk {front raw back : List Nat} {item : α} (hfront : Blank front) (hback : Blank back)
      (hitem : Item raw item) : Padded Item (front ++ raw ++ back) item

/-- Items with commas between them. -/
inductive Separated (Item : List Nat → α → Prop) : List Nat → List α → Prop
  | one {raw : List Nat} {item : α} (hitem : Item raw item) : Separated Item raw [item]
  | more {raw rest : List Nat} {item : α} {items : List α} (hitem : Item raw item)
      (hrest : Separated Item rest items) : Separated Item (raw ++ 44 :: rest) (item :: items)

end Structure

/-- A name, a colon and a value. -/
inductive Member (Value : List Nat → Json → Prop) : List Nat → List Nat × Json → Prop
  | mk {raw name front back text : List Nat} {value : Json} (hname : Chars raw name)
      (hfront : Blank front) (hback : Blank back) (hvalue : Value text value) :
      Member Value (34 :: (raw ++ 34 :: (front ++ 58 :: (back ++ text)))) (name, value)

inductive Value : List Nat → Json → Prop
  | null : Value [110, 117, 108, 108] .null
  | true : Value [116, 114, 117, 101] (.bool true)
  | false : Value [102, 97, 108, 115, 101] (.bool false)
  | number {text : List Nat} (hnumber : IsNumber text) : Value text (.number text)
  | string {raw text : List Nat} (hchars : Chars raw text) :
      Value (34 :: (raw ++ [34])) (.string text)
  | emptyArray {blank : List Nat} (hblank : Blank blank) :
      Value (91 :: (blank ++ [93])) (.array [])
  | array {raw : List Nat} {elements : List Json}
      (helements : Separated (Padded Value) raw elements) :
      Value (91 :: (raw ++ [93])) (.array elements)
  | emptyObject {blank : List Nat} (hblank : Blank blank) :
      Value (123 :: (blank ++ [125])) (.object [])
  | object {raw : List Nat} {members : List (List Nat × Json)}
      (hmembers : Separated (Padded (Member Value)) raw members) :
      Value (123 :: (raw ++ [125])) (.object members)

/-- A text that denotes a value. -/
def Text : List Nat → Json → Prop := Padded Value

/-! ## The room a text takes -/

/-- A text that denotes an item takes some room at least, and if it takes no more, the item has a
property. -/
def Takes {α : Type} (Item : List Nat → α → Prop) (room : α → Nat) (Tight : α → Prop) : Prop :=
  ∀ raw item, Item raw item →
    room item ≤ raw.length ∧ (raw.length = room item → Tight item)

section Takes

variable {α : Type} {Item : List Nat → α → Prop} {room : α → Nat} {Tight : α → Prop}

theorem Takes.padded (htakes : Takes Item room Tight) : Takes (Padded Item) room Tight := by
  rintro _ item ⟨-, -, hitem⟩
  obtain ⟨hroom, htight⟩ := htakes _ _ hitem
  rw [List.length_append, List.length_append]
  exact ⟨by omega, fun hlength => htight (by omega)⟩

theorem Separated.length_pos {raw : List Nat} {items : List α}
    (hitems : Separated Item raw items) : 0 < items.length := by
  cases hitems with
  | one => exact Nat.zero_lt_one
  | more => exact Nat.succ_pos _

/-- One comma less than there are items. -/
theorem Takes.separated (htakes : Takes Item room Tight) {raw : List Nat} {items : List α}
    (hitems : Separated Item raw items) :
    (items.map room).sum + items.length ≤ raw.length + 1 ∧
      (raw.length + 1 = (items.map room).sum + items.length → ∀ item ∈ items, Tight item) := by
  induction hitems with
  | one hitem =>
      obtain ⟨hroom, htight⟩ := htakes _ _ hitem
      rw [List.map_singleton, List.sum_singleton, List.length_singleton]
      refine ⟨by omega, fun hlength item hmem => ?_⟩
      rw [List.mem_singleton.mp hmem]
      exact htight (by omega)
  | more hitem _ ih =>
      obtain ⟨hroom, htight⟩ := htakes _ _ hitem
      obtain ⟨hrooms, htights⟩ := ih
      rw [List.map_cons, List.sum_cons, List.length_cons, List.length_append, List.length_cons]
      refine ⟨by omega, fun hlength item hmem => ?_⟩
      -- neither the first item nor the others have room to spare
      rcases List.mem_cons.mp hmem with rfl | hmem
      · exact htight (by omega)
      · exact htights (by omega) item hmem

end Takes

/-- An escape sequence is longer than what it stands for. -/
theorem Chars.length_le {raw text : List Nat} (hchars : Chars raw text) :
    text.length ≤ raw.length ∧ (raw.length = text.length → ∀ c ∈ text, Unescaped c) := by
  induction hchars with
  | nil => exact ⟨Nat.le_refl 0, fun _ => nofun⟩
  | unescaped hchar _ ih =>
      rw [List.length_cons, List.length_cons]
      refine ⟨Nat.succ_le_succ ih.1, fun hlength c hc => ?_⟩
      rcases List.mem_cons.mp hc with rfl | hc
      · exact hchar
      · exact ih.2 (Nat.succ.inj hlength) c hc
  | escape _ _ ih =>
      simp only [List.length_cons]
      exact ⟨by omega, fun hlength => by omega⟩
  | unicode _ _ _ ih =>
      simp only [List.length_cons, List.length_append]
      exact ⟨by omega, fun hlength => by omega⟩
  | surrogates _ _ _ _ ih =>
      simp only [List.length_cons, List.length_append]
      exact ⟨by omega, fun hlength => by omega⟩

/-- A string takes its characters and two quotation marks. -/
def valueRoom (value : Json) : Nat :=
  match value with
  | .string text => text.length + 2
  | _ => 0

/-- A string that needs no escape sequence. -/
def PlainValue (value : Json) : Prop :=
  match value with
  | .string text => ∀ c ∈ text, Unescaped c
  | _ => True

theorem Value.takes : Takes Value valueRoom PlainValue := by
  intro raw value hvalue
  cases hvalue with
  | string hchars =>
      obtain ⟨hroom, htight⟩ := hchars.length_le
      simp only [valueRoom, PlainValue, List.length_cons, List.length_append, List.length_nil]
      exact ⟨by omega, fun hlength => htight (by omega)⟩
  | null | true | false | number | emptyArray | array | emptyObject | object =>
      exact ⟨Nat.zero_le _, fun _ => trivial⟩

/-- A member takes its name, two quotation marks, a colon and its value. -/
def memberRoom (member : List Nat × Json) : Nat := member.1.length + 3 + valueRoom member.2

theorem Member.takes : Takes (Member Value) memberRoom fun member =>
    (∀ c ∈ member.1, Unescaped c) ∧ PlainValue member.2 := by
  rintro _ _ ⟨hname, -, -, hvalue⟩
  obtain ⟨hroom, htight⟩ := hname.length_le
  obtain ⟨hroom', htight'⟩ := Value.takes _ _ hvalue
  simp only [memberRoom, List.length_cons, List.length_append]
  exact ⟨by omega, fun hlength => ⟨htight (by omega), htight' (by omega)⟩⟩

/-- What the members of an object take, with the commas and the braces. -/
def objectRoom (members : List (List Nat × Json)) : Nat :=
  (members.map memberRoom).sum + (members.length - 1) + 2

/-- A text that has only the room its object takes has no escape sequence in its names and
strings. -/
theorem Text.object_tight {text : List Nat} {members : List (List Nat × Json)}
    (htext : Text text (.object members)) (hlength : text.length = objectRoom members) :
    ∀ member ∈ members, (∀ c ∈ member.1, Unescaped c) ∧ PlainValue member.2 := by
  obtain ⟨-, -, hvalue⟩ := htext
  cases hvalue with
  | emptyObject => exact nofun
  | object hmembers =>
      obtain ⟨hroom, htight⟩ := Takes.separated (Takes.padded Member.takes) hmembers
      have hpos := hmembers.length_pos
      rw [objectRoom] at hlength
      simp only [List.length_append, List.length_cons, List.length_nil] at hlength
      exact htight (by omega)

/-! ## Plain text -/

/-- Characters that stand for themselves. -/
theorem Chars.plain {text : List Nat} (htext : ∀ c ∈ text, Unescaped c) : Chars text text := by
  induction text with
  | nil => exact .nil
  | cons c text ih =>
      apply Chars.unescaped (htext c List.mem_cons_self)
      exact ih fun d hd => htext d (List.mem_cons_of_mem _ hd)

theorem blank_nil : Blank [] := nofun

theorem padded_of_item {α : Type} {Item : List Nat → α → Prop} {raw : List Nat} {item : α}
    (hitem : Item raw item) : Padded Item raw item := by
  have hpadded := Padded.mk blank_nil blank_nil hitem
  rwa [List.nil_append, List.append_nil] at hpadded

end Json
end Foundation
end Iostreams
