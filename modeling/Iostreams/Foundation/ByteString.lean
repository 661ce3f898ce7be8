import Mathlib.Data.List.Basic
import Mathlib.Data.List.TakeWhile
import Mathlib.Data.Nat.Digits.Defs
import Mathlib.Tactic.Common

/-!
# Byte strings

The part of `std::string` a text protocol uses: searching for a character,
cutting out a substring, lower case, and the conversion of decimal text to
`long long` and `int`.  Characters are bytes, so that nothing depends on an
encoding.
-/

namespace Iostreams
namespace Foundation

/-! ## Searching -/

/-- `str.find(c, pos)`; `none` stands for `npos`. -/
def find (str : List UInt8) (c : UInt8) (pos : Nat) : Option Nat :=
  if c ∈ str.drop pos then some (pos + (str.drop pos).idxOf c) else none

/-- `str.substr(pos, count)` -/
def substr (str : List UInt8) (pos count : Nat) : List UInt8 := (str.drop pos).take count

theorem find_eq_none {str : List UInt8} {c : UInt8} {pos : Nat} :
    find str c pos = none ↔ c ∉ str.drop pos := by
  unfold find
  split <;> simp [*]

/-- The first occurrence splits the string. -/
theorem find_append {skipped front back : List UInt8} {c : UInt8} (hfront : c ∉ front) :
    find (skipped ++ front ++ c :: back) c skipped.length =
      some (skipped.length + front.length) := by
  have hdrop : (skipped ++ front ++ c :: back).drop skipped.length = front ++ c :: back := by
    rw [List.append_assoc, List.drop_left]
  rw [find, hdrop, if_pos (by simp), List.idxOf_append_of_notMem hfront]
  simp

/-- Every string is searched as one of the two kinds. -/
theorem find_cases (str : List UInt8) (c : UInt8) :
    c ∉ str ∨ ∃ front back, str = front ++ c :: back ∧ c ∉ front := by
  by_cases hmem : c ∈ str
  · obtain ⟨front, back, hsplit, hfront⟩ := List.eq_append_cons_of_mem hmem
    exact Or.inr ⟨front, back, hsplit, hfront⟩
  · exact Or.inl hmem

/-- The part of a string up to a character, and the rest, which starts with it. -/
theorem span_append {front back : List UInt8} {c : UInt8} (hfront : c ∉ front) :
    (front ++ c :: back).takeWhile (· ≠ c) = front ∧
      (front ++ c :: back).dropWhile (· ≠ c) = c :: back := by
  have hall : ∀ d ∈ front, decide (d ≠ c) = true := fun d hd =>
    decide_eq_true fun heq => hfront (heq ▸ hd)
  constructor
  · rw [List.takeWhile_append_of_pos hall, List.takeWhile_cons_of_neg (by simp), List.append_nil]
  · rw [List.dropWhile_append_of_pos hall, List.dropWhile_cons_of_neg (by simp)]

/-- Two strings that go on with a character that is in neither. -/
theorem append_cons_inj {front front' back back' : List UInt8} {c : UInt8} (hfront : c ∉ front)
    (hfront' : c ∉ front') (hsame : front ++ c :: back = front' ++ c :: back') :
    front = front' ∧ back = back' := by
  obtain ⟨htake, hdrop⟩ := @span_append front back c hfront
  obtain ⟨htake', hdrop'⟩ := @span_append front' back' c hfront'
  rw [hsame, htake'] at htake
  rw [hsame, hdrop'] at hdrop
  exact ⟨htake.symm, (List.cons.inj hdrop).2.symm⟩

theorem span_of_not_mem {str : List UInt8} {c : UInt8} (hstr : c ∉ str) :
    str.takeWhile (· ≠ c) = str ∧ str.dropWhile (· ≠ c) = [] := by
  have hall : ∀ d ∈ str, decide (d ≠ c) = true := fun d hd =>
    decide_eq_true fun heq => hstr (heq ▸ hd)
  exact ⟨List.takeWhile_eq_self_iff.mpr hall, List.dropWhile_eq_nil_iff.mpr hall⟩

/-- What `find` returns splits the rest of the string. -/
theorem find_eq_some {str : List UInt8} {c : UInt8} {pos i : Nat}
    (hfind : find str c pos = some i) :
    pos < str.length ∧ substr str pos (i - pos) = (str.drop pos).takeWhile (· ≠ c) ∧
      str.drop i = (str.drop pos).dropWhile (· ≠ c) ∧
      str.drop (i + 1) = ((str.drop pos).dropWhile (· ≠ c)).tail := by
  unfold find at hfind
  by_cases hmem : c ∈ str.drop pos
  · rw [if_pos hmem, Option.some.injEq] at hfind
    obtain ⟨front, back, hsplit, hfront⟩ := List.eq_append_cons_of_mem hmem
    obtain ⟨htake, hdrop⟩ := @span_append front back c hfront
    have hindex : (str.drop pos).idxOf c = front.length := by
      rw [hsplit, List.idxOf_append_of_notMem hfront, List.idxOf_cons_self, Nat.add_zero]
    have hpos : pos < str.length := by
      have hlength := congrArg List.length hsplit
      rw [List.length_drop, List.length_append, List.length_cons] at hlength
      omega
    obtain rfl : i = pos + front.length := by rw [← hfind, hindex]
    have hrest : str.drop (pos + front.length) = c :: back := by
      rw [← List.drop_drop, hsplit, List.drop_left]
    refine ⟨hpos, ?_, ?_, ?_⟩
    · rw [substr, hsplit, htake, Nat.add_sub_cancel_left, List.take_left]
    · rw [hrest, hsplit, hdrop]
    · rw [← List.drop_drop, hrest, hsplit, hdrop]
      rfl
  · rw [if_neg hmem] at hfind
    cases hfind

/-! ## Letter case -/

/-- `std::tolower(c)` in the default locale. -/
def toLower (c : UInt8) : UInt8 := if 65 ≤ c ∧ c ≤ 90 then c + 32 else c

/-! ## Decimal text -/

/-- `isspace` -/
def isSpace (c : UInt8) : Bool := c == 32 || (9 ≤ c && c ≤ 13)

/-- `isdigit` -/
def isDigit (c : UInt8) : Bool := 48 ≤ c && c ≤ 57

/-- The number a sequence of digits denotes. -/
def digitsValue (digits : List UInt8) : Nat :=
  digits.foldl (fun value c => 10 * value + (c.toNat - 48)) 0

/-- The optional sign: whether it is a minus, and what follows. -/
def takeSign (text : List UInt8) : Bool × List UInt8 :=
  if text.head? = some 45 then (true, text.tail)
  else if text.head? = some 43 then (false, text.tail)
  else (false, text)

/-- The range check of the conversion. -/
def inLongLong (value : Int) : Except String Int :=
  if -2 ^ 63 ≤ value ∧ value < 2 ^ 63 then .ok value else .error "std::out_of_range"

/-- `std::stoll(text)`: leading white space and everything behind the digits are
ignored. -/
def stoll (text : List UInt8) : Except String Int :=
  let (negative, unsigned) := takeSign (text.dropWhile isSpace)
  let digits := unsigned.takeWhile isDigit
  if digits = [] then .error "std::invalid_argument"
  else
    inLongLong (if negative then -digitsValue digits else digitsValue digits)

/-- `std::stoi(text)`: the conversion to `long`, which has 64 bits, and a range check. -/
def stoi (text : List UInt8) : Except String Int :=
  match stoll text with
  | .error what => .error what
  | .ok value =>
      if -2 ^ 31 ≤ value ∧ value < 2 ^ 31 then .ok value else .error "std::out_of_range"

/-- `std::to_string(n)` -/
def decimal (n : Nat) : List UInt8 :=
  if n = 0 then [48] else (Nat.digits 10 n).reverse.map fun digit => UInt8.ofNat (48 + digit)

theorem isDigit_decimal (n : Nat) : ∀ c ∈ decimal n, isDigit c = true := by
  have hdigit : ∀ digit < 10, isDigit (UInt8.ofNat (48 + digit)) = true := by decide
  intro c hc
  unfold decimal at hc
  split at hc
  · obtain rfl := List.mem_singleton.mp hc
    decide
  · obtain ⟨digit, hmem, rfl⟩ := List.mem_map.mp hc
    exact hdigit digit (Nat.digits_lt_base (by decide) (List.mem_reverse.mp hmem))

theorem decimal_ne_nil (n : Nat) : decimal n ≠ [] := by
  unfold decimal
  split
  · exact List.cons_ne_nil _ _
  · next hn => simpa [Nat.digits_eq_nil_iff_eq_zero] using hn

theorem digitsValue_decimal (n : Nat) : digitsValue (decimal n) = n := by
  unfold decimal
  split
  · next hn => rw [hn]; decide
  · have hdigits : ∀ digits : List Nat, (∀ digit ∈ digits, digit < 10) →
        digits.foldr (fun digit value => 10 * value + ((UInt8.ofNat (48 + digit)).toNat - 48)) 0 =
          Nat.ofDigits 10 digits := by
      intro digits hlt
      induction digits with
      | nil => rfl
      | cons digit rest ih =>
          have hdigit := hlt digit List.mem_cons_self
          rw [List.foldr_cons, ih (fun d hd => hlt d (List.mem_cons_of_mem _ hd)),
            Nat.ofDigits_cons, UInt8.toNat_ofNat']
          omega
    rw [digitsValue, List.foldl_map, List.foldl_reverse,
      hdigits _ (fun digit hmem => Nat.digits_lt_base (by decide) hmem), Nat.ofDigits_digits]

theorem isDigit_bounds {c : UInt8} (hc : isDigit c = true) : 48 ≤ c.toNat ∧ c.toNat ≤ 57 := by
  simpa only [isDigit, Bool.and_eq_true, decide_eq_true_eq, UInt8.le_iff_toNat_le,
    UInt8.toNat_ofNat] using hc

/-- A digit is neither white space nor a sign. -/
theorem isDigit_plain {c : UInt8} (hc : isDigit c = true) :
    isSpace c = false ∧ c ≠ 45 ∧ c ≠ 43 := by
  have hbounds := isDigit_bounds hc
  refine ⟨?_, fun heq => ?_, fun heq => ?_⟩
  · simp only [isSpace, Bool.or_eq_false_iff, Bool.and_eq_false_iff, beq_eq_false_iff_ne,
      decide_eq_false_iff_not, UInt8.le_iff_toNat_le, UInt8.toNat_ofNat, ne_eq]
    refine ⟨fun heq => ?_, Or.inr (by omega)⟩
    have hspace : c.toNat = 32 := congrArg UInt8.toNat heq
    omega
  · have hminus : c.toNat = 45 := congrArg UInt8.toNat heq
    omega
  · have hplus : c.toNat = 43 := congrArg UInt8.toNat heq
    omega

/-- The digits of a text are those up to the first other character. -/
theorem takeWhile_isDigit {digits back : List UInt8} (hdigits : ∀ c ∈ digits, isDigit c = true)
    (hback : ∀ c ∈ back.head?, isDigit c = false) :
    (digits ++ back).takeWhile isDigit = digits := by
  rw [List.takeWhile_append_of_pos hdigits]
  cases back with
  | nil => rw [List.takeWhile_nil, List.append_nil]
  | cons c rest =>
      rw [List.takeWhile_cons_of_neg (by rw [hback c rfl]; exact Bool.false_ne_true),
        List.append_nil]

/-! ## What the conversion accepts -/

/-- A text that starts with a number: white space, a sign if there is one, all the digits, and
whatever stands behind them. -/
structure Numeral where
  blanks : List UInt8
  sign : List UInt8
  digits : List UInt8
  rest : List UInt8
  blanks_space : ∀ c ∈ blanks, isSpace c = true
  sign_valid : sign = [] ∨ sign = [43] ∨ sign = [45]
  digits_digit : ∀ c ∈ digits, isDigit c = true
  digits_ne : digits ≠ []
  rest_stop : ∀ c ∈ rest.head?, isDigit c = false

namespace Numeral

def text (numeral : Numeral) : List UInt8 :=
  numeral.blanks ++ (numeral.sign ++ (numeral.digits ++ numeral.rest))

def value (numeral : Numeral) : Int :=
  if numeral.sign = [45] then -digitsValue numeral.digits else digitsValue numeral.digits

/-- The sign and the digits are found behind the white space. -/
theorem takeSign_text (numeral : Numeral) :
    takeSign (numeral.text.dropWhile isSpace) =
      (decide (numeral.sign = [45]), numeral.digits ++ numeral.rest) := by
  obtain ⟨c, digits, hdigits⟩ := List.exists_cons_of_ne_nil numeral.digits_ne
  obtain ⟨hspace, hminus, hplus⟩ := isDigit_plain
    (numeral.digits_digit c (by rw [hdigits]; exact List.mem_cons_self))
  rw [text, List.dropWhile_append_of_pos numeral.blanks_space, hdigits, List.cons_append]
  rcases numeral.sign_valid with hsign | hsign | hsign
  · rw [hsign, List.nil_append,
      List.dropWhile_cons_of_neg (by rw [hspace]; exact Bool.false_ne_true), takeSign,
      List.head?_cons]
    simp [hminus, hplus]
  · rw [hsign, List.cons_append, List.dropWhile_cons_of_neg (by decide)]
    rfl
  · rw [hsign, List.cons_append, List.dropWhile_cons_of_neg (by decide)]
    rfl

/-- Such a text is read as its number. -/
theorem stoll_text (numeral : Numeral) : stoll numeral.text = inLongLong numeral.value := by
  rw [stoll, numeral.takeSign_text]
  simp only [takeWhile_isDigit numeral.digits_digit numeral.rest_stop, if_neg numeral.digits_ne,
    decide_eq_true_eq]
  rfl

/-- Digits alone are the case in which the three other parts are empty. -/
theorem digits_only_iff (numeral : Numeral) :
    (∀ c ∈ numeral.text, isDigit c = true) ↔
      numeral.blanks = [] ∧ numeral.sign = [] ∧ numeral.rest = [] := by
  constructor
  · intro hall
    have hmem : ∀ c, c ∈ numeral.blanks ∨ c ∈ numeral.sign ∨ c ∈ numeral.rest →
        isDigit c = true := by
      intro c hc
      refine hall c ?_
      simp only [text, List.mem_append]
      tauto
    refine ⟨?_, ?_, ?_⟩
    · refine List.eq_nil_iff_forall_not_mem.mpr fun c hc => ?_
      have hspace := numeral.blanks_space c hc
      rw [(isDigit_plain (hmem c (Or.inl hc))).1] at hspace
      cases hspace
    · rcases numeral.sign_valid with hsign | hsign | hsign
      · exact hsign
      · have hdigit := hmem 43 (Or.inr (Or.inl (by rw [hsign]; exact List.mem_cons_self)))
        exact absurd hdigit (by decide)
      · have hdigit := hmem 45 (Or.inr (Or.inl (by rw [hsign]; exact List.mem_cons_self)))
        exact absurd hdigit (by decide)
    · cases hrest : numeral.rest with
      | nil => rfl
      | cons c rest =>
          have hstop := numeral.rest_stop c (by rw [hrest]; rfl)
          rw [hmem c (Or.inr (Or.inr (by rw [hrest]; exact List.mem_cons_self)))] at hstop
          cases hstop
  · rintro ⟨hblanks, hsign, hrest⟩ c hc
    rw [text, hblanks, hsign, hrest, List.nil_append, List.nil_append, List.append_nil] at hc
    exact numeral.digits_digit c hc

end Numeral

/-- The sign that is taken off a text. -/
theorem takeSign_cases (text : List UInt8) : ∃ sign : List UInt8,
    (sign = [] ∨ sign = [43] ∨ sign = [45]) ∧ text = sign ++ (takeSign text).2 := by
  unfold takeSign
  by_cases hminus : text.head? = some 45
  · obtain ⟨rest, rfl⟩ := List.head?_eq_some_iff.mp hminus
    exact ⟨[45], Or.inr (Or.inr rfl), rfl⟩
  · by_cases hplus : text.head? = some 43
    · obtain ⟨rest, rfl⟩ := List.head?_eq_some_iff.mp hplus
      exact ⟨[43], Or.inr (Or.inl rfl), rfl⟩
    · rw [if_neg hminus, if_neg hplus]
      exact ⟨[], Or.inl rfl, rfl⟩

/-- Only a text that starts with a number is accepted. -/
theorem exists_numeral {text : List UInt8} {value : Int} (hparse : stoll text = .ok value) :
    ∃ numeral : Numeral, numeral.text = text := by
  obtain ⟨sign, hsign, hunsigned⟩ := takeSign_cases (text.dropWhile isSpace)
  simp only [stoll] at hparse
  split at hparse
  · cases hparse
  · next hne =>
      refine ⟨{
        blanks := text.takeWhile isSpace
        sign
        digits := (takeSign (text.dropWhile isSpace)).2.takeWhile isDigit
        rest := (takeSign (text.dropWhile isSpace)).2.dropWhile isDigit
        blanks_space := fun c hc => List.mem_takeWhile_imp hc
        sign_valid := hsign
        digits_digit := fun c hc => List.mem_takeWhile_imp hc
        digits_ne := hne
        rest_stop := fun c hc => ?_ }, ?_⟩
      · have hstop := List.head?_dropWhile_not isDigit (takeSign (text.dropWhile isSpace)).2
        rw [Option.mem_def.mp hc] at hstop
        exact Bool.not_eq_true _ |>.mp (by simpa using hstop)
      · rw [Numeral.text, List.takeWhile_append_dropWhile, ← hunsigned,
          List.takeWhile_append_dropWhile]

theorem inLongLong_eq_ok_iff {number value : Int} :
    inLongLong number = .ok value ↔ number = value ∧ -2 ^ 63 ≤ value ∧ value < 2 ^ 63 := by
  unfold inLongLong
  constructor
  · intro hcheck
    by_cases hbounds : -2 ^ 63 ≤ number ∧ number < 2 ^ 63
    · rw [if_pos hbounds] at hcheck
      cases hcheck
      exact ⟨rfl, hbounds⟩
    · rw [if_neg hbounds] at hcheck
      cases hcheck
  · rintro ⟨rfl, hbounds⟩
    exact if_pos hbounds

/-- **The language of `std::stoll`.**  White space, a sign and digits, whatever follows, with a
number in the range. -/
theorem stoll_eq_ok_iff {text : List UInt8} {value : Int} :
    stoll text = .ok value ↔ ∃ numeral : Numeral, numeral.text = text ∧ numeral.value = value ∧
      -2 ^ 63 ≤ value ∧ value < 2 ^ 63 := by
  constructor
  · intro hparse
    obtain ⟨numeral, htext⟩ := exists_numeral hparse
    rw [← htext, numeral.stoll_text] at hparse
    exact ⟨numeral, htext, inLongLong_eq_ok_iff.mp hparse⟩
  · rintro ⟨numeral, rfl, hvalue⟩
    rw [numeral.stoll_text]
    exact inLongLong_eq_ok_iff.mpr hvalue

/-- **The language of `std::stoi`**, with the range of `int`. -/
theorem stoi_eq_ok_iff {text : List UInt8} {value : Int} :
    stoi text = .ok value ↔ ∃ numeral : Numeral, numeral.text = text ∧ numeral.value = value ∧
      -2 ^ 31 ≤ value ∧ value < 2 ^ 31 := by
  constructor
  · intro hparse
    unfold stoi at hparse
    cases hlong : stoll text with
    | error what =>
        rw [hlong] at hparse
        cases hparse
    | ok number =>
        rw [hlong] at hparse
        simp only at hparse
        split at hparse
        · next hint =>
            cases hparse
            obtain ⟨numeral, htext, hvalue, -⟩ := stoll_eq_ok_iff.mp hlong
            exact ⟨numeral, htext, hvalue, hint⟩
        · cases hparse
  · rintro ⟨numeral, htext, hvalue, hint⟩
    have hlong : stoll text = .ok value :=
      stoll_eq_ok_iff.mpr ⟨numeral, htext, hvalue, by omega, by omega⟩
    unfold stoi
    rw [hlong]
    exact if_pos hint

theorem stoll_bounds {text : List UInt8} {value : Int} (hparse : stoll text = .ok value) :
    -2 ^ 63 ≤ value ∧ value < 2 ^ 63 := by
  obtain ⟨-, -, -, hbounds⟩ := stoll_eq_ok_iff.mp hparse
  exact hbounds

/-- Digits with white space in front and anything else behind are read as their number. -/
theorem stoll_digits {front digits back : List UInt8} (hfront : ∀ c ∈ front, isSpace c = true)
    (hdigits : ∀ c ∈ digits, isDigit c = true) (hne : digits ≠ [])
    (hback : ∀ c ∈ back.head?, isDigit c = false) :
    stoll (front ++ (digits ++ back)) = inLongLong (digitsValue digits) :=
  Numeral.stoll_text {
    blanks := front
    sign := []
    digits
    rest := back
    blanks_space := hfront
    sign_valid := Or.inl rfl
    digits_digit := hdigits
    digits_ne := hne
    rest_stop := hback }

/-- Decimal text is read back. -/
theorem stoll_decimal {n : Nat} (hn : n < 2 ^ 63) : stoll (decimal n) = .ok (n : Int) := by
  have hread := @stoll_digits [] (decimal n) [] nofun (isDigit_decimal n) (decimal_ne_nil n) nofun
  rw [List.nil_append, List.append_nil, digitsValue_decimal] at hread
  rw [hread, inLongLong, if_pos (by omega)]

/-- Decimal text in the range of `int` is read back. -/
theorem stoi_decimal {n : Nat} (hn : n < 2 ^ 31) : stoi (decimal n) = .ok (n : Int) := by
  unfold stoi
  rw [stoll_decimal (by omega)]
  exact if_pos (by omega)

end Foundation
end Iostreams
