import Mathlib.Data.List.Chain
import Mathlib.Tactic.Common

/-!
# Text in CRLF-terminated lines

A head is a sequence of lines, each ended by CRLF, and an empty line after them.  `takeLine`
splits a byte string at its first CRLF, `readHead` into the lines of its head and what follows,
and `writeHead` puts them together.  Reading and writing are inverse on lines that are not empty
and in which no CRLF occurs: reading returns what was written, and nothing else is ever read.
-/

namespace Iostreams
namespace Foundation

def crlf : List UInt8 := [13, 10]

/-- No carriage return is followed by a line feed. -/
def Unbroken (text : List UInt8) : Prop := text.IsChain fun c d => ¬(c = 13 ∧ d = 10)

instance (text : List UInt8) : Decidable (Unbroken text) :=
  inferInstanceAs (Decidable (text.IsChain _))

/-- The line up to the first CRLF, and what follows it; `line` is the part of it that was read
already. -/
def takeLine (line : List UInt8) : List UInt8 → Option (List UInt8 × List UInt8)
  | [] => none
  | [_] => none
  | c :: d :: rest =>
      if c = 13 ∧ d = 10 then some (line, rest) else takeLine (line ++ [c]) (d :: rest)

/-- The lines up to the first empty one, and what follows it; `line` is the part of the current
line that was read already. -/
def readHead (line : List UInt8) : List UInt8 → Option (List (List UInt8) × List UInt8)
  | [] => none
  | [_] => none
  | c :: d :: rest =>
      if c = 13 ∧ d = 10 then
        if line = [] then some ([], rest)
        else (readHead [] rest).map fun (lines, rest) => (line :: lines, rest)
      else readHead (line ++ [c]) (d :: rest)

/-- Lines, the empty line, and what follows. -/
def writeHead (lines : List (List UInt8)) (rest : List UInt8) : List UInt8 :=
  lines.flatMap (· ++ crlf) ++ crlf ++ rest

/-! ## Unbroken text -/

theorem unbroken_nil : Unbroken [] := List.IsChain.nil

theorem unbroken_singleton (c : UInt8) : Unbroken [c] := List.IsChain.singleton c

theorem unbroken_of_not_mem {text : List UInt8} (htext : 13 ∉ text) : Unbroken text := by
  induction text with
  | nil => exact unbroken_nil
  | cons c rest ih =>
      rw [List.mem_cons, not_or] at htext
      exact List.isChain_cons.mpr ⟨fun d _ hbreak => htext.1 hbreak.1.symm, ih htext.2⟩

/-- Parts that are separated by other characters. -/
theorem unbroken_separated {front separator back : List UInt8} (hne : separator ≠ [])
    (hreturn : 13 ∉ separator) (hfeed : 10 ∉ separator) :
    Unbroken (front ++ separator ++ back) ↔ Unbroken front ∧ Unbroken back := by
  unfold Unbroken
  have hseparator := unbroken_of_not_mem hreturn
  unfold Unbroken at hseparator
  rw [List.isChain_append, List.isChain_append]
  constructor
  · rintro ⟨⟨hfront, -, -⟩, hback, -⟩
    exact ⟨hfront, hback⟩
  · rintro ⟨hfront, hback⟩
    refine ⟨⟨hfront, hseparator, fun c _ d hd hbreak => ?_⟩, hback, fun c hc d _ hbreak => ?_⟩
    · obtain rfl := hbreak.2
      exact hfeed (List.mem_of_mem_head? hd)
    · obtain rfl := hbreak.1
      rw [List.getLast?_append_of_ne_nil _ hne] at hc
      exact hreturn (List.mem_of_mem_getLast? hc)

/-! ## Reading -/

/-- A line is taken up to the CRLF that ends it. -/
theorem takeLine_line {line : List UInt8} (hline : Unbroken line) (before rest : List UInt8) :
    takeLine before (line ++ crlf ++ rest) = some (before ++ line, rest) := by
  induction line generalizing before with
  | nil =>
      rw [List.append_nil]
      exact if_pos ⟨rfl, rfl⟩
  | cons c line ih =>
      obtain ⟨hfirst, hrest⟩ := List.isChain_cons.mp hline
      obtain ⟨d, more, hnext⟩ : ∃ d more, line ++ crlf ++ rest = d :: more := by
        cases line with
        | nil => exact ⟨13, 10 :: rest, rfl⟩
        | cons d line => exact ⟨d, line ++ crlf ++ rest, rfl⟩
      have hnot : ¬(c = 13 ∧ d = 10) := by
        cases line with
        | nil =>
            obtain rfl : (13 : UInt8) = d := (List.cons.inj hnext).1
            exact fun hbreak => absurd hbreak.2 (by decide)
        | cons e line =>
            obtain rfl : e = d := (List.cons.inj hnext).1
            exact hfirst e rfl
      have happend := ih hrest (before ++ [c])
      rw [hnext] at happend
      rw [List.cons_append, List.cons_append, hnext, takeLine, if_neg hnot, happend,
        List.append_assoc, List.singleton_append]

/-- What is taken is in front of the first CRLF. -/
theorem takeLine_eq_some {before bytes line rest : List UInt8}
    (htake : takeLine before bytes = some (line, rest))
    (hbefore : Unbroken (before ++ bytes.take 1)) :
    before ++ bytes = line ++ crlf ++ rest ∧ Unbroken line := by
  induction before, bytes using takeLine.induct with
  | case1 before => cases htake
  | case2 before c => cases htake
  | case3 before c d rest' hbreak =>
      rw [takeLine, if_pos hbreak] at htake
      cases htake
      rw [hbreak.1, hbreak.2]
      exact ⟨by simp [crlf], (List.isChain_append.mp hbefore).1⟩
  | case4 before c d rest' hnot ih =>
      rw [takeLine, if_neg hnot] at htake
      -- no line ends between `c` and `d`, so the line goes on with `c` read
      have hnext : Unbroken (before ++ [c] ++ (d :: rest').take 1) := by
        apply List.isChain_append.mpr
        refine ⟨hbefore, unbroken_singleton d, fun e he f hf => ?_⟩
        rw [List.getLast?_concat, Option.mem_some_iff] at he
        rw [List.take_succ_cons, List.head?_cons, Option.mem_some_iff] at hf
        rw [← he, ← hf]
        exact hnot
      have hline := ih htake hnext
      rwa [List.append_assoc, List.singleton_append] at hline

theorem unbroken_take_one (bytes : List UInt8) : Unbroken (bytes.take 1) := by
  cases bytes with
  | nil => exact unbroken_nil
  | cons c bytes => exact unbroken_singleton c

/-- A head is read line by line. -/
theorem readHead_eq_takeLine (before bytes : List UInt8) :
    readHead before bytes = (takeLine before bytes).bind fun taken =>
      if taken.1 = [] then some ([], taken.2)
      else (readHead [] taken.2).map fun head => (taken.1 :: head.1, head.2) := by
  induction before, bytes using takeLine.induct with
  | case1 before => rw [readHead, takeLine, Option.bind_none]
  | case2 before c => rw [readHead, takeLine, Option.bind_none]
  | case3 before c d rest hbreak =>
      rw [readHead, takeLine, if_pos hbreak, if_pos hbreak, Option.bind_some]
  | case4 before c d rest hnot ih => rw [readHead, takeLine, if_neg hnot, if_neg hnot, ih]

/-- One line. -/
theorem readHead_line {line : List UInt8} (hline : Unbroken line) (before rest : List UInt8) :
    readHead before (line ++ crlf ++ rest) =
      if before ++ line = [] then some ([], rest)
      else (readHead [] rest).map fun head => ((before ++ line) :: head.1, head.2) := by
  rw [readHead_eq_takeLine, takeLine_line hline, Option.bind_some]

theorem readHead_writeHead {lines : List (List UInt8)}
    (hlines : ∀ line ∈ lines, Unbroken line ∧ line ≠ []) (rest : List UInt8) :
    readHead [] (writeHead lines rest) = some (lines, rest) := by
  induction lines with
  | nil => rfl
  | cons line lines ih =>
      obtain ⟨hline, hne⟩ := hlines line List.mem_cons_self
      have hsplit : writeHead (line :: lines) rest = line ++ crlf ++ writeHead lines rest := by
        simp only [writeHead, List.flatMap_cons, List.append_assoc]
      rw [hsplit, readHead_line hline, List.nil_append, if_neg hne,
        ih fun later hlater => hlines later (List.mem_cons_of_mem _ hlater)]
      rfl

/-- Only what can be written is read: the lines are unbroken, and none is empty. -/
theorem eq_writeHead_of_readHead {bytes rest : List UInt8} {lines : List (List UInt8)}
    (hread : readHead [] bytes = some (lines, rest)) :
    bytes = writeHead lines rest ∧ ∀ line ∈ lines, Unbroken line ∧ line ≠ [] := by
  induction lines generalizing bytes with
  | nil =>
      rw [readHead_eq_takeLine, Option.bind_eq_some_iff] at hread
      obtain ⟨⟨line, later⟩, htake, hhead⟩ := hread
      obtain ⟨hbytes, -⟩ := takeLine_eq_some htake (unbroken_take_one bytes)
      simp only at hhead
      split at hhead
      · next hempty =>
          cases hhead
          rw [List.nil_append, hempty] at hbytes
          exact ⟨hbytes, by simp⟩
      · obtain ⟨head, -, heq⟩ := Option.map_eq_some_iff.mp hhead
        cases heq
  | cons line lines ih =>
      rw [readHead_eq_takeLine, Option.bind_eq_some_iff] at hread
      obtain ⟨⟨first, later⟩, htake, hhead⟩ := hread
      obtain ⟨hbytes, hfirst⟩ := takeLine_eq_some htake (unbroken_take_one bytes)
      simp only at hhead
      split at hhead
      · cases hhead
      · next hne =>
          -- a line ends here, and the next one starts with nothing read
          obtain ⟨⟨lines', rest'⟩, hlater, heq⟩ := Option.map_eq_some_iff.mp hhead
          cases heq
          obtain ⟨hrest, hlines⟩ := ih hlater
          rw [List.nil_append, hrest] at hbytes
          constructor
          · rw [hbytes]
            simp only [writeHead, List.flatMap_cons, List.append_assoc]
          · intro other hother
            rcases List.mem_cons.mp hother with rfl | hother
            · exact ⟨hfirst, hne⟩
            · exact hlines other hother

end Foundation
end Iostreams
