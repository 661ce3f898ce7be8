import Iostreams.Http.Response
import Iostreams.Serial.Input

/-!
# The head of a response

`completeLines` are the lines of a byte string that a line feed ends, without
their carriage returns, and `afterHeaders` is what follows the first empty one.
Neither mentions a `Serial`: the lemmas below say that the loops of
`deserialize` compute them on the input that is left, and that a loop whose
line feed or empty line never comes does not end.
-/

namespace Iostreams
namespace Http

open Foundation

/-- A line without its carriage returns. -/
def strip (text : List UInt8) : List UInt8 := text.filter (· ≠ 13)

/-- The lines that end with a line feed. -/
def completeLines : List UInt8 → List (List UInt8)
  | [] => []
  | c :: rest =>
      if c = 10 then [] :: completeLines rest
      else if c = 13 then completeLines rest
      else
        match completeLines rest with
        | [] => []
        | line :: lines => (c :: line) :: lines

/-- What follows the first empty line; `fresh` says that the line so far is empty. -/
def afterHeaders (fresh : Bool) : List UInt8 → List UInt8
  | [] => []
  | c :: rest =>
      if c = 10 then if fresh then rest else afterHeaders true rest
      else afterHeaders (fresh && c == 13) rest

/-- The header lines, up to the first empty line. -/
def headerLines (lines : List (List UInt8)) : List (List UInt8) := lines.takeWhile (· ≠ [])

/-- The header map of some header lines. -/
def headersOf (headers : Headers) (lines : List (List UInt8)) : Headers :=
  (headerLines lines).foldl setHeader headers

/-! ## Lines of a byte string -/

theorem strip_cons (c : UInt8) (text : List UInt8) :
    strip (c :: text) = if c = 13 then strip text else c :: strip text := by
  by_cases hc : c = 13 <;> simp [strip, hc]

theorem completeLines_append {text : List UInt8} (htext : 10 ∉ text) (rest : List UInt8) :
    completeLines (text ++ 10 :: rest) = strip text :: completeLines rest := by
  induction text with
  | nil => simp [completeLines, strip]
  | cons c text ih =>
      rw [List.mem_cons, not_or] at htext
      obtain ⟨hc, htext⟩ := htext
      rw [List.cons_append, completeLines, if_neg (Ne.symm hc), ih htext, strip_cons]
      split <;> rfl

theorem completeLines_of_not_mem {bytes : List UInt8} (hbytes : 10 ∉ bytes) :
    completeLines bytes = [] := by
  induction bytes with
  | nil => rfl
  | cons c rest ih =>
      rw [List.mem_cons, not_or] at hbytes
      obtain ⟨hc, hrest⟩ := hbytes
      rw [completeLines, if_neg (Ne.symm hc), ih hrest]
      split <;> rfl

theorem afterHeaders_append {text : List UInt8} (htext : 10 ∉ text) (fresh : Bool)
    (rest : List UInt8) :
    afterHeaders fresh (text ++ 10 :: rest) =
      if fresh = true ∧ strip text = [] then rest else afterHeaders true rest := by
  induction text generalizing fresh with
  | nil => simp [afterHeaders, strip]
  | cons c text ih =>
      rw [List.mem_cons, not_or] at htext
      obtain ⟨hc, htext⟩ := htext
      rw [List.cons_append, afterHeaders, if_neg (Ne.symm hc), ih htext, strip_cons]
      by_cases hreturn : c = 13 <;> simp [hreturn]

/-! ## The status line -/

/-- The head ends: a line feed ends the status line and, where two spaces make
the reader go on, an empty line follows. -/
def HeadComplete (bytes : List UInt8) : Prop :=
  match completeLines bytes with
  | [] => False
  | statusLine :: lines => statusLine.count 32 < 2 ∨ [] ∈ lines

instance (bytes : List UInt8) : Decidable (HeadComplete bytes) := by
  unfold HeadComplete
  split <;> infer_instance

section StatusLine

variable (response : HttpResponse)

@[simp] theorem headers_setProtocolVersion (protocolVersion : List UInt8) :
    (setProtocolVersion response protocolVersion).headers = response.headers := by
  unfold setProtocolVersion
  split <;> rfl

@[simp] theorem body_setProtocolVersion (protocolVersion : List UInt8) :
    (setProtocolVersion response protocolVersion).body = response.body := by
  unfold setProtocolVersion
  split <;> rfl

theorem parseStatusLine_none {statusLine : List UInt8} (hspace : 32 ∉ statusLine) :
    parseStatusLine response statusLine = (response, false) := by
  rw [parseStatusLine, find_eq_none.mpr (by simpa using hspace)]

/-- The first space ends the protocol and version. -/
theorem parseStatusLine_space {front : List UInt8} (hfront : 32 ∉ front) (back : List UInt8) :
    parseStatusLine response (front ++ 32 :: back) =
      match find (front ++ 32 :: back) 32 (front.length + 1) with
      | none => (setProtocolVersion response front, false)
      | some space2 =>
          ({ setProtocolVersion response front with
              statusCode := substr (front ++ 32 :: back) (front.length + 1)
                (space2 - front.length - 1)
              statusText := (front ++ 32 :: back).drop (space2 + 1) }, true) := by
  have hfirst : find ([] ++ front ++ 32 :: back) 32 ([] : List UInt8).length =
      some (([] : List UInt8).length + front.length) := find_append hfront
  have hfind : find (front ++ 32 :: back) 32 0 = some front.length := by simpa using hfirst
  have hprotocol : substr (front ++ 32 :: back) 0 front.length = front := by simp [substr]
  rw [parseStatusLine, hfind]
  cases hsecond : find (front ++ 32 :: back) 32 (front.length + 1) with
  | none => simp only [hprotocol, hsecond]
  | some space2 => simp only [hprotocol, hsecond]

theorem parseStatusLine_one {front back : List UInt8} (hfront : 32 ∉ front) (hback : 32 ∉ back) :
    parseStatusLine response (front ++ 32 :: back) =
      (setProtocolVersion response front, false) := by
  have hdrop : (front ++ 32 :: back).drop (front.length + 1) = back := by simp
  have hfind : find (front ++ 32 :: back) 32 (front.length + 1) = none :=
    find_eq_none.mpr (by rwa [hdrop])
  rw [parseStatusLine_space response hfront, hfind]

theorem parseStatusLine_two {front code : List UInt8} (hfront : 32 ∉ front) (hcode : 32 ∉ code)
    (text : List UInt8) :
    parseStatusLine response (front ++ 32 :: (code ++ 32 :: text)) =
      ({ setProtocolVersion response front with
          statusCode := code, statusText := text }, true) := by
  have hsplit : front ++ 32 :: (code ++ 32 :: text) = (front ++ [32]) ++ code ++ 32 :: text := by
    simp
  have hlength : front.length + 1 = (front ++ [32]).length := by simp
  have hfind : find (front ++ 32 :: (code ++ 32 :: text)) 32 (front.length + 1) =
      some (front.length + 1 + code.length) := by
    rw [hsplit, hlength]
    exact find_append hcode
  have hsubstr : substr (front ++ 32 :: (code ++ 32 :: text)) (front.length + 1)
      (front.length + 1 + code.length - front.length - 1) = code := by
    rw [substr, show front.length + 1 + code.length - front.length - 1 = code.length by omega]
    simp
  have hdrop : (front ++ 32 :: (code ++ 32 :: text)).drop (front.length + 1 + code.length + 1) =
      text := by
    rw [hsplit, show front.length + 1 + code.length + 1 =
      ((front ++ [32]) ++ code ++ [32]).length by simp; omega,
      show (front ++ [32]) ++ code ++ 32 :: text = ((front ++ [32]) ++ code ++ [32]) ++ text by
        simp, List.drop_left]
  rw [parseStatusLine_space response hfront, hfind]
  simp only [hsubstr, hdrop]

/-- The reader goes on after two spaces. -/
theorem parseStatusLine_snd (statusLine : List UInt8) :
    (parseStatusLine response statusLine).2 = decide (2 ≤ statusLine.count 32) := by
  rcases find_cases statusLine 32 with hnone | ⟨front, back, rfl, hfront⟩
  · rw [parseStatusLine_none response hnone, List.count_eq_zero.mpr hnone]
    rfl
  rcases find_cases back 32 with hback | ⟨code, text, rfl, hcode⟩
  · rw [parseStatusLine_one response hfront hback]
    simp [List.count_eq_zero.mpr hfront, List.count_eq_zero.mpr hback]
  · rw [parseStatusLine_two response hfront hcode]
    simp
    omega

/-- The status line has nothing to do with the headers and the body. -/
theorem parseStatusLine_frame (statusLine : List UInt8) :
    (parseStatusLine response statusLine).1.headers = response.headers ∧
      (parseStatusLine response statusLine).1.body = response.body := by
  unfold parseStatusLine
  split
  · exact ⟨rfl, rfl⟩
  · dsimp only
    split
    · exact ⟨headers_setProtocolVersion _ _, body_setProtocolVersion _ _⟩
    · exact ⟨headers_setProtocolVersion _ _, body_setProtocolVersion _ _⟩

end StatusLine

section Loops

variable {β : Type} [CharSource β] {s : Serial β} {limit : Option Int}

/-! ## The character reader and the line reader -/

theorem readChar_eq {bytes : List UInt8} (hinput : s.HasInputOn limit bytes) (fuel : Nat) :
    ∃ s', readChar (fuel + 1) s = .ok (bytes.headD 0, s') ∧ s'.HasInputOn limit bytes.tail := by
  obtain ⟨count, s', hread, hinput', hbacking⟩ := hinput.1.char fuel 0
  refine ⟨s', ?_, hinput', hbacking.trans hinput.2⟩
  rw [readChar, hread]
  rfl

theorem readLine_complete {text rest : List UInt8} (htext : 10 ∉ text)
    (hinput : s.HasInputOn limit (text ++ 10 :: rest)) {fuel : Nat} (hfuel : text.length < fuel)
    (result : List UInt8) :
    ∃ s', readLine fuel s result = .ok (result ++ strip text, s') ∧ s'.HasInputOn limit rest := by
  induction text generalizing s fuel result with
  | nil =>
      obtain ⟨fuel, rfl⟩ := Nat.exists_eq_succ_of_ne_zero (Nat.ne_of_gt hfuel)
      obtain ⟨s', hread, hinput'⟩ := readChar_eq hinput fuel
      refine ⟨s', ?_, hinput'⟩
      rw [readLine, hread]
      simp [strip, pure, Except.pure]
  | cons c text ih =>
      obtain ⟨fuel, rfl⟩ := Nat.exists_eq_succ_of_ne_zero (Nat.ne_of_gt (Nat.zero_lt_of_lt hfuel))
      rw [List.mem_cons, not_or] at htext
      obtain ⟨hc, htext⟩ := htext
      obtain ⟨s₁, hread, hinput₁⟩ := readChar_eq hinput fuel
      have hshort : text.length < fuel := Nat.lt_of_succ_lt_succ hfuel
      rw [readLine, hread, strip_cons]
      by_cases hreturn : c = 13
      · obtain ⟨s', hrest, hinput'⟩ := ih htext hinput₁ hshort result
        exact ⟨s', by simpa [hreturn] using hrest, hinput'⟩
      · obtain ⟨s', hrest, hinput'⟩ := ih htext hinput₁ hshort (result ++ [c])
        exact ⟨s', by simpa [hreturn, Ne.symm hc] using hrest, hinput'⟩

/-- Rounds that see no line feed, be it that they read zeros behind the end, are not
enough for the line reader. -/
theorem readLine_endless {bytes : List UInt8} {fuel : Nat} (hbytes : 10 ∉ bytes.take fuel)
    (hinput : s.HasInputOn limit bytes) (result : List UInt8) :
    readLine fuel s result = .error .outOfFuel := by
  induction fuel generalizing s bytes result with
  | zero => rfl
  | succ fuel ih =>
      obtain ⟨s', hread, hinput'⟩ := readChar_eq hinput fuel
      have hnext : 10 ∉ bytes.tail.take fuel ∧ bytes.headD 0 ≠ 10 := by
        cases bytes with
        | nil => exact ⟨by simp, by decide⟩
        | cons c rest =>
            rw [List.take_succ_cons, List.mem_cons, not_or] at hbytes
            exact ⟨hbytes.2, Ne.symm hbytes.1⟩
      obtain ⟨htail, hhead⟩ := hnext
      generalize bytes.headD 0 = c at hread hhead
      rw [readLine, hread, ok_bind]
      by_cases hreturn : c = 13
      · simpa [hreturn] using ih htail hinput' result
      · simpa [hreturn, hhead] using ih htail hinput' (result ++ [c])

/-! ## The header loop -/

/-- A line reader that has not got to the line feed has used up its fuel. -/
theorem readLine_short {text rest : List UInt8} (htext : 10 ∉ text)
    (hinput : s.HasInputOn limit (text ++ 10 :: rest)) {fuel : Nat} (hfuel : fuel ≤ text.length)
    (result : List UInt8) : readLine fuel s result = .error .outOfFuel := by
  apply readLine_endless _ hinput
  rw [List.take_append_of_le_length hfuel]
  exact fun hmem => htext (List.mem_of_mem_take hmem)

/-- Up to the empty line the header loop collects the header lines, unless its fuel,
which the length of the input bounds, is used up. -/
theorem readHeaders_complete {bytes : List UInt8} (hempty : [] ∈ completeLines bytes)
    (hinput : s.HasInputOn limit bytes) (fuel : Nat) (headers : Headers) :
    (∃ s', readHeaders fuel s headers = .ok (headersOf headers (completeLines bytes), s') ∧
      s'.HasInputOn limit (afterHeaders true bytes)) ∨
    (fuel ≤ bytes.length ∧ readHeaders fuel s headers = .error .outOfFuel) := by
  -- by induction on the fuel: each line uses up its own bytes, so what is left is enough
  induction fuel generalizing s bytes headers with
  | zero => exact Or.inr ⟨Nat.zero_le _, rfl⟩
  | succ fuel ih =>
      rcases find_cases bytes 10 with hnone | ⟨text, rest, rfl, htext⟩
      · rw [completeLines_of_not_mem hnone] at hempty
        cases hempty
      have hlength : (text ++ 10 :: rest).length = text.length + rest.length + 1 := by
        simp [Nat.add_assoc]
      by_cases hfuel : fuel + 1 ≤ text.length
      · refine Or.inr ⟨by omega, ?_⟩
        rw [readHeaders, readLine_short htext hinput hfuel]
        rfl
      obtain ⟨s₁, hline, hinput₁⟩ := readLine_complete htext hinput (Nat.not_le.mp hfuel) []
      rw [completeLines_append htext] at hempty ⊢
      rw [afterHeaders_append htext, headersOf, headerLines, List.takeWhile_cons, readHeaders,
        hline]
      by_cases hstrip : strip text = []
      · refine Or.inl ⟨s₁, ?_, ?_⟩
        · simp [hstrip, pure, Except.pure]
        · simpa [hstrip] using hinput₁
      · have hrest : [] ∈ completeLines rest :=
          (List.mem_cons.mp hempty).resolve_left (Ne.symm hstrip)
        rcases ih hrest hinput₁ (setHeader headers (strip text)) with
          ⟨s', hheaders, hinput'⟩ | ⟨hshort, hheaders⟩
        · refine Or.inl ⟨s', ?_, ?_⟩
          · simpa [hstrip, headersOf, headerLines] using hheaders
          · simpa [hstrip] using hinput'
        · refine Or.inr ⟨by omega, ?_⟩
          simpa [hstrip] using hheaders

theorem readHeaders_endless {bytes : List UInt8} (hnone : [] ∉ completeLines bytes)
    (hinput : s.HasInputOn limit bytes) (fuel : Nat) (headers : Headers) :
    readHeaders fuel s headers = .error .outOfFuel := by
  induction fuel generalizing s bytes headers with
  | zero => rfl
  | succ fuel ih =>
      rcases find_cases bytes 10 with hbytes | ⟨text, rest, rfl, htext⟩
      · rw [readHeaders, readLine_endless (fun hmem => hbytes (List.mem_of_mem_take hmem)) hinput]
        rfl
      rw [completeLines_append htext, List.mem_cons, not_or] at hnone
      obtain ⟨hstrip, hrest⟩ := hnone
      by_cases hfuel : fuel + 1 ≤ text.length
      · rw [readHeaders, readLine_short htext hinput hfuel]
        rfl
      · obtain ⟨s₁, hline, hinput₁⟩ := readLine_complete htext hinput (Nat.not_le.mp hfuel) []
        rw [readHeaders, hline]
        simpa [Ne.symm hstrip] using ih hrest hinput₁ (setHeader headers (strip text))

/-! ## The head -/

/-- A status line with fewer than two spaces ends the response. -/
theorem deserialize_stops {text rest : List UInt8} (htext : 10 ∉ text)
    (hinput : s.HasInputOn limit (text ++ 10 :: rest)) (response : HttpResponse)
    (hspaces : (strip text).count 32 < 2) (malloc : Nat → Bool) (fuel : Nat) :
    (∃ s', deserializeWith malloc fuel s response =
      .ok ((parseStatusLine response (strip text)).1, s')) ∨
    (fuel ≤ (text ++ 10 :: rest).length ∧
      deserializeWith malloc fuel s response = .error .outOfFuel) := by
  have hstop : (parseStatusLine response (strip text)).2 = false := by
    rw [parseStatusLine_snd, decide_eq_false (by omega)]
  by_cases hfuel : fuel ≤ text.length
  · refine Or.inr ⟨by rw [List.length_append]; omega, ?_⟩
    rw [deserializeWith, readLine_short htext hinput hfuel]
    rfl
  · obtain ⟨s', hline, -⟩ := readLine_complete htext hinput (Nat.not_le.mp hfuel) []
    refine Or.inl ⟨s', ?_⟩
    rw [deserializeWith, hline]
    simp [hstop, pure, Except.pure]

/-- After the head the body is read. -/
theorem deserialize_head {text rest : List UInt8} (htext : 10 ∉ text)
    (hinput : s.HasInputOn limit (text ++ 10 :: rest)) (response : HttpResponse)
    (hspaces : 2 ≤ (strip text).count 32) (hempty : [] ∈ completeLines rest)
    (malloc : Nat → Bool) (fuel : Nat) :
    (∃ s', deserializeWith malloc fuel s response = readBody malloc fuel s'
        { (parseStatusLine response (strip text)).1 with
          headers := headersOf response.headers (completeLines rest) } ∧
      s'.HasInputOn limit (afterHeaders true rest) ∧ 0 < fuel) ∨
    (fuel ≤ (text ++ 10 :: rest).length ∧
      deserializeWith malloc fuel s response = .error .outOfFuel) := by
  have hgo : (parseStatusLine response (strip text)).2 = true := by
    rw [parseStatusLine_snd, decide_eq_true hspaces]
  have hframe := (parseStatusLine_frame response (strip text)).1
  rw [List.length_append, List.length_cons]
  by_cases hfuel : fuel ≤ text.length
  · refine Or.inr ⟨by omega, ?_⟩
    rw [deserializeWith, readLine_short htext hinput hfuel]
    rfl
  obtain ⟨s₁, hline, hinput₁⟩ := readLine_complete htext hinput (Nat.not_le.mp hfuel) []
  rw [deserializeWith, hline]
  rcases readHeaders_complete hempty hinput₁ fuel response.headers with
    ⟨s', hheaders, hinput'⟩ | ⟨hshort, hheaders⟩
  · refine Or.inl ⟨s', ?_, hinput', by omega⟩
    simp [hgo, hframe, hheaders]
  · refine Or.inr ⟨by omega, ?_⟩
    simp only [ok_bind, List.nil_append, hgo, if_true, hframe, hheaders]
    rfl

/-- Where the head does not end, neither does the reader. -/
theorem deserialize_endless {bytes : List UInt8} (hinput : s.HasInputOn limit bytes)
    (hhead : ¬HeadComplete bytes) (malloc : Nat → Bool) (fuel : Nat) (response : HttpResponse) :
    deserializeWith malloc fuel s response = .error .outOfFuel := by
  rcases find_cases bytes 10 with hbytes | ⟨text, rest, rfl, htext⟩
  · rw [deserializeWith, readLine_endless (fun hmem => hbytes (List.mem_of_mem_take hmem)) hinput]
    rfl
  rw [HeadComplete, completeLines_append htext, not_or, Nat.not_lt] at hhead
  obtain ⟨hspaces, hnone⟩ := hhead
  by_cases hfuel : fuel ≤ text.length
  · rw [deserializeWith, readLine_short htext hinput hfuel]
    rfl
  · obtain ⟨s₁, hline, hinput₁⟩ := readLine_complete htext hinput (Nat.not_le.mp hfuel) []
    have hgo : (parseStatusLine response (strip text)).2 = true := by
      rw [parseStatusLine_snd, decide_eq_true hspaces]
    rw [deserializeWith, hline]
    simp only [ok_bind, List.nil_append, hgo, if_true, readHeaders_endless hnone hinput₁]
    rfl

end Loops
end Http
end Iostreams
