import Iostreams.Foundation.ByteString
import Mathlib.Data.List.Induction

/-!
# Dotted quads

`string_is_ipv4` collects digits in an array of four segments, going on to the next segment at
each dot, and then looks at the number in each of them.  It accepts exactly the dotted quads, never
leaves the array and never throws: a segment has three digits at most, so there is a number in it
that `std::stoll` reads.
-/

namespace Iostreams
namespace Net

open Foundation

/-- What keeps a call from returning. -/
inductive Failure where
  /-- There is no element of this index in the array. -/
  | element (index : Nat)
  | exception (what : String)

/-- The variables of the loop over the characters. -/
structure Ipv4Scan where
  segments : List (List UInt8) := List.replicate 4 []
  segmentIndex : Nat := 0

/-- The loop over the characters; `none` stands for `return false`. -/
def scanIpv4 : List UInt8 → Ipv4Scan → Except Failure (Option Ipv4Scan)
  | [], scan => .ok (some scan)
  | ch :: rest, scan =>
      if isDigit ch then
        match scan.segments[scan.segmentIndex]? with
        | none => .error (.element scan.segmentIndex)
        | some segment =>
            if (segment ++ [ch]).length > 3 then .ok none
            else
              scanIpv4 rest
                { scan with segments := scan.segments.set scan.segmentIndex (segment ++ [ch]) }
      else if ch = 46 then
        if scan.segmentIndex ≥ 3 then .ok none
        else scanIpv4 rest { scan with segmentIndex := scan.segmentIndex + 1 }
      else .ok none

/-- The loop over the segments. -/
def checkSegments (segments : List (List UInt8)) : List Nat → Except Failure Bool
  | [] => .ok true
  | segindx :: rest =>
      match segments[segindx]? with
      | none => .error (.element segindx)
      | some segment =>
          if segment = [] then .ok false
          else
            match stoll segment with
            | .error what => .error (.exception what)
            | .ok segy => if segy > 255 ∨ segy < 0 then .ok false else checkSegments segments rest

/-- `string_is_ipv4(str)` -/
def stringIsIpv4 (str : List UInt8) : Except Failure Bool :=
  if str = [] then .ok false
  else
    match scanIpv4 str {} with
    | .error failure => .error failure
    | .ok none => .ok false
    | .ok (some scan) =>
        if scan.segmentIndex ≠ 3 then .ok false else checkSegments scan.segments (List.range 4)

/-- One to three digits of a number up to 255. -/
structure Octet (group : List UInt8) : Prop where
  ne_nil : group ≠ []
  length_le : group.length ≤ 3
  digits : ∀ c ∈ group, isDigit c = true
  value_le : digitsValue group ≤ 255

/-- Four groups with dots between them. -/
def DottedQuad (str : List UInt8) : Prop :=
  ∃ a b c d, str = a ++ [46] ++ b ++ [46] ++ c ++ [46] ++ d ∧ Octet a ∧ Octet b ∧ Octet c ∧ Octet d

/-! ## The state of the scan -/

/-- The segments before the current one, the current one, and the ones after it, which are still
empty. -/
def reading (done : List (List UInt8)) (current : List UInt8) : Ipv4Scan where
  segments := done ++ current :: List.replicate (3 - done.length) []
  segmentIndex := done.length

/-- The text that was read. -/
def quadText (done : List (List UInt8)) (current : List UInt8) : List UInt8 :=
  done.flatMap (· ++ [46]) ++ current

/-- A segment may have up to three digits. -/
def ShortDigits (group : List UInt8) : Prop :=
  group.length ≤ 3 ∧ ∀ c ∈ group, isDigit c = true

/-- A digit goes to the current segment if there are less than three in it. -/
theorem scanIpv4_digit {ch : UInt8} (hch : isDigit ch = true) (rest : List UInt8)
    (done : List (List UInt8)) (current : List UInt8) :
    scanIpv4 (ch :: rest) (reading done current) =
      if current.length < 3 then scanIpv4 rest (reading done (current ++ [ch])) else .ok none := by
  have hcurrent : (reading done current).segments[(reading done current).segmentIndex]? =
      some current := by
    simp [reading]
  have hset : (reading done current).segments.set (reading done current).segmentIndex
      (current ++ [ch]) = (reading done (current ++ [ch])).segments := by
    simp [reading]
  rw [scanIpv4, if_pos hch, hcurrent]
  simp only [hset, List.length_append, List.length_singleton]
  by_cases hshort : current.length < 3
  · rw [if_pos hshort, if_neg (by omega)]
    rfl
  · rw [if_neg hshort, if_pos (by omega)]

/-- A dot ends the current segment if there is another one. -/
theorem scanIpv4_dot (rest : List UInt8) (done : List (List UInt8)) (current : List UInt8) :
    scanIpv4 (46 :: rest) (reading done current) =
      if done.length < 3 then scanIpv4 rest (reading (done ++ [current]) []) else .ok none := by
  rw [scanIpv4, if_neg (by decide), if_pos rfl]
  by_cases hanother : done.length < 3
  · have hempty : List.replicate (3 - done.length) ([] : List UInt8) =
        [] :: List.replicate (3 - (done ++ [current]).length) [] := by
      rw [← List.replicate_succ, List.length_append, List.length_singleton]
      congr 1
      omega
    rw [if_pos hanother, if_neg (show ¬(reading done current).segmentIndex ≥ 3 by
      simpa [reading] using hanother)]
    simp only [reading, hempty, List.append_assoc, List.cons_append, List.nil_append,
      List.length_append, List.length_singleton]
  · rw [if_neg hanother, if_pos (show (reading done current).segmentIndex ≥ 3 by
      simpa [reading] using hanother)]

/-- A whole group of digits. -/
theorem scanIpv4_group {group : List UInt8} (hgroup : ∀ c ∈ group, isDigit c = true)
    (rest : List UInt8) (done : List (List UInt8)) {current : List UInt8}
    (hlength : (current ++ group).length ≤ 3) :
    scanIpv4 (group ++ rest) (reading done current) =
      scanIpv4 rest (reading done (current ++ group)) := by
  induction group generalizing current with
  | nil => rw [List.nil_append, List.append_nil]
  | cons ch group ih =>
      rw [List.length_append, List.length_cons] at hlength
      rw [List.cons_append, scanIpv4_digit (hgroup ch List.mem_cons_self), if_pos (by omega),
        ih (fun c hc => hgroup c (List.mem_cons_of_mem _ hc))
          (by rw [List.length_append, List.length_append, List.length_singleton]; omega),
        List.append_assoc, List.singleton_append]

/-- The loop returns, and unless it returns `false` it has read the whole text. -/
theorem scanIpv4_reading (rest : List UInt8) {done : List (List UInt8)} {current : List UInt8}
    (hdone : done.length ≤ 3) (hshort : ∀ group ∈ current :: done, ShortDigits group) :
    ∃ result, scanIpv4 rest (reading done current) = .ok result ∧
      ∀ final, result = some final → ∃ done' current', final = reading done' current' ∧
        done'.length ≤ 3 ∧ quadText done' current' = quadText done current ++ rest ∧
        ∀ group ∈ current' :: done', ShortDigits group := by
  induction rest generalizing done current with
  | nil =>
      refine ⟨_, rfl, ?_⟩
      intro final hfinal
      cases hfinal
      exact ⟨done, current, rfl, hdone, (List.append_nil _).symm, hshort⟩
  | cons ch rest ih =>
      by_cases hch : isDigit ch = true
      · rw [scanIpv4_digit hch]
        by_cases hroom : current.length < 3
        · rw [if_pos hroom]
          have hnext : ShortDigits (current ++ [ch]) := by
            refine ⟨by rw [List.length_append, List.length_singleton]; omega, fun c hc => ?_⟩
            rcases List.mem_append.mp hc with hc | hc
            · exact (hshort current List.mem_cons_self).2 c hc
            · rwa [List.mem_singleton.mp hc]
          obtain ⟨result, hresult, hfinal⟩ := ih hdone (List.forall_mem_cons.mpr
            ⟨hnext, fun group hgroup => hshort group (List.mem_cons_of_mem _ hgroup)⟩)
          refine ⟨result, hresult, fun final hsome => ?_⟩
          obtain ⟨done', current', hreading, hdone', htext, hshort'⟩ := hfinal final hsome
          refine ⟨done', current', hreading, hdone', ?_, hshort'⟩
          rw [htext, quadText, quadText]
          simp only [List.append_assoc, List.singleton_append]
        · rw [if_neg hroom]
          exact ⟨none, rfl, nofun⟩
      · by_cases hdot : ch = 46
        · rw [hdot, scanIpv4_dot]
          by_cases hroom : done.length < 3
          · rw [if_pos hroom]
            have hall : ∀ group ∈ [] :: (done ++ [current]), ShortDigits group := by
              intro group hgroup
              rcases List.mem_cons.mp hgroup with rfl | hgroup
              · exact ⟨Nat.zero_le 3, nofun⟩
              · apply hshort group
                rwa [List.mem_append, List.mem_singleton, or_comm, ← List.mem_cons] at hgroup
            obtain ⟨result, hresult, hfinal⟩ := ih
              (by rw [List.length_append, List.length_singleton]; omega) hall
            refine ⟨result, hresult, fun final hsome => ?_⟩
            obtain ⟨done', current', hreading, hdone', htext, hshort'⟩ := hfinal final hsome
            refine ⟨done', current', hreading, hdone', ?_, hshort'⟩
            rw [htext, quadText, quadText]
            simp only [List.flatMap_append, List.flatMap_cons, List.flatMap_nil,
              List.append_assoc, List.append_nil, List.singleton_append]
          · rw [if_neg hroom]
            exact ⟨none, rfl, nofun⟩
        · rw [scanIpv4, if_neg hch, if_neg hdot]
          exact ⟨none, rfl, nofun⟩

/-! ## The numbers -/

/-- Three digits denote less than a thousand. -/
theorem digitsValue_lt {digits : List UInt8} (hdigits : ∀ c ∈ digits, isDigit c = true) :
    digitsValue digits < 10 ^ digits.length := by
  induction digits using List.reverseRecOn with
  | nil => exact Nat.zero_lt_one
  | append_singleton digits c ih =>
      have hprefix := ih fun d hd => hdigits d (List.mem_append_left _ hd)
      have hc := isDigit_bounds (hdigits c (List.mem_append_right _ (List.mem_singleton_self c)))
      rw [digitsValue, List.foldl_append, List.foldl_cons, List.foldl_nil, List.length_append,
        List.length_singleton, Nat.pow_succ]
      rw [digitsValue] at hprefix
      omega

theorem stoll_short {group : List UInt8} (hshort : ShortDigits group) (hne : group ≠ []) :
    stoll group = .ok (digitsValue group : Int) := by
  have hread := @stoll_digits [] group [] nofun hshort.2 hne nofun
  have hlt : digitsValue group < 10 ^ 3 :=
    Nat.lt_of_lt_of_le (digitsValue_lt hshort.2) (Nat.pow_le_pow_right (by decide) hshort.1)
  rw [List.nil_append, List.append_nil] at hread
  rw [hread, inLongLong, if_pos (by omega)]

/-- One segment is an octet, or the answer is `false`. -/
theorem checkSegments_cons {segments : List (List UInt8)} {segindx : Nat} {segment : List UInt8}
    (hsegment : segments[segindx]? = some segment) (hshort : ShortDigits segment)
    (rest : List Nat) [Decidable (Octet segment)] :
    checkSegments segments (segindx :: rest) =
      if Octet segment then checkSegments segments rest else .ok false := by
  rw [checkSegments, hsegment]
  simp only
  by_cases hne : segment = []
  · rw [if_pos hne, if_neg (fun hoctet => hoctet.ne_nil hne)]
  · rw [if_neg hne, stoll_short hshort hne]
    simp only
    by_cases hvalue : digitsValue segment ≤ 255
    · rw [if_neg (by omega), if_pos ⟨hne, hshort.1, hshort.2, hvalue⟩]
    · rw [if_pos (by omega), if_neg (fun hoctet => hvalue hoctet.value_le)]

/-- The loop over the four segments. -/
theorem checkSegments_four {a b c d : List UInt8}
    (hshort : ∀ group ∈ [a, b, c, d], ShortDigits group) :
    ∃ result, checkSegments [a, b, c, d] (List.range 4) = .ok result ∧
      (result = true ↔ Octet a ∧ Octet b ∧ Octet c ∧ Octet d) := by
  classical
  have ha := hshort a (by simp)
  have hb := hshort b (by simp)
  have hc := hshort c (by simp)
  have hd := hshort d (by simp)
  rw [show List.range 4 = [0, 1, 2, 3] from rfl, checkSegments_cons rfl ha,
    checkSegments_cons rfl hb, checkSegments_cons rfl hc, checkSegments_cons rfl hd, checkSegments]
  split_ifs with hoctetA hoctetB hoctetC hoctetD
  · exact ⟨true, rfl, iff_of_true rfl ⟨hoctetA, hoctetB, hoctetC, hoctetD⟩⟩
  · exact ⟨false, rfl, iff_of_false Bool.false_ne_true fun hall => hoctetD hall.2.2.2⟩
  · exact ⟨false, rfl, iff_of_false Bool.false_ne_true fun hall => hoctetC hall.2.2.1⟩
  · exact ⟨false, rfl, iff_of_false Bool.false_ne_true fun hall => hoctetB hall.2.1⟩
  · exact ⟨false, rfl, iff_of_false Bool.false_ne_true fun hall => hoctetA hall.1⟩

/-! ## Accepted strings -/

/-- The loop reads a dotted quad to its end. -/
theorem scanIpv4_quad {a b c d : List UInt8}
    (hshort : ∀ group ∈ [a, b, c, d], ShortDigits group) :
    scanIpv4 (a ++ [46] ++ b ++ [46] ++ c ++ [46] ++ d) {} = .ok (some (reading [a, b, c] d)) := by
  have hstart : ({} : Ipv4Scan) = reading [] [] := rfl
  have hgroup : ∀ group ∈ [a, b, c, d], ∀ rest done, scanIpv4 (group ++ rest) (reading done []) =
      scanIpv4 rest (reading done group) := by
    intro group hmem rest done
    have hread := @scanIpv4_group group (hshort group hmem).2 rest done [] (hshort group hmem).1
    rwa [List.nil_append] at hread
  have htext : a ++ [46] ++ b ++ [46] ++ c ++ [46] ++ d =
      a ++ 46 :: (b ++ 46 :: (c ++ 46 :: (d ++ []))) := by
    simp
  rw [hstart, htext, hgroup a (by simp), scanIpv4_dot, if_pos (by decide), hgroup b (by simp),
    scanIpv4_dot, if_pos (by simp), hgroup c (by simp), scanIpv4_dot, if_pos (by simp),
    hgroup d (by simp), scanIpv4]
  rfl

/-- The groups of a dotted quad are short. -/
theorem shortDigits_of_octets {a b c d : List UInt8}
    (hoctets : Octet a ∧ Octet b ∧ Octet c ∧ Octet d) :
    ∀ group ∈ [a, b, c, d], ShortDigits group := by
  obtain ⟨ha, hb, hc, hd⟩ := hoctets
  intro group hgroup
  simp only [List.mem_cons, List.not_mem_nil, or_false] at hgroup
  rcases hgroup with rfl | rfl | rfl | rfl
  · exact ⟨ha.length_le, ha.digits⟩
  · exact ⟨hb.length_le, hb.digits⟩
  · exact ⟨hc.length_le, hc.digits⟩
  · exact ⟨hd.length_le, hd.digits⟩

/-- What the loop reads of a string decides whether it is a dotted quad. -/
theorem dottedQuad_iff {str : List UInt8} {result : Option Ipv4Scan}
    (hscan : scanIpv4 str {} = .ok result) :
    DottedQuad str ↔ ∃ a b c d, result = some (reading [a, b, c] d) ∧
      str = a ++ [46] ++ b ++ [46] ++ c ++ [46] ++ d ∧
      Octet a ∧ Octet b ∧ Octet c ∧ Octet d := by
  constructor
  · rintro ⟨a, b, c, d, rfl, hoctets⟩
    rw [scanIpv4_quad (shortDigits_of_octets hoctets)] at hscan
    exact ⟨a, b, c, d, (Except.ok.inj hscan).symm, rfl, hoctets⟩
  · rintro ⟨a, b, c, d, -, htext, hoctets⟩
    exact ⟨a, b, c, d, htext, hoctets⟩

/-- **IPv4.**  `string_is_ipv4` returns for every string, and returns `true` exactly for dotted
quads. -/
theorem stringIsIpv4_iff (str : List UInt8) :
    ∃ result, stringIsIpv4 str = .ok result ∧ (result = true ↔ DottedQuad str) := by
  have hstart : reading [] [] = ({} : Ipv4Scan) := rfl
  obtain ⟨scanned, hscan, hfinal⟩ := @scanIpv4_reading str [] [] (Nat.zero_le 3)
    (by simp [ShortDigits])
  rw [hstart] at hscan
  rw [dottedQuad_iff hscan]
  unfold stringIsIpv4
  by_cases hempty : str = []
  · rw [if_pos hempty]
    refine ⟨false, rfl, iff_of_false Bool.false_ne_true ?_⟩
    rintro ⟨a, b, c, d, -, htext, -⟩
    rw [hempty] at htext
    simp at htext
  rw [if_neg hempty, hscan]
  cases scanned with
  | none => exact ⟨false, rfl, iff_of_false Bool.false_ne_true nofun⟩
  | some final =>
      obtain ⟨done, current, rfl, -, htext, hshort⟩ := hfinal final rfl
      by_cases hthree : done.length = 3
      · obtain ⟨a, b, c, rfl⟩ := List.length_eq_three.mp hthree
        have hgroups : ∀ group ∈ [a, b, c, current], ShortDigits group := by
          intro group hgroup
          apply hshort group
          simp only [List.mem_cons, List.not_mem_nil, or_false] at hgroup ⊢
          tauto
        obtain ⟨result, hcheck, hoctets⟩ := checkSegments_four hgroups
        refine ⟨result, hcheck, hoctets.trans ?_⟩
        constructor
        · intro hall
          refine ⟨a, b, c, current, rfl, ?_, hall⟩
          simpa [quadText] using htext.symm
        · rintro ⟨a', b', c', d', hsame, -, hall⟩
          cases hsame
          exact hall
      · -- the loop ended in another segment than the last one
        have hindex : (reading done current).segmentIndex ≠ 3 := hthree
        simp only [if_pos hindex]
        refine ⟨false, rfl, iff_of_false Bool.false_ne_true ?_⟩
        rintro ⟨a, b, c, d, hsame, -⟩
        rw [Option.some.inj hsame] at hindex
        exact hindex rfl

/-- `192.168.1.1` is one, `1.1.1.256` is not. -/
example : (stringIsIpv4
    [49, 57, 50, 46, 49, 54, 56, 46, 49, 46, 49] matches .ok true) ∧
    (stringIsIpv4 [49, 46, 49, 46, 49, 46, 50, 53, 54] matches .ok false) := by
  decide

end Net
end Iostreams
