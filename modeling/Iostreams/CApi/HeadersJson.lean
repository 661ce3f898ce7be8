import Iostreams.Foundation.ByteString
import Iostreams.Foundation.Json

/-!
# The headers as JSON

`headers_to_json` puts the names and the values of a header map between quotation marks as they
are.  The text denotes the map exactly if none of them has a character that JSON escapes: the text
has only the room that the map takes, so there is none for an escape sequence.
-/

namespace Iostreams

open Foundation

/-- `"name":"value"` -/
def jsonPair (pair : List UInt8 × List UInt8) : List UInt8 :=
  [34] ++ pair.1 ++ [34, 58, 34] ++ pair.2 ++ [34]

/-- `headers_to_json(headers)`; the entries are in the order in which they are iterated over. -/
def headersToJson (headers : List (List UInt8 × List UInt8)) : List UInt8 :=
  let (json, _) := headers.foldl
    (fun (json, first) pair =>
      let json := if !first then json ++ [44] else json
      (json ++ jsonPair pair, false))
    ([123], true)
  json ++ [125]

/-- A header map of ASCII strings. -/
structure AsciiHeaders where
  entries : List (List UInt8 × List UInt8)
  names_nodup : (entries.map Prod.fst).Nodup
  ascii : ∀ entry ∈ entries, (∀ c ∈ entry.1, c < 128) ∧ ∀ c ∈ entry.2, c < 128

/-- The code points of ASCII text. -/
def points (text : List UInt8) : List Nat := text.map UInt8.toNat

/-- An entry as a member of an object. -/
def jsonMember (entry : List UInt8 × List UInt8) : List Nat × Json :=
  (points entry.1, .string (points entry.2))

/-- No control character, no quotation mark and no backslash. -/
def PlainText (text : List UInt8) : Prop := ∀ c ∈ text, 32 ≤ c ∧ c ≠ 34 ∧ c ≠ 92

namespace AsciiHeaders

/-- The text denotes an object with exactly the entries of the map. -/
def Faithful (headers : AsciiHeaders) : Prop :=
  ∃ members, Json.Text (points (headersToJson headers.entries)) (.object members) ∧
    members.Perm (headers.entries.map jsonMember)

def Plain (headers : AsciiHeaders) : Prop :=
  ∀ entry ∈ headers.entries, PlainText entry.1 ∧ PlainText entry.2

end AsciiHeaders

/-! ## The text -/

/-- A comma and a pair for each entry. -/
def morePairs (headers : List (List UInt8 × List UInt8)) : List UInt8 :=
  headers.flatMap fun pair => 44 :: jsonPair pair

theorem morePairs_cons (pair : List UInt8 × List UInt8)
    (headers : List (List UInt8 × List UInt8)) :
    morePairs (pair :: headers) = 44 :: (jsonPair pair ++ morePairs headers) := rfl

theorem headersToJson_nil : headersToJson [] = [123, 125] := rfl

theorem headersToJson_cons (pair : List UInt8 × List UInt8)
    (headers : List (List UInt8 × List UInt8)) :
    headersToJson (pair :: headers) = 123 :: (jsonPair pair ++ (morePairs headers ++ [125])) := by
  have hmore : ∀ json : List UInt8, headers.foldl
      (fun (json, first) pair =>
        let json := if !first then json ++ [44] else json
        (json ++ jsonPair pair, false))
      (json, false) = (json ++ morePairs headers, false) := by
    induction headers with
    | nil => exact fun json => congrArg (·, false) (List.append_nil json).symm
    | cons next headers ih =>
        intro json
        rw [List.foldl_cons]
        simp only [Bool.not_false, if_true]
        rw [ih, morePairs_cons]
        simp only [List.append_assoc, List.cons_append, List.nil_append]
  unfold headersToJson
  rw [List.foldl_cons]
  simp only [Bool.not_true, Bool.false_eq_true, if_false]
  rw [hmore]
  simp only [List.append_assoc, List.cons_append, List.nil_append]

/-- The text has only the room that the object takes. -/
theorem length_headersToJson (headers : List (List UInt8 × List UInt8)) :
    (points (headersToJson headers)).length = Json.objectRoom (headers.map jsonMember) := by
  have hpair : ∀ pair, (jsonPair pair).length = Json.memberRoom (jsonMember pair) := by
    intro pair
    simp only [jsonPair, jsonMember, points, Json.memberRoom, Json.valueRoom, List.length_append,
      List.length_map, List.length_cons, List.length_nil]
    omega
  have hmore : ∀ headers : List (List UInt8 × List UInt8), (morePairs headers).length =
      ((headers.map jsonMember).map Json.memberRoom).sum + headers.length := by
    intro headers
    induction headers with
    | nil => rfl
    | cons pair headers ih =>
        rw [morePairs_cons, List.length_cons, List.length_append, ih, hpair, List.map_cons,
          List.map_cons, List.sum_cons, List.length_cons]
        omega
  rw [points, List.length_map, Json.objectRoom, List.length_map]
  cases headers with
  | nil => rfl
  | cons pair headers =>
      rw [headersToJson_cons, List.length_cons, List.length_append, List.length_append, hpair,
        hmore, List.map_cons, List.map_cons, List.sum_cons, List.length_cons, List.length_cons,
        List.length_nil]
      omega

/-! ## Plain headers -/

theorem unescaped_points {text : List UInt8} :
    (∀ c ∈ points text, Json.Unescaped c) ↔ PlainText text := by
  have hchar : ∀ c : UInt8, Json.Unescaped c.toNat ↔ 32 ≤ c ∧ c ≠ 34 ∧ c ≠ 92 := by
    intro c
    have hlt := c.toNat_lt
    have hne : ∀ d : UInt8, c ≠ d ↔ c.toNat ≠ d.toNat := fun d => UInt8.toNat_inj.not.symm
    rw [Json.Unescaped, UInt8.le_iff_toNat_le, hne, hne]
    simp only [UInt8.toNat_ofNat]
    omega
  simp only [points, List.forall_mem_map, hchar]
  rfl

theorem points_append (front back : List UInt8) :
    points (front ++ back) = points front ++ points back := List.map_append

/-- The pair of a plain entry denotes it. -/
theorem padded_jsonPair {pair : List UInt8 × List UInt8}
    (hplain : PlainText pair.1 ∧ PlainText pair.2) :
    Json.Padded (Json.Member Json.Value) (points (jsonPair pair)) (jsonMember pair) := by
  have hname := Json.Chars.plain (unescaped_points.mpr hplain.1)
  have hvalue := Json.Value.string (Json.Chars.plain (unescaped_points.mpr hplain.2))
  have hmember := Json.Member.mk hname Json.blank_nil Json.blank_nil hvalue
  have htext : points (jsonPair pair) =
      34 :: (points pair.1 ++ 34 :: ([] ++ 58 :: ([] ++ 34 :: (points pair.2 ++ [34])))) := by
    simp [jsonPair, points]
  rw [htext]
  exact Json.padded_of_item hmember

theorem separated_morePairs {pair : List UInt8 × List UInt8}
    {headers : List (List UInt8 × List UInt8)}
    (hplain : ∀ entry ∈ pair :: headers, PlainText entry.1 ∧ PlainText entry.2) :
    Json.Separated (Json.Padded (Json.Member Json.Value))
      (points (jsonPair pair ++ morePairs headers)) ((pair :: headers).map jsonMember) := by
  induction headers generalizing pair with
  | nil =>
      rw [morePairs, List.flatMap_nil, List.append_nil]
      exact .one (padded_jsonPair (hplain pair List.mem_cons_self))
  | cons next headers ih =>
      have hrest := ih fun entry hentry => hplain entry (List.mem_cons_of_mem _ hentry)
      rw [morePairs_cons, points_append]
      exact .more (padded_jsonPair (hplain pair List.mem_cons_self)) hrest

/-- The text of plain headers denotes them, in their order. -/
theorem value_headersToJson {headers : List (List UInt8 × List UInt8)}
    (hplain : ∀ entry ∈ headers, PlainText entry.1 ∧ PlainText entry.2) :
    Json.Value (points (headersToJson headers)) (.object (headers.map jsonMember)) := by
  cases headers with
  | nil => exact .emptyObject Json.blank_nil
  | cons pair headers =>
      have htext : points (headersToJson (pair :: headers)) =
          123 :: (points (jsonPair pair ++ morePairs headers) ++ [125]) := by
        rw [headersToJson_cons, ← List.append_assoc, points, List.map_cons, List.map_append]
        rfl
      rw [htext]
      exact .object (separated_morePairs hplain)

/-- A pair of plain strings is read back from the text that starts with it. -/
theorem jsonPair_inj {pair pair' : List UInt8 × List UInt8} {rest rest' : List UInt8}
    (hplain : PlainText pair.1 ∧ PlainText pair.2)
    (hplain' : PlainText pair'.1 ∧ PlainText pair'.2)
    (hsame : jsonPair pair ++ rest = jsonPair pair' ++ rest') : pair = pair' ∧ rest = rest' := by
  have hquote : ∀ {text : List UInt8}, PlainText text → 34 ∉ text := fun htext hmem =>
    (htext 34 hmem).2.1 rfl
  have hparts : ∀ (pair : List UInt8 × List UInt8) (rest : List UInt8), jsonPair pair ++ rest =
      34 :: (pair.1 ++ 34 :: (58 :: 34 :: (pair.2 ++ 34 :: rest))) := by
    intro pair rest
    simp only [jsonPair, List.append_assoc, List.cons_append, List.nil_append]
  rw [hparts, hparts] at hsame
  obtain ⟨hname, hvalues⟩ :=
    append_cons_inj (hquote hplain.1) (hquote hplain'.1) (List.cons.inj hsame).2
  obtain ⟨hvalue, hrest⟩ := append_cons_inj (hquote hplain.2) (hquote hplain'.2)
    (List.cons.inj (List.cons.inj hvalues).2).2
  exact ⟨Prod.ext hname hvalue, hrest⟩

/-- Plain entries are read back one after the other. -/
theorem morePairs_inj {headers headers' : List (List UInt8 × List UInt8)}
    (hplain : ∀ entry ∈ headers, PlainText entry.1 ∧ PlainText entry.2)
    (hplain' : ∀ entry ∈ headers', PlainText entry.1 ∧ PlainText entry.2)
    (hsame : morePairs headers ++ [125] = morePairs headers' ++ [125]) : headers = headers' := by
  induction headers generalizing headers' with
  | nil =>
      cases headers' with
      | nil => rfl
      | cons pair' headers' => cases hsame
  | cons pair headers ih =>
      cases headers' with
      | nil => cases hsame
      | cons pair' headers' =>
          rw [morePairs_cons, morePairs_cons, List.cons_append, List.cons_append,
            List.append_assoc, List.append_assoc] at hsame
          obtain ⟨hpair, hrest⟩ := jsonPair_inj (hplain pair List.mem_cons_self)
            (hplain' pair' List.mem_cons_self) (List.cons.inj hsame).2
          rw [hpair, ih (fun entry hentry => hplain entry (List.mem_cons_of_mem _ hentry))
            (fun entry hentry => hplain' entry (List.mem_cons_of_mem _ hentry)) hrest]

theorem headersToJson_inj {headers headers' : List (List UInt8 × List UInt8)}
    (hplain : ∀ entry ∈ headers, PlainText entry.1 ∧ PlainText entry.2)
    (hplain' : ∀ entry ∈ headers', PlainText entry.1 ∧ PlainText entry.2)
    (hsame : headersToJson headers = headersToJson headers') : headers = headers' := by
  cases headers with
  | nil =>
      cases headers' with
      | nil => rfl
      | cons pair' headers' =>
          rw [headersToJson_nil, headersToJson_cons] at hsame
          cases hsame
  | cons pair headers =>
      cases headers' with
      | nil =>
          rw [headersToJson_nil, headersToJson_cons] at hsame
          cases hsame
      | cons pair' headers' =>
          -- with a comma in front the text is one of `morePairs`
          apply morePairs_inj hplain hplain'
          rw [headersToJson_cons, headersToJson_cons] at hsame
          rw [morePairs_cons, morePairs_cons, List.cons_append, List.cons_append,
            List.append_assoc, List.append_assoc, (List.cons.inj hsame).2]

namespace AsciiHeaders

/-- A map is encoded faithfully exactly if its names and values are plain. -/
theorem faithful_iff_plain (headers : AsciiHeaders) : headers.Faithful ↔ headers.Plain := by
  constructor
  · rintro ⟨members, htext, hperm⟩ entry hentry
    have hroom : Json.objectRoom members = Json.objectRoom (headers.entries.map jsonMember) := by
      rw [Json.objectRoom, Json.objectRoom, (hperm.map _).sum_eq, hperm.length_eq]
    have hlength := length_headersToJson headers.entries
    rw [← hroom] at hlength
    have hmember : jsonMember entry ∈ members :=
      hperm.mem_iff.mpr (List.mem_map_of_mem hentry)
    obtain ⟨hname, hvalue⟩ := htext.object_tight hlength _ hmember
    exact ⟨unescaped_points.mp hname, unescaped_points.mp hvalue⟩
  · intro hplain
    exact ⟨_, Json.padded_of_item (value_headersToJson hplain), List.Perm.refl _⟩

/-- **The headers as JSON.**  A map is encoded as an object with exactly its entries if and only
if no name and no value has a control character, a quotation mark or a backslash; different maps
without them have different texts. -/
theorem headersToJson_faithful (headers : AsciiHeaders) :
    (headers.Faithful ↔ headers.Plain) ∧
    ∀ headers' : AsciiHeaders, headers.Plain → headers'.Plain →
      headersToJson headers.entries = headersToJson headers'.entries →
        headers.entries.Perm headers'.entries := by
  refine ⟨faithful_iff_plain headers, ?_⟩
  intro headers' hplain hplain' hsame
  rw [headersToJson_inj hplain hplain' hsame]

/-- The text `{"ETag":""a""}` does not denote the header `ETag: "a"`, and the header `a: b","c":"d`
has the text of the headers `a: b` and `c: d`. -/
theorem not_faithful :
    ¬(AsciiHeaders.mk [([69, 84, 97, 103], [34, 97, 34])] (by decide) (by simp)).Faithful ∧
    ∃ headers headers' : AsciiHeaders,
      headersToJson headers.entries = headersToJson headers'.entries ∧
        ¬headers.entries.Perm headers'.entries := by
  constructor
  · rw [faithful_iff_plain]
    intro hplain
    have hvalue := (hplain _ (List.mem_singleton_self _)).2
    exact absurd rfl (hvalue 34 List.mem_cons_self).2.1
  · exact ⟨⟨[([97], [98, 34, 44, 34, 99, 34, 58, 34, 100])], by decide, by simp⟩,
      ⟨[([97], [98]), ([99], [100])], by decide, by simp⟩, by decide, by decide⟩

end AsciiHeaders
end Iostreams
