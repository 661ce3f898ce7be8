import Iostreams.Http.Decode

/-!
# The letter case of field names

The names of the header fields of a response mean the same in any letter case.  The header map
distinguishes them, and `deserialize` looks the length of the body up under the one name
`Content-Length`.  A body whose length is announced under another spelling is left unread, so
that two spellings of a response are decoded alike only if both or neither have the field under
this name, or there is nothing in the body.
-/

namespace Iostreams
namespace Http

open Foundation

/-- Space or horizontal tab -/
def isBlank (c : UInt8) : Bool := c == 32 || c == 9

/-- The text behind the colon of a field: a number, with blanks around it. -/
def Announces (text : List UInt8) (length : Nat) : Prop :=
  ∃ front digits back, text = front ++ (digits ++ back) ∧ (∀ c ∈ front, isBlank c = true) ∧
    (∀ c ∈ back, isBlank c = true) ∧ digits ≠ [] ∧ (∀ c ∈ digits, isDigit c = true) ∧
    digitsValue digits = length

/-- `Content-Length` in any letter case. -/
def NamesLength (name : List UInt8) : Prop := name.map toLower = contentLengthName.map toLower

/-- A response with a body whose length is announced. -/
structure ContentReply where
  /-- The protocol up to its slash. -/
  scheme : List UInt8
  version : List UInt8
  statusCode : List UInt8
  statusText : List UInt8
  /-- The names, and the texts behind their colons. -/
  fields : List (List UInt8 × List UInt8)
  body : List UInt8
  scheme_plain : 32 ∉ scheme ∧ 47 ∉ scheme ∧ LineText scheme
  version_plain : 32 ∉ version ∧ LineText version
  statusCode_plain : 32 ∉ statusCode ∧ LineText statusCode
  statusText_line : LineText statusText
  fields_plain : ∀ field ∈ fields, 58 ∉ field.1 ∧ LineText field.1 ∧ LineText field.2
  length_named : ∃ field ∈ fields, NamesLength field.1
  length_announced : ∀ field ∈ fields, NamesLength field.1 → Announces field.2 body.length
  body_lt : body.length < 2 ^ 63 - 1

/-- `name:text` -/
def fieldLine (field : List UInt8 × List UInt8) : List UInt8 := field.1 ++ 58 :: field.2

namespace ContentReply

variable (reply : ContentReply)

def statusLine : List UInt8 :=
  reply.scheme ++ [47] ++ reply.version ++ [32] ++ reply.statusCode ++ [32] ++ reply.statusText

def bytes : List UInt8 :=
  renderLine reply.statusLine .crlf ++
    (reply.fields.flatMap (fun field => renderLine (fieldLine field) .crlf) ++
      (renderLine [] .crlf ++ reply.body))

/-- The length is announced under exactly the name that is looked up. -/
def Spelled : Prop := ∃ field ∈ reply.fields, field.1 = contentLengthName

instance : Decidable reply.Spelled := inferInstanceAs (Decidable (∃ field ∈ reply.fields, _))

/-- What is decoded: the body only where its length is found. -/
def response : HttpResponse where
  protocol := reply.scheme ++ [47]
  version := reply.version
  statusCode := reply.statusCode
  statusText := reply.statusText
  headers := (reply.fields.map fieldLine).foldl setHeader ∅
  body := if reply.Spelled then ⟨reply.body.length, some (reply.body ++ [0])⟩ else {}

end ContentReply

/-- The same response but for the letter case of field names. -/
structure CaseVariant (reply reply' : ContentReply) : Prop where
  scheme : reply.scheme = reply'.scheme
  version : reply.version = reply'.version
  statusCode : reply.statusCode = reply'.statusCode
  statusText : reply.statusText = reply'.statusText
  fields : List.Forall₂
    (fun field field' => field.1.map toLower = field'.1.map toLower ∧ field.2 = field'.2)
    reply.fields reply'.fields
  body : reply.body = reply'.body

/-- The bytes of a body. -/
def Body.bytes (body : Body) : List UInt8 := (body.block.getD []).take body.size

/-- The same status fields and the same body. -/
structure SameReply (response response' : HttpResponse) : Prop where
  protocol : response.protocol = response'.protocol
  version : response.version = response'.version
  statusCode : response.statusCode = response'.statusCode
  statusText : response.statusText = response'.statusText
  size : response.body.size = response'.body.size
  bytes : Body.bytes response.body = Body.bytes response'.body

/-- Both are decoded, and to the same status fields and the same body. -/
def DecodesAlike {β β' : Type} [Streambuf β] [Streambuf β'] (fuel : Nat) (s : Serial β)
    (fuel' : Nat) (s' : Serial β') : Prop :=
  ∃ response rest response' rest', deserialize fuel s {} = .ok (response, rest) ∧
    deserialize fuel' s' {} = .ok (response', rest') ∧ SameReply response response'

/-! ## Field lines -/

theorem isSpace_of_isBlank {c : UInt8} (hc : isBlank c = true) : isSpace c = true := by
  rcases (Bool.or_eq_true _ _).mp hc with hspace | htab
  · rw [beq_iff_eq.mp hspace]
    rfl
  · rw [beq_iff_eq.mp htab]
    rfl

/-- The value that is stored for a text. -/
def storedValue (text : List UInt8) : List UInt8 :=
  if text.head? = some 32 then text.drop 1 else text

/-- An announced length is read, whether or not a space was cut off in front of it. -/
theorem Announces.stoll {text : List UInt8} {length : Nat} (hannounces : Announces text length)
    (hlt : length < 2 ^ 63) :
    storedValue text ≠ [] ∧ Foundation.stoll (storedValue text) = .ok (length : Int) := by
  obtain ⟨front, digits, back, rfl, hfront, hback, hne, hdigits, rfl⟩ := hannounces
  have hplain : ∀ c ∈ back.head?, isDigit c = false := by
    intro c hc
    rcases (Bool.or_eq_true _ _).mp (hback c (List.mem_of_mem_head? hc)) with hspace | htab
    · rw [beq_iff_eq.mp hspace]
      rfl
    · rw [beq_iff_eq.mp htab]
      rfl
  obtain ⟨front', hstored, hblank⟩ : ∃ front',
      storedValue (front ++ (digits ++ back)) = front' ++ (digits ++ back) ∧
        ∀ c ∈ front', isSpace c = true := by
    have hspaces : ∀ c ∈ front, isSpace c = true := fun c hc => isSpace_of_isBlank (hfront c hc)
    unfold storedValue
    cases front with
    | nil =>
        obtain ⟨c, rest, rfl⟩ := List.exists_cons_of_ne_nil hne
        refine ⟨[], if_neg ?_, nofun⟩
        intro hspace
        have hdigit := hdigits c List.mem_cons_self
        rw [Option.some.inj hspace] at hdigit
        exact absurd hdigit (by decide)
    | cons c front =>
        by_cases hspace : (c :: front ++ (digits ++ back)).head? = some 32
        · exact ⟨front, if_pos hspace, fun d hd => hspaces d (List.mem_cons_of_mem _ hd)⟩
        · exact ⟨c :: front, if_neg hspace, hspaces⟩
  rw [hstored]
  constructor
  · simp [hne]
  · rw [stoll_digits hblank hdigits hne hplain, inLongLong, if_pos (by omega)]

theorem setHeader_fieldLine {field : List UInt8 × List UInt8} (hname : 58 ∉ field.1)
    (headers : Headers) :
    setHeader headers (fieldLine field) = headers.insert field.1 (storedValue field.2) := by
  rw [setHeader, fieldLine, headerField_append hname]
  rfl

/-- What is found under a name: the value of a field of this name, if there is one. -/
theorem lookup_fieldLines {fields : List (List UInt8 × List UInt8)}
    (hnames : ∀ field ∈ fields, 58 ∉ field.1) (name : List UInt8) (headers : Headers) :
    (∃ field ∈ fields, field.1 = name ∧
      ((fields.map fieldLine).foldl setHeader headers).lookup name =
        some (storedValue field.2)) ∨
    (∀ field ∈ fields, field.1 ≠ name) ∧
      ((fields.map fieldLine).foldl setHeader headers).lookup name = headers.lookup name := by
  induction fields generalizing headers with
  | nil => exact Or.inr ⟨nofun, rfl⟩
  | cons field fields ih =>
      rw [List.map_cons, List.foldl_cons, setHeader_fieldLine (hnames field List.mem_cons_self)]
      rcases ih (fun later hlater => hnames later (List.mem_cons_of_mem _ hlater))
          (headers.insert field.1 (storedValue field.2)) with
        ⟨later, hlater, hname, hlookup⟩ | ⟨hnone, hlookup⟩
      · exact Or.inl ⟨later, List.mem_cons_of_mem _ hlater, hname, hlookup⟩
      · rw [hlookup]
        by_cases hname : field.1 = name
        · refine Or.inl ⟨field, List.mem_cons_self, hname, ?_⟩
          rw [← hname, Finmap.lookup_insert]
        · refine Or.inr ⟨?_, Finmap.lookup_insert_of_ne _ (Ne.symm hname)⟩
          intro later hlater
          rcases List.mem_cons.mp hlater with rfl | hlater
          · exact hname
          · exact hnone later hlater

/-! ## Decoding -/

namespace ContentReply

theorem lineText_statusLine (reply : ContentReply) : LineText reply.statusLine :=
  lineText_parts reply.scheme_plain.2.2 reply.version_plain.2 reply.statusCode_plain.2
    reply.statusText_line

theorem parseStatusLine_statusLine (reply : ContentReply) :
    parseStatusLine {} reply.statusLine =
      ({ reply.response with headers := ∅, body := {} }, true) := by
  obtain ⟨hspace, hslash, -⟩ := reply.scheme_plain
  obtain ⟨hversion, -⟩ := reply.version_plain
  obtain ⟨hcode, -⟩ := reply.statusCode_plain
  rw [statusLine, parseStatusLine_parts ⟨hspace, hslash⟩ hversion hcode]
  rfl

theorem fieldLine_plain (reply : ContentReply) :
    ∀ line ∈ reply.fields.map fieldLine, LineText line ∧ line ≠ [] := by
  intro line hline
  obtain ⟨field, hfield, rfl⟩ := List.mem_map.mp hline
  obtain ⟨-, ⟨hname₁, hname₂⟩, htext₁, htext₂⟩ := reply.fields_plain field hfield
  refine ⟨⟨?_, ?_⟩, by simp [fieldLine]⟩
  · simp [fieldLine, hname₁, htext₁]
  · simp [fieldLine, hname₂, htext₂]

section Decoding

variable {β : Type} [BlockSource β] {s : Serial β} (reply : ContentReply)

theorem readBody_reply {rest : List UInt8} (hinput : s.HasInput (reply.body ++ rest))
    {fuel : Nat} (hfuel : 0 < fuel) :
    ∃ s', readBody mallocObject fuel s { reply.response with body := {} } =
      .ok (reply.response, s') := by
  have hnames : ∀ field ∈ reply.fields, 58 ∉ field.1 := fun field hfield =>
    (reply.fields_plain field hfield).1
  rcases lookup_fieldLines hnames contentLengthName ∅ with
    ⟨field, hfield, hname, hlookup⟩ | ⟨hnone, hlookup⟩
  · have hspelled : reply.Spelled := ⟨field, hfield, hname⟩
    have hannounces := reply.length_announced field hfield (congrArg (List.map toLower) hname)
    have hlt := reply.body_lt
    obtain ⟨hne, hlength⟩ := hannounces.stoll (by omega)
    obtain ⟨s', hread, -⟩ := @readBody_announced β _ s { reply.response with body := {} } _ _ _
      hlookup hne hlength hlt hinput fuel hfuel
    refine ⟨s', ?_⟩
    rw [hread, response, if_pos hspelled]
  · have hspelled : ¬reply.Spelled := fun ⟨field, hfield, hname⟩ => hnone field hfield hname
    rw [Finmap.lookup_empty] at hlookup
    refine ⟨s, ?_⟩
    unfold readBody
    rw [response, if_neg hspelled]
    simp only [hlookup]

/-- The status fields are those of the response, the body is read if its length is found. -/
theorem deserialize_reply {rest : List UInt8} (hinput : s.HasInput (reply.bytes ++ rest))
    {fuel : Nat} (hfuel : (reply.bytes ++ rest).length < fuel) :
    ∃ s', deserialize fuel s {} = .ok (reply.response, s') := by
  let lines := reply.fields.map fun field => (fieldLine field, LineEnd.crlf)
  have hfst : lines.map Prod.fst = reply.fields.map fieldLine := by
    rw [List.map_map]
    rfl
  have hlines : ∀ line ∈ lines.map Prod.fst, LineText line ∧ line ≠ [] := by
    rw [hfst]
    exact reply.fieldLine_plain
  have hbytes : reply.bytes ++ rest = renderLine reply.statusLine .crlf ++
      (lines.flatMap (fun line => renderLine line.1 line.2) ++
        (renderLine [] .crlf ++ (reply.body ++ rest))) := by
    rw [bytes, List.flatMap_map]
    simp only [List.append_assoc]
  rw [hbytes] at hinput hfuel
  obtain ⟨s₁, hhead, hinput₁, hpos⟩ := deserialize_lines reply.lineText_statusLine
    reply.parseStatusLine_statusLine _ _ hlines hinput hfuel
  obtain ⟨s', hbody⟩ := reply.readBody_reply hinput₁ hpos
  refine ⟨s', ?_⟩
  rw [hhead, hfst]
  exact hbody

end Decoding

/-! ## Spellings -/

section Spellings

variable {β β' : Type} [BlockSource β] [BlockSource β'] {s : Serial β} {s' : Serial β'}
  {reply reply' : ContentReply} {rest rest' : List UInt8} {fuel fuel' : Nat}

theorem decodesAlike_iff_response (hinput : s.HasInput (reply.bytes ++ rest))
    (hfuel : (reply.bytes ++ rest).length < fuel) (hinput' : s'.HasInput (reply'.bytes ++ rest'))
    (hfuel' : (reply'.bytes ++ rest').length < fuel') :
    DecodesAlike fuel s fuel' s' ↔ SameReply reply.response reply'.response := by
  obtain ⟨left, hdecode⟩ := reply.deserialize_reply hinput hfuel
  obtain ⟨left', hdecode'⟩ := reply'.deserialize_reply hinput' hfuel'
  constructor
  · rintro ⟨response, more, response', more', hdecoded, hdecoded', hsame⟩
    rw [hdecode] at hdecoded
    cases hdecoded
    rw [hdecode'] at hdecoded'
    cases hdecoded'
    exact hsame
  · intro hsame
    exact ⟨_, _, _, _, hdecode, hdecode', hsame⟩

/-- The body that is decoded. -/
theorem body_response (reply : ContentReply) :
    reply.response.body.size = (if reply.Spelled then reply.body.length else 0) ∧
      Body.bytes reply.response.body = if reply.Spelled then reply.body else [] := by
  unfold response
  by_cases hspelled : reply.Spelled
  · simp only [if_pos hspelled]
    exact ⟨trivial, by simp [Body.bytes]⟩
  · simp only [if_neg hspelled]
    exact ⟨trivial, rfl⟩

/-- **Letter case.**  Two spellings of a response are decoded to the same status fields and the
same body exactly if both or neither announce the length as `Content-Length`, or the body is
empty. -/
theorem decodesAlike_iff (hvariant : CaseVariant reply reply')
    (hinput : s.HasInput (reply.bytes ++ rest)) (hfuel : (reply.bytes ++ rest).length < fuel)
    (hinput' : s'.HasInput (reply'.bytes ++ rest'))
    (hfuel' : (reply'.bytes ++ rest').length < fuel') :
    DecodesAlike fuel s fuel' s' ↔ ((reply.Spelled ↔ reply'.Spelled) ∨ reply.body = []) := by
  rw [decodesAlike_iff_response hinput hfuel hinput' hfuel']
  obtain ⟨hsize, hbytes⟩ := reply.body_response
  obtain ⟨hsize', hbytes'⟩ := reply'.body_response
  rw [← hvariant.body] at hsize' hbytes'
  constructor
  · intro hsame
    have hlength := hsame.size
    rw [hsize, hsize'] at hlength
    by_cases hempty : reply.body = []
    · exact Or.inr hempty
    · have hpos := List.length_pos_of_ne_nil hempty
      refine Or.inl ⟨fun hspelled => ?_, fun hspelled' => ?_⟩
      · by_contra hspelled'
        rw [if_pos hspelled, if_neg hspelled'] at hlength
        omega
      · by_contra hspelled
        rw [if_neg hspelled, if_pos hspelled'] at hlength
        omega
  · intro hcase
    have hbody : (if reply.Spelled then reply.body else []) =
        if reply'.Spelled then reply.body else [] := by
      rcases hcase with hspelled | hempty
      · simp only [hspelled]
      · rw [hempty, ite_self, ite_self]
    constructor
    · exact congrArg (· ++ [47]) hvariant.scheme
    · exact hvariant.version
    · exact hvariant.statusCode
    · exact hvariant.statusText
    · have hlength := congrArg List.length hbody
      rw [apply_ite List.length, apply_ite List.length] at hlength
      rw [hsize, hsize']
      exact hlength
    · rw [hbytes, hbytes', hbody]

end Spellings

/-! ## Two responses -/

/-- A space and the digit 1. -/
theorem announces_one : Announces [32, 49] 1 :=
  ⟨[32], [49], [], rfl, by simp [isBlank], nofun, by decide, by simp [isDigit], rfl⟩

/-- `HTTP/1.1 200 OK` with the body `a`, whose length stands under a name. -/
def letterA (name : List UInt8) (hname : 58 ∉ name ∧ LineText name)
    (hlength : NamesLength name) : ContentReply where
  scheme := twoBytes.scheme
  version := twoBytes.version
  statusCode := twoBytes.statusCode
  statusText := twoBytes.statusText
  fields := [(name, [32, 49])]
  body := [97]
  scheme_plain := twoBytes.scheme_plain
  version_plain := twoBytes.version_plain
  statusCode_plain := twoBytes.statusCode_plain
  statusText_line := twoBytes.statusText_line
  fields_plain := by
    intro field hfield
    obtain rfl := List.mem_singleton.mp hfield
    exact ⟨hname.1, hname.2, (by decide : LineText [32, 49])⟩
  length_named := ⟨_, List.mem_singleton_self _, hlength⟩
  length_announced := by
    intro field hfield _
    obtain rfl := List.mem_singleton.mp hfield
    exact announces_one
  body_lt := by decide

/-- `Content-Length` -/
def spelledA : ContentReply := letterA contentLengthName (by decide) rfl

/-- `content-length` -/
def lowerA : ContentReply :=
  letterA [99, 111, 110, 116, 101, 110, 116, 45, 108, 101, 110, 103, 116, 104] (by decide)
    (by unfold NamesLength; decide)

/-- A response in memory. -/
theorem memory_bytes (reply : ContentReply) (hsize : reply.bytes.length < 2 ^ 63) :
    (Serial.ofBuffer reply.bytes false : Serial Stringbuf).HasInput (reply.bytes ++ []) ∧
      (reply.bytes ++ []).length < reply.bytes.length + 1 := by
  rw [List.append_nil]
  exact ⟨Serial.hasInput_ofBuffer hsize false, Nat.lt_succ_self _⟩

theorem decodesAlike_iff_two :
    CaseVariant spelledA lowerA ∧
    (DecodesAlike (spelledA.bytes.length + 1)
        (Serial.ofBuffer spelledA.bytes false : Serial Stringbuf) (lowerA.bytes.length + 1)
        (Serial.ofBuffer lowerA.bytes false : Serial Stringbuf) ↔
      ((spelledA.Spelled ↔ lowerA.Spelled) ∨ spelledA.body = [])) := by
  have hvariant : CaseVariant spelledA lowerA :=
    ⟨rfl, rfl, rfl, rfl, .cons ⟨by decide, rfl⟩ .nil, rfl⟩
  refine ⟨hvariant, ?_⟩
  obtain ⟨hinput, hfuel⟩ := memory_bytes spelledA (by decide)
  obtain ⟨hinput', hfuel'⟩ := memory_bytes lowerA (by decide)
  exact decodesAlike_iff hvariant hinput hfuel hinput' hfuel'

/-- The body `a` is decoded where its length is announced as `Content-Length`, and not where it is
announced as `content-length`. -/
theorem not_decodesAlike :
    CaseVariant spelledA lowerA ∧ spelledA.response.body = ⟨1, some [97, 0]⟩ ∧
    lowerA.response.body = {} ∧
    ¬DecodesAlike (spelledA.bytes.length + 1)
      (Serial.ofBuffer spelledA.bytes false : Serial Stringbuf) (lowerA.bytes.length + 1)
      (Serial.ofBuffer lowerA.bytes false : Serial Stringbuf) := by
  obtain ⟨hinput, hfuel⟩ := memory_bytes spelledA (by decide)
  obtain ⟨hinput', hfuel'⟩ := memory_bytes lowerA (by decide)
  refine ⟨⟨rfl, rfl, rfl, rfl, .cons ⟨by decide, rfl⟩ .nil, rfl⟩, by decide, by decide, ?_⟩
  rw [decodesAlike_iff_response hinput hfuel hinput' hfuel']
  intro hsame
  exact absurd hsame.size (by decide)

end ContentReply
end Http
end Iostreams
