import Iostreams.Http.Head

/-!
# Decoding inverts rendering

An `HttpMessage` is what a response says: its fields and its constraints are
those of a response that the line format can carry.  A `Rendering` chooses an
order of the headers and how every line ends.  `deserialize` gives the message
back from each of its renderings and leaves what follows, so that renderings
one after the other are decoded one after the other.
-/

namespace Iostreams
namespace Http

open Foundation

/-- No carriage return and no line feed. -/
def LineText (text : List UInt8) : Prop := 13 ∉ text ∧ 10 ∉ text

instance (text : List UInt8) : Decidable (LineText text) :=
  inferInstanceAs (Decidable (13 ∉ text ∧ 10 ∉ text))

structure HttpMessage where
  /-- The protocol up to its slash. -/
  scheme : List UInt8
  version : List UInt8
  statusCode : List UInt8
  statusText : List UInt8
  headers : Headers
  body : Option (List UInt8)
  scheme_plain : 32 ∉ scheme ∧ 47 ∉ scheme ∧ LineText scheme
  version_plain : 32 ∉ version ∧ LineText version
  statusCode_plain : 32 ∉ statusCode ∧ LineText statusCode
  statusText_line : LineText statusText
  headers_plain : ∀ header ∈ headers.entries,
    58 ∉ header.1 ∧ LineText header.1 ∧ LineText header.2
  contentLength : headers.lookup contentLengthName = body.map fun bytes => decimal bytes.length
  body_lt : ∀ bytes ∈ body, bytes.length < 2 ^ 63 - 1

/-- The response object that carries a message; behind a body lies a zero. -/
def HttpMessage.response (message : HttpMessage) : HttpResponse where
  protocol := message.scheme ++ [47]
  version := message.version
  statusCode := message.statusCode
  statusText := message.statusText
  headers := message.headers
  body :=
    match message.body with
    | none => {}
    | some bytes => ⟨bytes.length, some (bytes ++ [0])⟩

inductive LineEnd where
  | crlf
  | lf

def LineEnd.bytes : LineEnd → List UInt8
  | .crlf => [13, 10]
  | .lf => [10]

def renderLine (line : List UInt8) (ending : LineEnd) : List UInt8 := line ++ ending.bytes

/-- `name: value` -/
def headerLine (header : Sigma fun _ : List UInt8 => List UInt8) : List UInt8 :=
  header.1 ++ 58 :: 32 :: header.2

structure Rendering where
  message : HttpMessage
  headers : List ((Sigma fun _ : List UInt8 => List UInt8) × LineEnd)
  statusEnd : LineEnd
  headEnd : LineEnd
  /-- The headers of the message, in any order. -/
  headers_eq : (headers.map Prod.fst : Multiset _) = message.headers.entries

namespace Rendering

def statusLine (rendering : Rendering) : List UInt8 :=
  rendering.message.scheme ++ [47] ++ rendering.message.version ++ [32] ++
    rendering.message.statusCode ++ [32] ++ rendering.message.statusText

def bytes (rendering : Rendering) : List UInt8 :=
  renderLine rendering.statusLine rendering.statusEnd ++
    rendering.headers.flatMap (fun header => renderLine (headerLine header.1) header.2) ++
    renderLine [] rendering.headEnd ++ rendering.message.body.getD []

end Rendering

/-! ## Lines -/

/-- A rendered line is read without its end, whichever it is. -/
theorem renderLine_eq {line : List UInt8} (hline : LineText line) (ending : LineEnd) :
    ∃ text, renderLine line ending = text ++ [10] ∧ 10 ∉ text ∧ strip text = line := by
  obtain ⟨hreturn, hfeed⟩ := hline
  have hstrip : strip line = line := List.filter_eq_self.mpr fun c hc => by
    rw [decide_eq_true_eq]
    rintro rfl
    exact hreturn hc
  cases ending with
  | crlf =>
      refine ⟨line ++ [13], by simp [renderLine, LineEnd.bytes], by simp [hfeed], ?_⟩
      rw [strip, List.filter_append, ← strip, hstrip]
      simp
  | lf => exact ⟨line, rfl, hfeed, hstrip⟩

/-- The name is in front of the first colon, and one space behind it is not part of the value. -/
theorem headerField_append {name : List UInt8} (hname : 58 ∉ name) (text : List UInt8) :
    headerField (name ++ 58 :: text) =
      some (name, if text.head? = some 32 then text.drop 1 else text) := by
  have hfirst : find ([] ++ name ++ 58 :: text) 58 ([] : List UInt8).length =
      some (([] : List UInt8).length + name.length) := find_append hname
  have hfind : find (name ++ 58 :: text) 58 0 = some name.length := by
    simpa using hfirst
  have hkey : substr (name ++ 58 :: text) 0 name.length = name := by
    simp [substr]
  have hvalue : (name ++ 58 :: text).drop (name.length + 1) = text := by
    simp
  rw [headerField, hfind]
  simp only [hkey, hvalue]

theorem headerField_headerLine {name : List UInt8} (hname : 58 ∉ name) (value : List UInt8) :
    headerField (headerLine ⟨name, value⟩) = some (name, value) := by
  rw [headerLine, headerField_append hname]
  simp

/-- Assigning the entries of a map, in whatever order, gives the map. -/
theorem foldl_insert_entries (entries : List (Sigma fun _ : List UInt8 => List UInt8))
    (hnodup : entries.NodupKeys) (headers : Headers)
    (hfresh : ∀ entry ∈ entries, entry.1 ∉ headers) :
    (entries.foldl (fun headers entry => headers.insert entry.1 entry.2) headers).entries =
      entries + headers.entries := by
  induction entries generalizing headers with
  | nil => simp
  | cons entry entries ih =>
      obtain ⟨hnew, hnodup⟩ := List.nodupKeys_cons.mp hnodup
      have hentry := hfresh entry List.mem_cons_self
      rw [List.foldl_cons, ih hnodup, Finmap.entries_insert_of_notMem hentry]
      · rw [← Multiset.cons_coe, Multiset.cons_add, Multiset.add_cons]
      · intro later hlater
        rw [Finmap.mem_insert, not_or]
        refine ⟨?_, hfresh later (List.mem_cons_of_mem _ hlater)⟩
        intro hsame
        exact hnew (hsame ▸ List.mem_keys_of_mem hlater)

theorem completeLines_renderLine {line : List UInt8} (hline : LineText line) (ending : LineEnd)
    (rest : List UInt8) :
    completeLines (renderLine line ending ++ rest) = line :: completeLines rest := by
  obtain ⟨text, hrender, htext, hstrip⟩ := renderLine_eq hline ending
  rw [hrender, List.append_assoc, List.singleton_append, completeLines_append htext, hstrip]

theorem afterHeaders_renderLine {line : List UInt8} (hline : LineText line) (ending : LineEnd)
    (rest : List UInt8) :
    afterHeaders true (renderLine line ending ++ rest) =
      if line = [] then rest else afterHeaders true rest := by
  obtain ⟨text, hrender, htext, hstrip⟩ := renderLine_eq hline ending
  rw [hrender, List.append_assoc, List.singleton_append, afterHeaders_append htext, hstrip]
  simp

/-- Rendered lines and the empty line are what the head is read from. -/
theorem renderedLines {lines : List (List UInt8 × LineEnd)}
    (hlines : ∀ line ∈ lines.map Prod.fst, LineText line ∧ line ≠ []) (headEnd : LineEnd)
    (rest : List UInt8) :
    let input := lines.flatMap (fun line => renderLine line.1 line.2) ++
      (renderLine [] headEnd ++ rest)
    completeLines input = lines.map Prod.fst ++ [] :: completeLines rest ∧
      afterHeaders true input = rest := by
  have hempty : LineText [] := ⟨List.not_mem_nil, List.not_mem_nil⟩
  induction lines with
  | nil =>
      exact ⟨completeLines_renderLine hempty headEnd rest,
        (afterHeaders_renderLine hempty headEnd rest).trans (if_pos rfl)⟩
  | cons line lines ih =>
      obtain ⟨hline, hne⟩ := hlines line.1 List.mem_cons_self
      obtain ⟨hcomplete, hafter⟩ :=
        ih fun later hlater => hlines later (List.mem_cons_of_mem _ hlater)
      simp only [List.flatMap_cons, List.append_assoc, List.map_cons, List.cons_append]
      rw [completeLines_renderLine hline, afterHeaders_renderLine hline, hcomplete, hafter,
        if_neg hne]
      exact ⟨rfl, rfl⟩

theorem headerLines_append {lines : List (List UInt8)} (hlines : ∀ line ∈ lines, line ≠ [])
    (more : List (List UInt8)) : headerLines (lines ++ [] :: more) = lines := by
  rw [headerLines, List.takeWhile_append_of_pos (by simpa using hlines),
    List.takeWhile_cons_of_neg (by simp), List.append_nil]

/-! ## The header lines -/

/-- A header whose line is read back. -/
def PlainHeader (header : Sigma fun _ : List UInt8 => List UInt8) : Prop :=
  58 ∉ header.1 ∧ LineText header.1 ∧ LineText header.2

theorem PlainHeader.lineText {header : Sigma fun _ : List UInt8 => List UInt8}
    (hplain : PlainHeader header) : LineText (headerLine header) := by
  obtain ⟨-, ⟨hname₁, hname₂⟩, hvalue₁, hvalue₂⟩ := hplain
  constructor <;> simp [headerLine, hname₁, hname₂, hvalue₁, hvalue₂]

theorem headerLine_ne_nil (header : Sigma fun _ : List UInt8 => List UInt8) :
    headerLine header ≠ [] := by
  simp [headerLine]

/-- The header lines of a map, in any order, are collected to the map. -/
theorem headers_rendered {headers : Headers}
    {entries : List (Sigma fun _ : List UInt8 => List UInt8)}
    (hentries : (entries : Multiset _) = headers.entries)
    (hplain : ∀ header ∈ entries, PlainHeader header) :
    (entries.map headerLine).foldl setHeader ∅ = headers := by
  have hnodup : entries.NodupKeys := by
    rw [← Multiset.coe_nodupKeys, hentries]
    exact headers.nodupKeys
  have hset : ∀ (collected : Headers), ∀ header ∈ entries,
      setHeader collected (headerLine header) = collected.insert header.1 header.2 := by
    intro collected header hmem
    rw [setHeader, headerField_headerLine (hplain header hmem).1]
  have hfold : (entries.map headerLine).foldl setHeader ∅ =
      entries.foldl (fun collected header => collected.insert header.1 header.2) (∅ : Headers) := by
    rw [List.foldl_map]
    exact List.foldl_ext _ _ _ hset
  apply Finmap.ext
  rw [hfold, foldl_insert_entries entries hnodup ∅ (fun entry _ => Finmap.notMem_empty),
    ← hentries]
  exact Multiset.add_zero _

/-! ## The status line -/

/-- A status line of plain parts. -/
theorem parseStatusLine_parts {scheme version code : List UInt8}
    (hscheme : 32 ∉ scheme ∧ 47 ∉ scheme) (hversion : 32 ∉ version) (hcode : 32 ∉ code)
    (text : List UInt8) :
    parseStatusLine {} (scheme ++ [47] ++ version ++ [32] ++ code ++ [32] ++ text) =
      ({ protocol := scheme ++ [47]
         version
         statusCode := code
         statusText := text }, true) := by
  have hfront : 32 ∉ scheme ++ 47 :: version := by
    simp [hscheme.1, hversion]
  have hfirst : find ([] ++ scheme ++ 47 :: version) 47 ([] : List UInt8).length =
      some (([] : List UInt8).length + scheme.length) := find_append hscheme.2
  have hfind : find (scheme ++ 47 :: version) 47 0 = some scheme.length := by
    simpa using hfirst
  have hline : scheme ++ [47] ++ version ++ [32] ++ code ++ [32] ++ text =
      (scheme ++ 47 :: version) ++ 32 :: (code ++ 32 :: text) := by
    simp
  rw [hline, parseStatusLine_two {} hfront hcode, setProtocolVersion, hfind]
  simp [substr, List.take_append]

theorem lineText_parts {scheme version code text : List UInt8} (hscheme : LineText scheme)
    (hversion : LineText version) (hcode : LineText code) (htext : LineText text) :
    LineText (scheme ++ [47] ++ version ++ [32] ++ code ++ [32] ++ text) := by
  constructor
  · simp [hscheme.1, hversion.1, hcode.1, htext.1]
  · simp [hscheme.2, hversion.2, hcode.2, htext.2]

namespace Rendering

variable (rendering : Rendering)

theorem lineText_statusLine : LineText rendering.statusLine :=
  lineText_parts rendering.message.scheme_plain.2.2 rendering.message.version_plain.2
    rendering.message.statusCode_plain.2 rendering.message.statusText_line

theorem parseStatusLine_statusLine : parseStatusLine {} rendering.statusLine =
    ({ rendering.message.response with headers := ∅, body := {} }, true) := by
  obtain ⟨hspace, hslash, -⟩ := rendering.message.scheme_plain
  obtain ⟨hversion, -⟩ := rendering.message.version_plain
  obtain ⟨hcode, -⟩ := rendering.message.statusCode_plain
  rw [statusLine, parseStatusLine_parts ⟨hspace, hslash⟩ hversion hcode]
  rfl

end Rendering

/-! ## Responses -/

section Decoding

variable {β : Type} [BlockSource β] {s : Serial β}

/-- A body whose length is announced; the last byte of its memory stays zero. -/
theorem readBody_announced {response : HttpResponse} {text bytes rest : List UInt8}
    (hlookup : response.headers.lookup contentLengthName = some text) (hne : text ≠ [])
    (hlength : stoll text = .ok (bytes.length : Int)) (hlt : bytes.length < 2 ^ 63 - 1)
    (hinput : s.HasInput (bytes ++ rest)) {fuel : Nat} (hfuel : 0 < fuel) :
    ∃ s', readBody mallocObject fuel s response =
        .ok ({ response with body := ⟨bytes.length, some (bytes ++ [0])⟩ }, s') ∧
      s'.HasInput rest := by
  have hcount : toSizeT (bytes.length : Int) = bytes.length := toSizeT_natCast (by omega)
  have hnext : toSizeT ((bytes.length : Int) + 1) = bytes.length + 1 := by
    rw [← Nat.cast_succ]
    exact toSizeT_natCast (by omega)
  -- one block read fills all but the last byte
  obtain ⟨fuel, rfl⟩ := Nat.exists_eq_succ_of_ne_zero (Nat.ne_of_gt hfuel)
  obtain ⟨count, s', hread, hinput'⟩ := hinput.block (by omega) fuel
    (List.replicate (bytes.length + 1) 0)
  have hblock : overwrite (List.replicate (bytes.length + 1) 0) 0 bytes = bytes ++ [0] := by
    rw [overwrite_eq (by simp)]
    simp
  have hgranted : mallocObject (bytes.length + 1) = true := decide_eq_true (by omega)
  refine ⟨s', ?_, hinput'⟩
  unfold readBody
  simp [hlookup, hne, hlength, hcount, hnext, hgranted, hread, hblock, pure, Except.pure]

theorem readBody_message (message : HttpMessage) {rest : List UInt8}
    (hinput : s.HasInput (message.body.getD [] ++ rest)) {fuel : Nat} (hfuel : 0 < fuel) :
    ∃ s', readBody mallocObject fuel s { message.response with body := {} } =
        .ok (message.response, s') ∧
      s'.HasInput rest := by
  have hlookup := message.contentLength
  have hlt := message.body_lt
  cases hbody : message.body with
  | none =>
      rw [hbody, Option.map_none] at hlookup
      rw [hbody] at hinput
      refine ⟨s, ?_, by simpa using hinput⟩
      unfold readBody
      simp [hlookup, HttpMessage.response, hbody]
  | some bytes =>
      rw [hbody, Option.map_some] at hlookup
      rw [hbody, Option.getD_some] at hinput
      have hsize : bytes.length < 2 ^ 63 - 1 := hlt bytes hbody
      obtain ⟨s', hread, hinput'⟩ :=
        @readBody_announced β _ s { message.response with body := {} } _ _ _ hlookup
          (decimal_ne_nil _) (stoll_decimal (by omega)) hsize hinput fuel hfuel
      refine ⟨s', ?_, hinput'⟩
      rw [hread, HttpMessage.response, hbody]

/-- A rendered head is read, and the body is what follows it. -/
theorem deserialize_lines {statusLine : List UInt8} (hstatus : LineText statusLine)
    {parsed : HttpResponse} (hparsed : parseStatusLine {} statusLine = (parsed, true))
    (statusEnd headEnd : LineEnd) {lines : List (List UInt8 × LineEnd)}
    (hlines : ∀ line ∈ lines.map Prod.fst, LineText line ∧ line ≠ []) {rest : List UInt8}
    (hinput : s.HasInput (renderLine statusLine statusEnd ++
      (lines.flatMap (fun line => renderLine line.1 line.2) ++
        (renderLine [] headEnd ++ rest)))) {fuel : Nat}
    (hfuel : (renderLine statusLine statusEnd ++
      (lines.flatMap (fun line => renderLine line.1 line.2) ++
        (renderLine [] headEnd ++ rest))).length < fuel) :
    ∃ s', deserialize fuel s {} = readBody mallocObject fuel s'
        { parsed with headers := (lines.map Prod.fst).foldl setHeader ∅ } ∧
      s'.HasInput rest ∧ 0 < fuel := by
  obtain ⟨text, hrender, htext, hstrip⟩ := renderLine_eq hstatus statusEnd
  obtain ⟨hcomplete, hafter⟩ := renderedLines hlines headEnd rest
  rw [hrender, List.append_assoc, List.singleton_append] at hinput hfuel
  -- the status line has its two blanks, so the decoder goes on to the headers
  have hspaces : 2 ≤ (strip text).count 32 := by
    have hgo := parseStatusLine_snd {} statusLine
    rw [hparsed] at hgo
    rw [hstrip]
    exact of_decide_eq_true hgo.symm
  rcases deserialize_head htext ⟨hinput, rfl⟩ {} hspaces (by rw [hcomplete]; simp) mallocObject
      fuel with ⟨s', hhead, ⟨hinput', -⟩, hpos⟩ | ⟨hshort, -⟩
  · rw [hafter] at hinput'
    refine ⟨s', ?_, hinput', hpos⟩
    rw [deserialize, hhead, hstrip, hparsed, hcomplete, headersOf,
      headerLines_append fun line hline => (hlines line hline).2]
  · omega

/-- A rendering is decoded to its message, and what follows it is left. -/
theorem deserialize_rendering (rendering : Rendering) {rest : List UInt8}
    (hinput : s.HasInput (rendering.bytes ++ rest)) {fuel : Nat}
    (hfuel : (rendering.bytes ++ rest).length < fuel) :
    ∃ s', deserialize fuel s {} = .ok (rendering.message.response, s') ∧ s'.HasInput rest := by
  have hplain : ∀ header ∈ rendering.headers.map Prod.fst, PlainHeader header := by
    intro header hmem
    apply rendering.message.headers_plain
    rw [← rendering.headers_eq]
    exact hmem
  let lines := rendering.headers.map fun header => (headerLine header.1, header.2)
  have hfst : lines.map Prod.fst = (rendering.headers.map Prod.fst).map headerLine := by
    rw [List.map_map, List.map_map]
    rfl
  have hlines : ∀ line ∈ lines.map Prod.fst, LineText line ∧ line ≠ [] := by
    rw [hfst]
    intro line hline
    obtain ⟨header, hmem, rfl⟩ := List.mem_map.mp hline
    exact ⟨(hplain header hmem).lineText, headerLine_ne_nil header⟩
  have hbytes : rendering.bytes ++ rest = renderLine rendering.statusLine rendering.statusEnd ++
      (lines.flatMap (fun line => renderLine line.1 line.2) ++
        (renderLine [] rendering.headEnd ++ (rendering.message.body.getD [] ++ rest))) := by
    rw [Rendering.bytes, List.flatMap_map]
    simp only [List.append_assoc]
  rw [hbytes] at hinput hfuel
  obtain ⟨s₁, hhead, hinput₁, hpos⟩ := deserialize_lines rendering.lineText_statusLine
    rendering.parseStatusLine_statusLine _ _ hlines hinput hfuel
  obtain ⟨s', hbody, hinput'⟩ := readBody_message rendering.message hinput₁ hpos
  refine ⟨s', ?_, hinput'⟩
  rw [hhead, hfst, headers_rendered rendering.headers_eq hplain]
  exact hbody

/-- Read `count` responses, each into a fresh object. -/
def deserializeAll (fuel : Nat) : Nat → Serial β → Except Halt (List HttpResponse × Serial β)
  | 0, s => .ok ([], s)
  | count + 1, s => do
      let (response, s) ← deserialize fuel s {}
      let (responses, s) ← deserializeAll fuel count s
      return (response :: responses, s)

/-- Renderings one after the other are decoded one after the other. -/
theorem deserialize_inverts_rendering (renderings : List Rendering) {rest : List UInt8}
    (hinput : s.HasInput (renderings.flatMap Rendering.bytes ++ rest)) {fuel : Nat}
    (hfuel : (renderings.flatMap Rendering.bytes ++ rest).length < fuel) :
    ∃ s', deserializeAll fuel renderings.length s =
        .ok (renderings.map fun rendering => rendering.message.response, s') ∧
      s'.HasInput rest := by
  induction renderings generalizing s with
  | nil => exact ⟨s, rfl, hinput⟩
  | cons rendering renderings ih =>
      rw [List.flatMap_cons, List.append_assoc] at hinput hfuel
      obtain ⟨s₁, hfirst, hinput₁⟩ := deserialize_rendering rendering hinput hfuel
      rw [List.length_append] at hfuel
      obtain ⟨s', hothers, hinput'⟩ := ih hinput₁ (by omega)
      refine ⟨s', ?_, hinput'⟩
      rw [List.length_cons, deserializeAll, hfirst]
      simp only [ok_bind, hothers]
      rfl

/-- `HTTP/1.1 204 No Content` with a header -/
def noContent : HttpMessage where
  scheme := [72, 84, 84, 80]
  version := [49, 46, 49]
  statusCode := [50, 48, 52]
  statusText := [78, 111, 32, 67, 111, 110, 116, 101, 110, 116]
  headers := Finmap.singleton [65] [32, 58]
  body := none
  scheme_plain := by decide
  version_plain := by decide
  statusCode_plain := by decide
  statusText_line := by decide
  headers_plain := by decide
  contentLength := by decide
  body_lt := nofun

/-- `HTTP/1.1 200 OK` with a body of two bytes -/
def twoBytes : HttpMessage where
  scheme := [72, 84, 84, 80]
  version := [49, 46, 49]
  statusCode := [50, 48, 48]
  statusText := [79, 75]
  headers := Finmap.singleton contentLengthName [50]
  body := some [104, 105]
  scheme_plain := by decide
  version_plain := by decide
  statusCode_plain := by decide
  statusText_line := by decide
  headers_plain := by decide
  contentLength := by decide
  body_lt := by simp

theorem deserialize_inverts_rendering_two :
    let renderings : List Rendering :=
      [⟨twoBytes, [(⟨contentLengthName, [50]⟩, .crlf)], .crlf, .crlf, rfl⟩,
        ⟨noContent, [(⟨[65], [32, 58]⟩, .lf)], .lf, .crlf, rfl⟩]
    let memory := renderings.flatMap Rendering.bytes
    ∃ s', deserializeAll (memory.length + 1) 2 (Serial.ofBuffer memory false : Serial Stringbuf) =
      .ok ([twoBytes.response, noContent.response], s') := by
  intro renderings memory
  have hinput : (Serial.ofBuffer memory false : Serial Stringbuf).HasInput (memory ++ []) := by
    rw [List.append_nil]
    exact Serial.hasInput_ofBuffer (by decide) false
  obtain ⟨s', hdecode, -⟩ := deserialize_inverts_rendering renderings hinput
    (show (memory ++ []).length < memory.length + 1 by rw [List.append_nil]; omega)
  exact ⟨s', hdecode⟩

end Decoding
end Http
end Iostreams
