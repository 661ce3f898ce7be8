import Iostreams.Foundation.CrlfLines
import Iostreams.Http.Response
import Iostreams.Serial.StreamMode

/-!
# Writing an HTTP request

`serialize` writes the request line, the `Host` line, one line for each entry of the header map,
the `Content-Length` line, the empty line and the body.  Nothing is checked or escaped.  A reader
finds exactly these lines and this body if no string contains a CRLF and no entry of the map is
itself named `Host` or `Content-Length`, and in no other case: any other request is confused with
one that has more lines, or another body.
-/

namespace Iostreams

open Foundation

/-- The entries of the header map are in the order in which they are iterated over; the body is
the memory behind the pointer, as long as the size says. -/
structure HttpRequest where
  host : List UInt8
  verb : List UInt8
  path : List UInt8
  headers : List (List UInt8 × List UInt8) := []
  names_nodup : (headers.map Prod.fst).Nodup := by decide
  body : List UInt8 := []

namespace HttpRequest

/-! ## Serialization -/

/-- `verb + " " + path + " HTTP/1.1"` -/
def requestLine (request : HttpRequest) : List UInt8 :=
  request.verb ++ [32] ++ request.path ++ [32, 72, 84, 84, 80, 47, 49, 46, 49]

/-- `"Host: " + host` -/
def hostLine (request : HttpRequest) : List UInt8 := [72, 111, 115, 116, 58, 32] ++ request.host

/-- `headerPair.first + ": " + headerPair.second` -/
def headerLine (headerPair : List UInt8 × List UInt8) : List UInt8 :=
  headerPair.1 ++ [58, 32] ++ headerPair.2

/-- `"Content-Length: " + std::to_string(request.body.first)` -/
def contentLengthLine (request : HttpRequest) : List UInt8 :=
  Http.contentLengthName ++ [58, 32] ++ decimal request.body.length

def header (request : HttpRequest) : List UInt8 :=
  request.requestLine ++ crlf ++ (request.hostLine ++ crlf) ++
    request.headers.flatMap (fun headerPair => headerLine headerPair ++ crlf) ++
    (request.contentLengthLine ++ crlf) ++ crlf

/-- `serialize(Serial&, const http_request&)` -/
def serialize {β : Type} [Streambuf β] (depth : Nat) (s : Serial β) (request : HttpRequest) :
    Except Halt (Serial β) := do
  let (_, s) ← s.writeBytes depth request.header
  let (_, s) ← s.writeBytes depth request.body
  .ok s

/-! ## Reading back -/

/-- The name of a header line, in lower case. -/
def fieldName (line : List UInt8) : List UInt8 :=
  (line.takeWhile (· ≠ 58)).map fun c => if 65 ≤ c ∧ c ≤ 90 then c + 32 else c

/-- `host` -/
def isHost (line : List UInt8) : Bool := fieldName line = [104, 111, 115, 116]

/-- `content-length` -/
def isContentLength (line : List UInt8) : Bool :=
  fieldName line = [99, 111, 110, 116, 101, 110, 116, 45, 108, 101, 110, 103, 116, 104]

/-- A line that is neither of the two generated ones. -/
def isOther (line : List UInt8) : Bool := !isHost line && !isContentLength line

/-- The head has the request line, one `Host` line, one `Content-Length` line and one line for
every other entry of the map, and the body follows. -/
def ReadsBack (request : HttpRequest) (bytes : List UInt8) : Prop :=
  ∃ lines, readHead [] bytes = some (request.requestLine :: lines, request.body) ∧
    lines.filter isHost = [request.hostLine] ∧
    lines.filter isContentLength = [request.contentLengthLine] ∧
    (lines.filter isOther).Perm
      ((request.headers.filter fun headerPair => isOther headerPair.1).map headerLine)

/-- What is written to a string stream reads back, or nothing is written. -/
def NotConfused (depth : Nat) (request : HttpRequest) : Prop :=
  (∃ what, serialize depth
      (Serial.ofStream { rdbuf := Stringbuf.ofString [] } false : Serial Stringbuf) request =
        .error (.exception what)) ∨
    ∃ (s : Serial Stringbuf) (io : IOStream Stringbuf), serialize depth
      (Serial.ofStream { rdbuf := Stringbuf.ofString [] } false : Serial Stringbuf) request =
        .ok s ∧ s.stream = some io ∧ ReadsBack request io.rdbuf.content

/-- No string contains a CRLF, and no entry is named like a generated line. -/
def Separate (request : HttpRequest) : Prop :=
  (Unbroken request.verb ∧ Unbroken request.path ∧ Unbroken request.host ∧
    ∀ headerPair ∈ request.headers, Unbroken headerPair.1 ∧ Unbroken headerPair.2) ∧
  ∀ headerPair ∈ request.headers, isOther headerPair.1 = true

/-- The lines behind the request line. -/
def headerLines (request : HttpRequest) : List (List UInt8) :=
  request.hostLine :: (request.headers.map headerLine ++ [request.contentLengthLine])

theorem header_body (request : HttpRequest) :
    request.header ++ request.body =
      writeHead (request.requestLine :: request.headerLines) request.body := by
  simp only [header, writeHead, headerLines, List.flatMap_cons, List.flatMap_append,
    List.flatMap_map, List.flatMap_nil, List.append_assoc, List.append_nil]

/-- The stream has the head and the body. -/
theorem serialize_fresh (depth : Nat) (request : HttpRequest) :
    ∃ (s : Serial Stringbuf) (io : IOStream Stringbuf), serialize (depth + 1)
        (Serial.ofStream { rdbuf := Stringbuf.ofString [] } false : Serial Stringbuf) request =
          .ok s ∧ s.stream = some io ∧ io.rdbuf.content = request.header ++ request.body := by
  let io : IOStream Stringbuf := { rdbuf := Stringbuf.ofString [] }
  have hmode := Serial.streamMode_ofStream io
  have hhead := IOStream.write_stringbuf (show io.good = true from rfl) request.header
  have hgood : (io.write request.header).good = true := by
    rw [hhead]
    rfl
  have hcontent : (io.write request.header).rdbuf.content = request.header := by
    rw [hhead]
    exact Stringbuf.content_xsputn rfl request.header
  have hend : (io.write request.header).rdbuf.putPos =
      (io.write request.header).rdbuf.content.length := by
    rw [hcontent, hhead]
    exact Nat.zero_add _
  have hmode' := hmode.setStream (io.write request.header)
  refine ⟨(((Serial.ofStream io false).setStream (io.write request.header)).setStream
    ((io.write request.header).write request.body)), _, ?_, rfl, ?_⟩
  · rw [serialize, Serial.writeBytes_stream hmode rfl, ok_bind]
    simp only
    rw [Serial.writeBytes_stream hmode' rfl]
    rfl
  · rw [IOStream.write_stringbuf hgood]
    exact (Stringbuf.content_xsputn hend request.body).trans (by rw [hcontent])

/-! ## Names -/

/-- The name of an entry's line is the one of the entry. -/
theorem fieldName_headerLine (headerPair : List UInt8 × List UInt8) :
    fieldName (headerLine headerPair) = fieldName headerPair.1 := by
  have hcolon : (58 :: 32 :: headerPair.2).takeWhile (· ≠ 58) = [] := rfl
  rw [fieldName, fieldName, headerLine, List.append_assoc, List.takeWhile_append]
  split
  · next hall =>
      rw [show ([58, 32] : List UInt8) ++ headerPair.2 = 58 :: 32 :: headerPair.2 from rfl, hcolon,
        List.append_nil, List.takeWhile_eq_self_iff.mpr
          (List.takeWhile_eq_self_iff.mp
            (List.IsPrefix.eq_of_length (List.takeWhile_prefix _) hall))]
  · rfl

theorem isOther_headerLine (headerPair : List UInt8 × List UInt8) :
    isOther (headerLine headerPair) = isOther headerPair.1 := by
  simp only [isOther, isHost, isContentLength, fieldName_headerLine]

theorem isHost_hostLine (request : HttpRequest) :
    isHost request.hostLine = true ∧ isContentLength request.hostLine = false ∧
      isOther request.hostLine = false := ⟨rfl, rfl, rfl⟩

theorem isContentLength_contentLengthLine (request : HttpRequest) :
    isHost request.contentLengthLine = false ∧
      isContentLength request.contentLengthLine = true ∧
      isOther request.contentLengthLine = false := ⟨rfl, rfl, rfl⟩

/-- Every line is of exactly one of the three kinds. -/
theorem perm_kinds (lines : List (List UInt8)) :
    (lines.filter isHost ++ (lines.filter isContentLength ++ lines.filter isOther)).Perm lines := by
  have hlength : (lines.filter fun line => !isHost line).filter isContentLength =
      lines.filter isContentLength := by
    rw [List.filter_filter]
    apply List.filter_congr
    intro line _
    unfold isContentLength isHost
    by_cases hname : fieldName line = [104, 111, 115, 116]
    · rw [hname]
      rfl
    · simp [hname]
  have hother : (lines.filter fun line => !isHost line).filter (fun line => !isContentLength line) =
      lines.filter isOther := by
    rw [List.filter_filter]
    exact List.filter_congr fun line _ => Bool.and_comm _ _
  have hrest := List.filter_append_perm isContentLength (lines.filter fun line => !isHost line)
  rw [hlength, hother] at hrest
  exact (hrest.append_left _).trans (List.filter_append_perm isHost lines)

/-- The kinds of the lines that are written, where no entry is named like a generated line. -/
theorem filter_headerLines {request : HttpRequest}
    (hnames : ∀ headerPair ∈ request.headers, isOther headerPair.1 = true) :
    request.headerLines.filter isHost = [request.hostLine] ∧
      request.headerLines.filter isContentLength = [request.contentLengthLine] ∧
      request.headerLines.filter isOther = request.headers.map headerLine := by
  have hentries : ∀ line ∈ request.headers.map headerLine,
      isOther line = true ∧ isHost line = false ∧ isContentLength line = false := by
    intro line hline
    obtain ⟨headerPair, hpair, rfl⟩ := List.mem_map.mp hline
    have hother : isOther (headerLine headerPair) = true := by
      rw [isOther_headerLine]
      exact hnames headerPair hpair
    refine ⟨hother, ?_⟩
    simpa [isOther] using hother
  have hhost : (request.headers.map headerLine).filter isHost = [] :=
    List.filter_eq_nil_iff.mpr fun line hline => by simp [(hentries line hline).2.1]
  have hlength : (request.headers.map headerLine).filter isContentLength = [] :=
    List.filter_eq_nil_iff.mpr fun line hline => by simp [(hentries line hline).2.2]
  have hall : (request.headers.map headerLine).filter isOther = request.headers.map headerLine :=
    List.filter_eq_self.mpr fun line hline => (hentries line hline).1
  obtain ⟨hh, hhc, hho⟩ := isHost_hostLine request
  obtain ⟨hch, hcc, hco⟩ := isContentLength_contentLengthLine request
  refine ⟨?_, ?_, ?_⟩
  · simp [headerLines, hh, hch, hhost]
  · simp [headerLines, hhc, hcc, hlength]
  · simp [headerLines, hho, hco, hall]

/-! ## Line breaks -/

theorem unbroken_requestLine (request : HttpRequest) :
    Unbroken request.requestLine ↔ Unbroken request.verb ∧ Unbroken request.path := by
  have hversion := @unbroken_separated (request.verb ++ [32] ++ request.path)
    [32, 72, 84, 84, 80, 47, 49, 46, 49] [] (by decide) (by decide) (by decide)
  rw [List.append_nil] at hversion
  rw [requestLine, hversion, unbroken_separated (by decide) (by decide) (by decide)]
  exact and_iff_left unbroken_nil

theorem unbroken_hostLine (request : HttpRequest) :
    Unbroken request.hostLine ↔ Unbroken request.host := by
  have hname := @unbroken_separated [] [72, 111, 115, 116, 58, 32] request.host (by decide)
    (by decide) (by decide)
  rw [List.nil_append] at hname
  rw [hostLine, hname]
  exact and_iff_right unbroken_nil

theorem unbroken_headerLine (headerPair : List UInt8 × List UInt8) :
    Unbroken (headerLine headerPair) ↔ Unbroken headerPair.1 ∧ Unbroken headerPair.2 :=
  unbroken_separated (by decide) (by decide) (by decide)

theorem unbroken_contentLengthLine (request : HttpRequest) :
    Unbroken request.contentLengthLine := by
  have hdigits : 13 ∉ decimal request.body.length := fun hmem =>
    absurd (isDigit_decimal request.body.length 13 hmem) (by decide)
  exact (unbroken_separated (by decide) (by decide) (by decide)).mpr
    ⟨by decide, unbroken_of_not_mem hdigits⟩

/-- The lines of a separate request are not broken, and none is empty. -/
theorem Separate.lines {request : HttpRequest} (hseparate : request.Separate) :
    ∀ line ∈ request.requestLine :: request.headerLines, Unbroken line ∧ line ≠ [] := by
  obtain ⟨⟨hverb, hpath, hhost, hentries⟩, -⟩ := hseparate
  intro line hline
  rcases List.mem_cons.mp hline with rfl | hline
  · exact ⟨(unbroken_requestLine request).mpr ⟨hverb, hpath⟩, by simp [requestLine]⟩
  · rcases List.mem_cons.mp hline with rfl | hline
    · exact ⟨(unbroken_hostLine request).mpr hhost, by simp [hostLine]⟩
    · rcases List.mem_append.mp hline with hentry | hlast
      · obtain ⟨headerPair, hpair, rfl⟩ := List.mem_map.mp hentry
        exact ⟨(unbroken_headerLine headerPair).mpr (hentries headerPair hpair),
          by simp [headerLine]⟩
      · obtain rfl := List.mem_singleton.mp hlast
        exact ⟨unbroken_contentLengthLine request, by simp [contentLengthLine]⟩

/-- How many bytes some lines take. -/
def linesLength (lines : List (List UInt8)) : Nat := (lines.flatMap (· ++ crlf)).length

theorem linesLength_append (front back : List (List UInt8)) :
    linesLength (front ++ back) = linesLength front + linesLength back := by
  rw [linesLength, List.flatMap_append, List.length_append]
  rfl

theorem linesLength_perm {lines lines' : List (List UInt8)} (hperm : lines.Perm lines') :
    linesLength lines = linesLength lines' :=
  (hperm.flatMap_right _).length_eq

theorem eq_nil_of_linesLength {lines : List (List UInt8)} (hlength : linesLength lines = 0) :
    lines = [] := by
  cases lines with
  | nil => rfl
  | cons line lines =>
      simp [linesLength, crlf] at hlength

/-- Where the lines that are read have the length of the ones that were written, every entry of
the map is among them. -/
theorem isOther_of_readsBack {request : HttpRequest} {lines : List (List UInt8)}
    (hlength : linesLength lines = linesLength request.headerLines)
    (hhost : lines.filter isHost = [request.hostLine])
    (hcontent : lines.filter isContentLength = [request.contentLengthLine])
    (hother : (lines.filter isOther).Perm
      ((request.headers.filter fun headerPair => isOther headerPair.1).map headerLine)) :
    ∀ headerPair ∈ request.headers, isOther headerPair.1 = true := by
  have hkinds := linesLength_perm (perm_kinds lines)
  have hentries := linesLength_perm hother
  have hsplit := linesLength_perm ((List.filter_append_perm (fun headerPair => isOther headerPair.1)
    request.headers).map headerLine)
  rw [List.map_append, linesLength_append] at hsplit
  rw [hhost, hcontent, linesLength_append, linesLength_append] at hkinds
  have hwritten : linesLength request.headerLines = linesLength [request.hostLine] +
      (linesLength (request.headers.map headerLine) +
        linesLength [request.contentLengthLine]) := by
    rw [← linesLength_append, ← linesLength_append]
    rfl
  have hempty : linesLength ((request.headers.filter fun headerPair =>
      !isOther headerPair.1).map headerLine) = 0 := by omega
  have hnone := eq_nil_of_linesLength hempty
  rw [List.map_eq_nil_iff, List.filter_eq_nil_iff] at hnone
  intro headerPair hpair
  simpa using hnone headerPair hpair

theorem readsBack_iff (request : HttpRequest) :
    ReadsBack request (request.header ++ request.body) ↔ Separate request := by
  rw [header_body]
  constructor
  · rintro ⟨lines, hread, hhost, hcontent, hother⟩
    obtain ⟨hbytes, hlines⟩ := eq_writeHead_of_readHead hread
    have hlength : linesLength lines = linesLength request.headerLines := by
      have htotal := congrArg List.length hbytes
      simp only [writeHead, List.flatMap_cons, List.length_append] at htotal
      unfold linesLength
      omega
    have hnames := isOther_of_readsBack hlength hhost hcontent hother
    have hall : (request.headers.filter fun headerPair => isOther headerPair.1) =
        request.headers := List.filter_eq_self.mpr hnames
    rw [hall] at hother
    have hrequest := (unbroken_requestLine request).mp (hlines _ List.mem_cons_self).1
    have hhostLine : request.hostLine ∈ lines :=
      (List.mem_filter.mp (hhost ▸ List.mem_singleton_self _)).1
    refine ⟨⟨hrequest.1, hrequest.2, ?_, fun headerPair hpair => ?_⟩, hnames⟩
    · exact (unbroken_hostLine request).mp (hlines _ (List.mem_cons_of_mem _ hhostLine)).1
    · have hentry : headerLine headerPair ∈ lines.filter isOther :=
        hother.mem_iff.mpr (List.mem_map_of_mem hpair)
      exact (unbroken_headerLine headerPair).mp
        (hlines _ (List.mem_cons_of_mem _ (List.mem_filter.mp hentry).1)).1
  · intro hseparate
    obtain ⟨hhost, hcontent, hother⟩ := filter_headerLines hseparate.2
    refine ⟨request.headerLines, readHead_writeHead hseparate.lines _, hhost, hcontent, ?_⟩
    rw [hother, List.filter_eq_self.mpr hseparate.2]

/-- `serialize` rejects nothing: all that matters is what the stream has then. -/
theorem notConfused_iff_readsBack (depth : Nat) (request : HttpRequest) :
    NotConfused (depth + 1) request ↔ ReadsBack request (request.header ++ request.body) := by
  obtain ⟨s, io, hserialize, hstream, hcontent⟩ := serialize_fresh depth request
  rw [← hcontent]
  constructor
  · rintro (⟨what, hrejected⟩ | ⟨s', io', hserialize', hstream', hreads⟩)
    · rw [hserialize] at hrejected
      cases hrejected
    · rw [hserialize] at hserialize'
      cases hserialize'
      rw [hstream] at hstream'
      cases hstream'
      exact hreads
  · intro hreads
    exact Or.inr ⟨s, io, hserialize, hstream, hreads⟩

/-- **Requests.**  A request is read back as it was exactly if no string contains a line break and
no entry of the map is named like a generated line. -/
theorem notConfused_iff (depth : Nat) (request : HttpRequest) :
    NotConfused (depth + 1) request ↔ Separate request := by
  rw [notConfused_iff_readsBack, readsBack_iff]

/-- `GET / HTTP/1.1` with the entry `Content-Length: 5` and no body has two such lines. -/
theorem not_notConfused :
    ∃ request : HttpRequest, request.headers = [(Http.contentLengthName, [53])] ∧
      (readHead [] (request.header ++ request.body)).map (fun head =>
        head.1.filter isContentLength) =
          some [Http.contentLengthName ++ [58, 32, 53], Http.contentLengthName ++ [58, 32, 48]] ∧
      ¬NotConfused 1 request := by
  refine ⟨{
    host := [97]
    verb := [71, 69, 84]
    path := [47]
    headers := [(Http.contentLengthName, [53])] }, rfl, by decide, ?_⟩
  rw [notConfused_iff_readsBack, readsBack_iff]
  rintro ⟨-, hnames⟩
  exact absurd (hnames _ List.mem_cons_self) (by decide)

end HttpRequest
end Iostreams
