import Iostreams.Foundation.ByteString

/-!
# URIs

`extractUri` cuts a URI at the first colon, at the first slash behind the authority and at the
first colon inside the authority, and converts the port with `std::stoi`.  `extractUri_eq` says
what it returns in terms of these parts alone, and an `HttpUri` is what a URI is put together
from: each is read back from its rendering.
-/

namespace Iostreams

open Foundation

/-- `std::tuple<Scheme, Secure, Host, Port, Path>` -/
structure ExtractedUri where
  scheme : List UInt8
  secure : Bool
  host : List UInt8
  port : Int
  path : List UInt8
  deriving DecidableEq

namespace Http

/-- `"http"` -/
def httpName : List UInt8 := [104, 116, 116, 112]

/-- `"https"` -/
def httpsName : List UInt8 := [104, 116, 116, 112, 115]

/-- The port of a URI that has none. -/
def defaultPort (secure : Bool) : Int := if secure then 443 else 80

/-- `http_client::extractUri(uri, lowercaseHost)` -/
def extractUri (uri : List UInt8) (lowercaseHost : Bool) : Except String ExtractedUri :=
  match find uri 58 0 with
  | none => .error "http scheme not found"
  | some schemeEnd =>
      let scheme := (substr uri 0 schemeEnd).map toLower
      if scheme ≠ httpName ∧ scheme ≠ httpsName then .error "http scheme not found"
      else
        let secure := decide (scheme = httpsName)
        let pos := schemeEnd + 1
        let pos :=
          if pos + 2 ≤ uri.length ∧ uri[pos]? = some 47 ∧ uri[pos + 1]? = some 47 then pos + 2
          else pos
        let (hostPort, path) :=
          match find uri 47 pos with
          | none => (uri.drop pos, [])
          | some hostEnd => (substr uri pos (hostEnd - pos), uri.drop hostEnd)
        let hostAndPort : Except String (List UInt8 × Int) :=
          match find hostPort 58 0 with
          | none => .ok (hostPort, defaultPort secure)
          | some portSep =>
              let host := substr hostPort 0 portSep
              let portStr := hostPort.drop (portSep + 1)
              if portStr = [] then .ok (host, defaultPort secure)
              else
                match stoi portStr with
                | .error what => .error what
                | .ok port => .ok (host, port)
        match hostAndPort with
        | .error what => .error what
        | .ok (host, port) =>
            .ok {
              scheme
              secure
              host := if lowercaseHost then host.map toLower else host
              port
              path }

/-! ## The parts of a URI -/

/-- Up to the first colon. -/
def schemeText (uri : List UInt8) : List UInt8 := uri.takeWhile (· ≠ 58)

/-- Without the two slashes, if there are two. -/
def skipSlashes (text : List UInt8) : List UInt8 :=
  if text.take 2 = [47, 47] then text.drop 2 else text

/-- What follows the colon and the slashes. -/
def afterScheme (uri : List UInt8) : List UInt8 := skipSlashes (uri.dropWhile (· ≠ 58)).tail

/-- Up to the next slash. -/
def authority (uri : List UInt8) : List UInt8 := (afterScheme uri).takeWhile (· ≠ 47)

def pathText (uri : List UInt8) : List UInt8 := (afterScheme uri).dropWhile (· ≠ 47)

def hostText (uri : List UInt8) : List UInt8 := (authority uri).takeWhile (· ≠ 58)

/-- Between the colon of the authority and the path; nothing where there is no colon. -/
def portText (uri : List UInt8) : List UInt8 := ((authority uri).dropWhile (· ≠ 58)).tail

/-- The scheme is one of the two, in any letter case. -/
def HasScheme (uri : List UInt8) : Prop :=
  58 ∈ uri ∧ ((schemeText uri).map toLower = httpName ∨ (schemeText uri).map toLower = httpsName)

instance (uri : List UInt8) : Decidable (HasScheme uri) :=
  inferInstanceAs (Decidable (_ ∧ _))

/-- The port is converted where there is one. -/
def portOf (secure : Bool) (text : List UInt8) : Except String Int :=
  if text = [] then .ok (defaultPort secure) else stoi text

/-- What a URI with a scheme and a port says. -/
def partsOf (uri : List UInt8) (lowercaseHost : Bool) (port : Int) : ExtractedUri where
  scheme := (schemeText uri).map toLower
  secure := decide ((schemeText uri).map toLower = httpsName)
  host := if lowercaseHost then (hostText uri).map toLower else hostText uri
  port
  path := pathText uri

/-- Skipping the slashes by their positions. -/
theorem drop_slashes (uri : List UInt8) (pos : Nat) :
    uri.drop (if pos + 2 ≤ uri.length ∧ uri[pos]? = some 47 ∧ uri[pos + 1]? = some 47 then pos + 2
      else pos) = skipSlashes (uri.drop pos) := by
  have hget : ∀ i, uri[pos + i]? = (uri.drop pos)[i]? := fun i => List.getElem?_drop.symm
  have hfirst := hget 0
  have hsecond := hget 1
  have hlength := @List.length_drop _ pos uri
  have hslashes : (pos + 2 ≤ uri.length ∧ uri[pos]? = some 47 ∧ uri[pos + 1]? = some 47) ↔
      (uri.drop pos).take 2 = [47, 47] := by
    rw [Nat.add_zero] at hfirst
    rw [hfirst, hsecond]
    rcases htext : uri.drop pos with _ | ⟨c, _ | ⟨d, rest⟩⟩
    · simp
    · simp
    · rw [htext, List.length_cons, List.length_cons] at hlength
      have hle : pos + 2 ≤ uri.length := by omega
      simp [hle]
  unfold skipSlashes
  by_cases hskip : (uri.drop pos).take 2 = [47, 47]
  · rw [if_pos (hslashes.mpr hskip), if_pos hskip, List.drop_drop]
  · rw [if_neg (fun hboth => hskip (hslashes.mp hboth)), if_neg hskip]

/-- The authority and the path. -/
theorem hostPortAndPath_eq (uri : List UInt8) (pos : Nat) :
    (match find uri 47 pos with
      | none => (uri.drop pos, [])
      | some hostEnd => (substr uri pos (hostEnd - pos), uri.drop hostEnd)) =
      ((uri.drop pos).takeWhile (· ≠ 47), (uri.drop pos).dropWhile (· ≠ 47)) := by
  cases hfind : find uri 47 pos with
  | none =>
      obtain ⟨htake, hdrop⟩ := span_of_not_mem (find_eq_none.mp hfind)
      rw [htake, hdrop]
  | some hostEnd =>
      obtain ⟨-, hauthority, hpath, -⟩ := find_eq_some hfind
      simp only [hauthority, hpath]

/-- The host and the port of an authority. -/
theorem hostAndPort_eq (hostPort : List UInt8) (secure : Bool) :
    (match find hostPort 58 0 with
      | none => .ok (hostPort, defaultPort secure)
      | some portSep =>
          if hostPort.drop (portSep + 1) = [] then
            .ok (substr hostPort 0 portSep, defaultPort secure)
          else
            match stoi (hostPort.drop (portSep + 1)) with
            | .error what => .error what
            | .ok port => .ok (substr hostPort 0 portSep, port) : Except String _) =
      (portOf secure (hostPort.dropWhile (· ≠ 58)).tail).map fun port =>
        (hostPort.takeWhile (· ≠ 58), port) := by
  cases hfind : find hostPort 58 0 with
  | none =>
      obtain ⟨htake, hdrop⟩ := span_of_not_mem (find_eq_none.mp hfind)
      rw [List.drop_zero] at htake hdrop
      rw [htake, hdrop, portOf, List.tail_nil, if_pos rfl]
      rfl
  | some portSep =>
      obtain ⟨-, hhost, -, hport⟩ := find_eq_some hfind
      rw [Nat.sub_zero, List.drop_zero] at hhost
      rw [List.drop_zero] at hport
      simp only [hhost, hport]
      unfold portOf
      split
      · rfl
      · cases stoi (hostPort.dropWhile (· ≠ 58)).tail with
        | error what => rfl
        | ok port => rfl

/-- `extractUri` in terms of the parts of its argument. -/
theorem extractUri_eq (uri : List UInt8) (lowercaseHost : Bool) :
    extractUri uri lowercaseHost =
      if HasScheme uri then
        (portOf (decide ((schemeText uri).map toLower = httpsName)) (portText uri)).map
          (partsOf uri lowercaseHost)
      else .error "http scheme not found" := by
  unfold extractUri
  cases hfind : find uri 58 0 with
  | none =>
      have hnone : ¬HasScheme uri := fun hscheme => find_eq_none.mp hfind hscheme.1
      rw [if_neg hnone]
  | some schemeEnd =>
      obtain ⟨-, hscheme, -, hrest⟩ := find_eq_some hfind
      rw [Nat.sub_zero, List.drop_zero] at hscheme
      rw [List.drop_zero] at hrest
      have hmem : 58 ∈ uri := by
        by_contra hnot
        rw [find_eq_none.mpr (by rwa [List.drop_zero])] at hfind
        cases hfind
      have hname : HasScheme uri ↔ ¬((schemeText uri).map toLower ≠ httpName ∧
          (schemeText uri).map toLower ≠ httpsName) := by
        rw [HasScheme, and_iff_right hmem]
        tauto
      simp only [hscheme]
      change (if (schemeText uri).map toLower ≠ httpName ∧
        (schemeText uri).map toLower ≠ httpsName then _ else _) = _
      by_cases hunknown : (schemeText uri).map toLower ≠ httpName ∧
          (schemeText uri).map toLower ≠ httpsName
      · rw [if_pos hunknown, if_neg (fun hhas => hname.mp hhas hunknown)]
      · rw [if_neg hunknown, if_pos (hname.mpr hunknown)]
        -- from here on only what follows the scheme matters
        have hafter := drop_slashes uri (schemeEnd + 1)
        rw [hrest] at hafter
        generalize (if schemeEnd + 1 + 2 ≤ uri.length ∧ uri[schemeEnd + 1]? = some 47 ∧
          uri[schemeEnd + 1 + 1]? = some 47 then schemeEnd + 1 + 2 else schemeEnd + 1) = pos
          at hafter ⊢
        rw [hostPortAndPath_eq uri pos, hafter]
        simp only
        rw [hostAndPort_eq]
        obtain ⟨port, hport⟩ : ∃ port, portOf (decide ((schemeText uri).map toLower = httpsName))
            (portText uri) = port := ⟨_, rfl⟩
        rw [hport]
        unfold portText authority afterScheme schemeText at hport
        rw [hport]
        cases port with
        | error what => rfl
        | ok port => rfl

/-! ## Rendering -/

/-- What stands between the host and the path. -/
inductive PortPart where
  | absent
  /-- A colon alone. -/
  | empty
  | number (port : Nat)

def PortPart.render : PortPart → List UInt8
  | .absent => []
  | .empty => [58]
  | .number port => 58 :: decimal port

def PortPart.port (secure : Bool) : PortPart → Int
  | .absent | .empty => defaultPort secure
  | .number port => port

/-- The parts a URI is put together from. -/
structure HttpUri where
  scheme : List UInt8
  host : List UInt8
  port : PortPart
  path : List UInt8
  scheme_known : scheme.map toLower = httpName ∨ scheme.map toLower = httpsName
  host_plain : 47 ∉ host ∧ 58 ∉ host
  port_lt : ∀ number, port = .number number → number < 2 ^ 31
  path_rooted : path = [] ∨ path.head? = some 47

namespace HttpUri

/-- `scheme://host[:port]path` -/
def render (uri : HttpUri) : List UInt8 :=
  uri.scheme ++ 58 :: 47 :: 47 :: (uri.host ++ uri.port.render ++ uri.path)

def secure (uri : HttpUri) : Bool := decide (uri.scheme.map toLower = httpsName)

/-- What is to be read from it. -/
def extracted (uri : HttpUri) (lowercaseHost : Bool) : ExtractedUri where
  scheme := uri.scheme.map toLower
  secure := uri.secure
  host := if lowercaseHost then uri.host.map toLower else uri.host
  port := uri.port.port uri.secure
  path := uri.path

/-- No letter of the two names is a colon. -/
theorem colon_not_mem_scheme (uri : HttpUri) : 58 ∉ uri.scheme := by
  intro hmem
  have hlower : toLower 58 ∈ uri.scheme.map toLower := List.mem_map_of_mem hmem
  rcases uri.scheme_known with hname | hname
  · rw [hname] at hlower
    exact absurd hlower (by decide)
  · rw [hname] at hlower
    exact absurd hlower (by decide)

theorem parts_render (uri : HttpUri) :
    schemeText uri.render = uri.scheme ∧
      afterScheme uri.render = uri.host ++ uri.port.render ++ uri.path := by
  obtain ⟨hscheme, hrest⟩ := @span_append uri.scheme
    (47 :: 47 :: (uri.host ++ uri.port.render ++ uri.path)) 58 uri.colon_not_mem_scheme
  refine ⟨hscheme, ?_⟩
  rw [afterScheme, render, hrest]
  rfl

theorem slash_not_mem_port (port : PortPart) : 47 ∉ port.render := by
  cases port with
  | absent => exact List.not_mem_nil
  | empty => decide
  | number port =>
      intro hmem
      rcases List.mem_cons.mp hmem with hcolon | hdigit
      · exact absurd hcolon (by decide)
      · exact absurd (isDigit_decimal port 47 hdigit) (by decide)

/-- The path starts at the first slash behind the authority. -/
theorem authority_render (uri : HttpUri) :
    authority uri.render = uri.host ++ uri.port.render ∧ pathText uri.render = uri.path := by
  obtain ⟨-, hafter⟩ := uri.parts_render
  have hplain : 47 ∉ uri.host ++ uri.port.render := by
    rw [List.mem_append, not_or]
    exact ⟨uri.host_plain.1, slash_not_mem_port uri.port⟩
  rw [authority, pathText, hafter]
  rcases uri.path_rooted with hempty | hslash
  · rw [hempty, List.append_nil]
    exact span_of_not_mem hplain
  · obtain ⟨rest, hpath⟩ := List.head?_eq_some_iff.mp hslash
    rw [hpath]
    exact span_append hplain

theorem host_render (uri : HttpUri) :
    hostText uri.render = uri.host ∧ portText uri.render = uri.port.render.tail := by
  rw [hostText, portText, uri.authority_render.1]
  cases uri.port with
  | absent =>
      rw [PortPart.render, List.append_nil, (span_of_not_mem uri.host_plain.2).1,
        (span_of_not_mem uri.host_plain.2).2]
      exact ⟨rfl, rfl⟩
  | empty =>
      obtain ⟨hhost, hport⟩ := @span_append uri.host [] 58 uri.host_plain.2
      exact ⟨hhost, congrArg List.tail hport⟩
  | number port =>
      obtain ⟨hhost, hport⟩ := @span_append uri.host (decimal port) 58 uri.host_plain.2
      exact ⟨hhost, congrArg List.tail hport⟩

/-- The port of a URI is converted to the number it was rendered from. -/
theorem portOf_render (uri : HttpUri) (secure : Bool) :
    portOf secure uri.port.render.tail = .ok (uri.port.port secure) := by
  unfold portOf
  cases hport : uri.port with
  | absent => rfl
  | empty => rfl
  | number port =>
      have hlt := uri.port_lt port hport
      rw [PortPart.render, List.tail_cons, if_neg (decimal_ne_nil port), stoi_decimal hlt]
      rfl

/-- **Rendering and extraction.**  From a rendered URI exactly its parts are extracted, whatever
colons and slashes the path contains. -/
theorem extractUri_render (uri : HttpUri) (lowercaseHost : Bool) :
    extractUri uri.render lowercaseHost = .ok (uri.extracted lowercaseHost) := by
  obtain ⟨hscheme, -⟩ := uri.parts_render
  have hhas : HasScheme uri.render := by
    refine ⟨?_, ?_⟩
    · rw [render]
      exact List.mem_append_right _ List.mem_cons_self
    · rw [hscheme]
      exact uri.scheme_known
  rw [extractUri_eq, if_pos hhas, hscheme, uri.host_render.2, portOf_render]
  simp only [Except.map, partsOf, hscheme, uri.host_render.1, uri.authority_render.2]
  rfl

end HttpUri

/-! ## Ports -/

/-- The conversion of a port to `uint16_t`, which `htons` takes. -/
def toUInt16 (port : Int) : Nat := (port % 2 ^ 16).toNat

/-- The port is the number that stands in the URI, if one does, and connecting does not change
it. -/
structure UsablePort (uri : List UInt8) (port : Int) : Prop where
  range : 0 ≤ port ∧ port ≤ 65535
  text : portText uri = [] ∨
    (∀ c ∈ portText uri, isDigit c = true) ∧ digitsValue (portText uri) = port
  narrowed : toUInt16 port = port

/-- `extractUri` throws, or the port it returns is usable. -/
def PortSafe (uri : List UInt8) (lowercaseHost : Bool) : Prop :=
  ∀ extracted, extractUri uri lowercaseHost = .ok extracted → UsablePort uri extracted.port

/-- The text of the port starts with a number in the range of `int`, and there is more than its
digits (white space or a sign in front of them, anything behind them), or they denote no port. -/
def MisreadPort (uri : List UInt8) : Prop :=
  ∃ numeral : Numeral, numeral.text = portText uri ∧
    (-2 ^ 31 ≤ numeral.value ∧ numeral.value < 2 ^ 31) ∧
    (numeral.blanks ≠ [] ∨ numeral.sign ≠ [] ∨ numeral.rest ≠ [] ∨
      65535 < digitsValue numeral.digits)

theorem toUInt16_eq {port : Int} (hrange : 0 ≤ port ∧ port ≤ 65535) :
    (toUInt16 port : Int) = port := by
  unfold toUInt16
  omega

/-- An empty port is not misread: `std::stoi` is not asked. -/
theorem portText_ne_nil {uri : List UInt8} {numeral : Numeral}
    (htext : numeral.text = portText uri) : portText uri ≠ [] := by
  intro hempty
  rw [hempty] at htext
  simp only [Numeral.text, List.append_eq_nil_iff] at htext
  exact numeral.digits_ne htext.2.2.1

/-- A port that is misread is not the number in the URI, or not a port. -/
theorem usablePort_iff {uri : List UInt8} {value : Int} (hport : stoi (portText uri) = .ok value) :
    UsablePort uri value ↔ ¬MisreadPort uri := by
  constructor
  · rintro ⟨hrange, htext, -⟩ ⟨numeral, hnumeral, hint, hmisread⟩
    obtain ⟨hdigits, hvalue⟩ := htext.resolve_left (portText_ne_nil hnumeral)
    rw [← hnumeral] at hdigits
    obtain ⟨hblanks, hsign, hrest⟩ := numeral.digits_only_iff.mp hdigits
    have hlarge : 65535 < digitsValue numeral.digits := by tauto
    rw [← hnumeral, Numeral.text, hblanks, hsign, hrest, List.nil_append, List.nil_append,
      List.append_nil] at hvalue
    omega
  · intro hread
    obtain ⟨numeral, htext, rfl, hint⟩ := stoi_eq_ok_iff.mp hport
    have hplain : numeral.blanks = [] ∧ numeral.sign = [] ∧ numeral.rest = [] ∧
        digitsValue numeral.digits ≤ 65535 := by
      by_contra hother
      refine hread ⟨numeral, htext, hint, ?_⟩
      rw [← Nat.not_le]
      tauto
    obtain ⟨hblanks, hsign, hrest, hsmall⟩ := hplain
    have hdigits := numeral.digits_only_iff.mpr ⟨hblanks, hsign, hrest⟩
    have hall : portText uri = numeral.digits := by
      rw [← htext, Numeral.text, hblanks, hsign, hrest, List.nil_append, List.nil_append,
        List.append_nil]
    have hvalue : numeral.value = digitsValue numeral.digits := by
      rw [Numeral.value, hsign, if_neg (List.cons_ne_nil _ _).symm]
    have hrange : 0 ≤ numeral.value ∧ numeral.value ≤ 65535 := by omega
    refine ⟨hrange, Or.inr ⟨?_, ?_⟩, toUInt16_eq hrange⟩
    · rwa [← htext]
    · rw [hall, hvalue]

/-- **Ports.**  A URI is rejected or its port is usable, except where the scheme is known and
the text of the port starts with a number in the range of `int` without being a port. -/
theorem portSafe_iff (uri : List UInt8) (lowercaseHost : Bool) :
    PortSafe uri lowercaseHost ↔ ¬(HasScheme uri ∧ MisreadPort uri) := by
  unfold PortSafe
  rw [extractUri_eq]
  by_cases hscheme : HasScheme uri
  · rw [if_pos hscheme, and_iff_right hscheme]
    by_cases hempty : portText uri = []
    · have hread : ¬MisreadPort uri := by
        rintro ⟨numeral, htext, -⟩
        exact portText_ne_nil htext hempty
      refine iff_of_true ?_ hread
      intro extracted hextracted
      rw [portOf, if_pos hempty] at hextracted
      cases hextracted
      have hrange : ∀ secure, 0 ≤ defaultPort secure ∧ defaultPort secure ≤ 65535 := by decide
      exact ⟨hrange _, Or.inl hempty, toUInt16_eq (hrange _)⟩
    · rw [portOf, if_neg hempty]
      cases hport : stoi (portText uri) with
      | error what =>
          refine iff_of_true (fun extracted hextracted => nomatch hextracted) ?_
          rintro ⟨numeral, htext, hint, -⟩
          rw [stoi_eq_ok_iff.mpr ⟨numeral, htext, rfl, hint⟩] at hport
          cases hport
      | ok value =>
          rw [← usablePort_iff hport]
          constructor
          · intro hall
            exact hall _ rfl
          · intro husable extracted hextracted
            cases hextracted
            exact husable
  · rw [if_neg hscheme]
    exact iff_of_true (fun extracted hextracted => nomatch hextracted) fun hboth =>
      hscheme hboth.1

/-- `http://a:65616` is accepted, and the connection goes to port 80; of `http://a:80b` the port
is 80 as well. -/
theorem not_portSafe :
    (∃ extracted, extractUri [104, 116, 116, 112, 58, 47, 47, 97, 58, 54, 53, 54, 49, 54] false =
      .ok extracted ∧ extracted.port = 65616 ∧ toUInt16 extracted.port = 80) ∧
    (∃ extracted, extractUri [104, 116, 116, 112, 58, 47, 47, 97, 58, 56, 48, 98] false =
      .ok extracted ∧ extracted.port = 80) ∧
    ¬PortSafe [104, 116, 116, 112, 58, 47, 47, 97, 58, 54, 53, 54, 49, 54] false ∧
    ¬PortSafe [104, 116, 116, 112, 58, 47, 47, 97, 58, 56, 48, 98] false := by
  refine ⟨⟨_, rfl, rfl, rfl⟩, ⟨_, rfl, rfl⟩, fun hsafe => ?_, fun hsafe => ?_⟩
  · have hrange := (hsafe _ rfl).range
    exact absurd hrange.2 (by decide)
  · obtain ⟨hdigits, -⟩ := (hsafe _ rfl).text.resolve_left (by decide)
    exact absurd (hdigits 98 (by decide)) (by decide)

end Http
end Iostreams
