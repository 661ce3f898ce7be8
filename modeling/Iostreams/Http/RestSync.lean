import Iostreams.Foundation.Chain
import Iostreams.Http.Request
import Iostreams.Http.Uri

/-!
# `restSync`

`restSync` extracts the parts of a URI, connects, sends a request made of them and reads the
response; a response `302` makes it call itself with the URI of the `Location` header, and so on.
It counts nothing, so it comes to an end exactly if the chain of redirections does.

The target of a request is the path of its URI as it stands there, which may be empty, and the
host is all in front of it, which may have a query or a fragment in it.
-/

namespace Iostreams

open Foundation

/-- The arguments of `restSync` that redirections do not change. -/
structure RestCall where
  verb : List UInt8
  headers : List (List UInt8 × List UInt8) := []
  names_nodup : (headers.map Prod.fst).Nodup := by decide
  body : List UInt8 := []

namespace RestCall

open Http

/-- The request for the parts of a URI. -/
def request (call : RestCall) (extracted : ExtractedUri) : HttpRequest where
  host := extracted.host
  verb := call.verb
  path := extracted.path
  headers := call.headers
  names_nodup := call.names_nodup
  body := call.body

/-! ## Redirections -/

/-- `"302"` -/
def found : List UInt8 := [51, 48, 50]

/-- `"Location"` -/
def locationName : List UInt8 := [76, 111, 99, 97, 116, 105, 111, 110]

/-- `response.headers["Location"]` -/
def location (response : HttpResponse) : List UInt8 :=
  (response.headers.lookup locationName).getD []

/-- `restSync(verb, uri, headers, body)`: the URIs it requests, and its end.  `serve` is what comes
of a request for a URI: a response, or an exception while connecting, sending or reading. -/
def restSync (serve : List UInt8 → HttpRequest → Except String HttpResponse) (call : RestCall) :
    Nat → List UInt8 → List (List UInt8) × Except Halt HttpResponse
  | 0, _ => ([], .error .outOfFuel)
  | fuel + 1, uri =>
      match extractUri uri false with
      | .error what => ([], .error (.exception what))
      | .ok extracted =>
          match serve uri (call.request extracted) with
          | .error what => ([uri], .error (.exception what))
          | .ok response =>
              if response.statusCode = found then
                let (requested, result) := restSync serve call fuel (location response)
                (uri :: requested, result)
              else ([uri], .ok response)

variable (serve : List UInt8 → HttpRequest → Except String HttpResponse) (call : RestCall)

/-- It performs finitely many requests and then returns or throws. -/
def Terminates (uri : List UInt8) : Prop :=
  ∃ fuel, (restSync serve call fuel uri).2 ≠ .error .outOfFuel

/-- The URI that one request is redirected to. -/
def redirect (uri : List UInt8) : Option (List UInt8) :=
  match extractUri uri false with
  | .error _ => none
  | .ok extracted =>
      match serve uri (call.request extracted) with
      | .error _ => none
      | .ok response => if response.statusCode = found then some (location response) else none

/-- One request, where there is fuel for it. -/
theorem restSync_succ (fuel : Nat) (uri : List UInt8) :
    match redirect serve call uri with
    | some next => restSync serve call (fuel + 1) uri =
        (uri :: (restSync serve call fuel next).1, (restSync serve call fuel next).2)
    | none => (restSync serve call (fuel + 1) uri).1.length ≤ 1 ∧
        (restSync serve call (fuel + 1) uri).2 ≠ .error .outOfFuel := by
  rw [restSync, redirect]
  cases extractUri uri false with
  | error what => exact ⟨Nat.zero_le 1, nofun⟩
  | ok extracted =>
      simp only
      cases serve uri (call.request extracted) with
      | error what => exact ⟨Nat.le_refl 1, nofun⟩
      | ok response =>
          simp only
          by_cases hfound : response.statusCode = found
          · rw [if_pos hfound, if_pos hfound]
          · rw [if_neg hfound, if_neg hfound]
            exact ⟨Nat.le_refl 1, nofun⟩

/-- A chain that ends is followed to its end. -/
theorem restSync_ends {n : Nat} {uri : List UInt8}
    (hended : follow (redirect serve call) uri n = none) (fuel : Nat) :
    (restSync serve call fuel uri).1.length ≤ n ∧
      (n ≤ fuel → (restSync serve call fuel uri).2 ≠ .error .outOfFuel) := by
  induction n generalizing uri fuel with
  | zero => cases hended
  | succ n ih =>
      cases fuel with
      | zero => exact ⟨Nat.zero_le _, fun hle => absurd hle (Nat.not_succ_le_zero n)⟩
      | succ fuel =>
          have hstep := restSync_succ serve call fuel uri
          cases hredirect : redirect serve call uri with
          | none =>
              rw [hredirect] at hstep
              exact ⟨Nat.le_trans hstep.1 (Nat.succ_le_succ (Nat.zero_le n)), fun _ => hstep.2⟩
          | some next =>
              rw [hredirect] at hstep
              simp only at hstep
              obtain ⟨hlength, hresult⟩ :=
                ih ((follow_succ_eq_none n).mp hended next hredirect) fuel
              rw [hstep]
              exact ⟨Nat.succ_le_succ hlength, fun hle => hresult (Nat.le_of_succ_le_succ hle)⟩

/-- As long as the chain goes on, so do the requests. -/
theorem restSync_goes_on {fuel : Nat} {uri : List UInt8}
    (hgoes : follow (redirect serve call) uri fuel ≠ none) :
    (restSync serve call fuel uri).1.length = fuel ∧
      (restSync serve call fuel uri).2 = .error .outOfFuel := by
  induction fuel generalizing uri with
  | zero => exact ⟨rfl, rfl⟩
  | succ fuel ih =>
      have hstep := restSync_succ serve call fuel uri
      cases hredirect : redirect serve call uri with
      | none =>
          refine absurd ((follow_succ_eq_none fuel).mpr ?_) hgoes
          intro next hnext
          rw [hredirect] at hnext
          cases hnext
      | some next =>
          rw [hredirect] at hstep
          simp only at hstep
          have hnext : follow (redirect serve call) next fuel ≠ none := by
            intro hended
            refine hgoes ((follow_succ_eq_none fuel).mpr ?_)
            intro other hother
            rw [hredirect] at hother
            cases hother
            exact hended
          obtain ⟨hlength, hresult⟩ := ih hnext
          rw [hstep]
          exact ⟨congrArg Nat.succ hlength, hresult⟩

theorem terminates_iff_follow (uri : List UInt8) :
    Terminates serve call uri ↔ ∃ n, follow (redirect serve call) uri n = none := by
  constructor
  · rintro ⟨fuel, hresult⟩
    refine ⟨fuel, ?_⟩
    by_contra hgoes
    exact hresult (restSync_goes_on serve call hgoes).2
  · rintro ⟨n, hended⟩
    exact ⟨n, (restSync_ends serve call hended n).2 (Nat.le_refl n)⟩

/-- A server with finitely many URIs: no URI may come again. -/
theorem terminates_iff_fresh {uris : Finset (List UInt8)} {uri : List UInt8}
    (hstays : ∀ n later, follow (redirect serve call) uri n = some later → later ∈ uris) :
    Terminates serve call uri ↔
      ∀ i j, i < j → follow (redirect serve call) uri i = follow (redirect serve call) uri j →
        follow (redirect serve call) uri i = none :=
  (terminates_iff_follow serve call uri).trans (follow_ends_iff hstays)

/-- **Redirections.**  `restSync` performs finitely many requests and returns or throws exactly if
the chain of redirections ends: at most one request for each URI of the chain then, and one after
the other without end otherwise.  It does not end where a URI comes again. -/
theorem restSync_terminates_iff (uri : List UInt8) :
    (Terminates serve call uri ↔ ∃ n, follow (redirect serve call) uri n = none) ∧
    (∀ n, follow (redirect serve call) uri n = none →
      ∀ fuel, (restSync serve call fuel uri).1.length ≤ n) ∧
    ((∀ n, follow (redirect serve call) uri n ≠ none) →
      ∀ fuel, (restSync serve call fuel uri).1.length = fuel) ∧
    ∀ i j, i < j → follow (redirect serve call) uri i = follow (redirect serve call) uri j →
      follow (redirect serve call) uri i ≠ none → ¬Terminates serve call uri := by
  refine ⟨terminates_iff_follow serve call uri, ?_, ?_, ?_⟩
  · intro n hended fuel
    exact (restSync_ends serve call hended fuel).1
  · intro hgoes fuel
    exact (restSync_goes_on serve call (hgoes fuel)).1
  · intro i j hlt hagain huri hterminates
    obtain ⟨n, hended⟩ := (terminates_iff_follow serve call uri).mp hterminates
    exact follow_ne_none_of_eq hlt hagain huri n hended

/-- A server that redirects every request to `http://a`, and a request for `http://a`. -/
theorem not_restSync_terminates :
    ¬Terminates (fun _ _ => .ok {
      statusCode := found
      headers := Finmap.singleton locationName [104, 116, 116, 112, 58, 47, 47, 97] })
      { verb := [71, 69, 84] } [104, 116, 116, 112, 58, 47, 47, 97] := by
  rw [terminates_iff_follow]
  rintro ⟨n, hended⟩
  -- the first redirection leads back to where it starts
  exact follow_ne_none_of_eq Nat.zero_lt_one (by decide) (by decide) n hended

/-! ## The lines of the request -/

/-- `"HTTP/1.1"` -/
def versionText : List UInt8 := [72, 84, 84, 80, 47, 49, 46, 49]

/-- The request line is the verb, a target that starts with a slash, and the version; there is
neither a question mark nor a number sign in the line after it. -/
def WellFormedLines (call : RestCall) (bytes : List UInt8) : Prop :=
  ∃ requestLine rest hostLine rest' target,
    takeLine [] bytes = some (requestLine, rest) ∧ takeLine [] rest = some (hostLine, rest') ∧
    requestLine.splitOn 32 = [call.verb, target, versionText] ∧ target.head? = some 47 ∧
    63 ∉ hostLine ∧ 35 ∉ hostLine

/-- What `restSync` writes for a URI. -/
def WritesWellFormed (call : RestCall) (depth : Nat) (uri : List UInt8) : Prop :=
  ∃ extracted, extractUri uri false = .ok extracted ∧
    ∃ (s : Serial Stringbuf) (io : IOStream Stringbuf),
      (call.request extracted).serialize depth
        (Serial.ofStream { rdbuf := Stringbuf.ofString [] } false : Serial Stringbuf) = .ok s ∧
      s.stream = some io ∧ WellFormedLines call io.rdbuf.content

/-- The parts of a URI are in it. -/
theorem mem_of_mem_parts {uri : List UInt8} {c : UInt8}
    (hc : c ∈ pathText uri ∨ c ∈ hostText uri) : c ∈ uri := by
  have hafter : c ∈ afterScheme uri := by
    rcases hc with hpath | hhost
    · exact (List.dropWhile_suffix _).mem hpath
    · exact (List.takeWhile_prefix _).mem ((List.takeWhile_prefix _).mem hhost)
  have hskipped : c ∈ (uri.dropWhile (· ≠ 58)).tail := by
    unfold afterScheme skipSlashes at hafter
    split at hafter
    · exact List.mem_of_mem_drop hafter
    · exact hafter
  exact (List.dropWhile_suffix _).mem (List.mem_of_mem_tail hskipped)

/-- The path is empty, or it starts with the first slash behind the authority. -/
theorem head_pathText (uri : List UInt8) :
    (pathText uri).head? = some 47 ↔ 47 ∈ afterScheme uri := by
  rw [pathText]
  constructor
  · intro hhead
    exact (List.dropWhile_suffix _).mem (List.mem_of_mem_head? hhead)
  · intro hmem
    obtain ⟨front, back, hsplit, hfront⟩ := List.eq_append_cons_of_mem hmem
    rw [hsplit, (span_append hfront).2, List.head?_cons]

/-- Neither part of the request line but the verb has a space. -/
theorem splitOn_requestLine {request : HttpRequest} (hverb : 32 ∉ request.verb)
    (hpath : 32 ∉ request.path) :
    request.requestLine.splitOn 32 = [request.verb, request.path, versionText] := by
  have hline : request.requestLine =
      request.verb ++ 32 :: (request.path ++ 32 :: versionText) := by
    simp [HttpRequest.requestLine, versionText]
  rw [hline, List.splitOn_append_cons_self_of_not_mem hverb,
    List.splitOn_append_cons_self_of_not_mem hpath, List.splitOn_eq_singleton (by decide)]

/-- The first two lines of a request. -/
theorem wellFormedLines_iff {extracted : ExtractedUri} (hverb : 32 ∉ call.verb)
    (hpath : 32 ∉ extracted.path) (hplain : 13 ∉ extracted.path ∧ 13 ∉ extracted.host) :
    WellFormedLines call
        ((call.request extracted).header ++ (call.request extracted).body) ↔
      Unbroken call.verb ∧ extracted.path.head? = some 47 ∧
        63 ∉ extracted.host ∧ 35 ∉ extracted.host := by
  have hwritten : ∃ rest, (call.request extracted).header ++ (call.request extracted).body =
      (call.request extracted).requestLine ++ crlf ++
        ((call.request extracted).hostLine ++ crlf ++ rest) := by
    rw [HttpRequest.header]
    simp only [List.append_assoc]
    exact ⟨_, rfl⟩
  have hhost : ∀ c : UInt8, c = 63 ∨ c = 35 →
      (c ∉ (call.request extracted).hostLine ↔ c ∉ extracted.host) := by
    rintro c (rfl | rfl)
    · simp [HttpRequest.hostLine, request]
    · simp [HttpRequest.hostLine, request]
  have hsplit := @splitOn_requestLine (call.request extracted) hverb hpath
  have hunbroken : Unbroken (call.request extracted).requestLine ↔ Unbroken call.verb :=
    (HttpRequest.unbroken_requestLine _).trans
      (and_iff_left (unbroken_of_not_mem hplain.1))
  have hhostLine : Unbroken (call.request extracted).hostLine :=
    (HttpRequest.unbroken_hostLine _).mpr (unbroken_of_not_mem hplain.2)
  obtain ⟨rest, hbytes⟩ := hwritten
  rw [hbytes]
  constructor
  · rintro ⟨requestLine, later, hostLine, last, target, hfirst, hsecond, hparts, htarget, hquery,
      hfragment⟩
    -- the verb is part of a line that is taken, so it is not broken
    have hverbUnbroken : Unbroken call.verb := by
      have hline := (takeLine_eq_some hfirst (unbroken_take_one _)).2
      have hjoin := @List.intercalate_splitOn _ requestLine _ _ 32
      rw [hparts] at hjoin
      rw [← hjoin] at hline
      exact (List.isChain_append.mp hline).1
    rw [takeLine_line (hunbroken.mpr hverbUnbroken)] at hfirst
    cases hfirst
    rw [takeLine_line hhostLine] at hsecond
    cases hsecond
    rw [List.nil_append, hsplit] at hparts
    cases hparts
    exact ⟨hverbUnbroken, htarget, (hhost 63 (Or.inl rfl)).mp hquery,
      (hhost 35 (Or.inr rfl)).mp hfragment⟩
  · rintro ⟨hverbUnbroken, htarget, hquery, hfragment⟩
    exact ⟨_, _, _, _, _, takeLine_line (hunbroken.mpr hverbUnbroken) [] _,
      takeLine_line hhostLine [] rest, hsplit, htarget, (hhost 63 (Or.inl rfl)).mpr hquery,
      (hhost 35 (Or.inr rfl)).mpr hfragment⟩

/-- What is extracted are the parts of the URI. -/
theorem extracted_parts {uri : List UInt8} {extracted : ExtractedUri}
    (hextracted : extractUri uri false = .ok extracted) :
    extracted.path = pathText uri ∧ extracted.host = hostText uri := by
  rw [extractUri_eq] at hextracted
  by_cases hscheme : HasScheme uri
  · rw [if_pos hscheme] at hextracted
    cases hport : portOf (decide ((schemeText uri).map toLower = httpsName)) (portText uri) with
    | error what =>
        rw [hport] at hextracted
        cases hextracted
    | ok port =>
        rw [hport] at hextracted
        cases hextracted
        exact ⟨rfl, rfl⟩
  · rw [if_neg hscheme] at hextracted
    cases hextracted

/-- What is written for an accepted URI. -/
theorem writesWellFormed_of_extracted (depth : Nat) {uri : List UInt8} {extracted : ExtractedUri}
    (hextracted : extractUri uri false = .ok extracted) :
    WritesWellFormed call (depth + 1) uri ↔
      WellFormedLines call
        ((call.request extracted).header ++ (call.request extracted).body) := by
  obtain ⟨s, io, hserialize, hstream, hcontent⟩ :=
    HttpRequest.serialize_fresh depth (call.request extracted)
  rw [← hcontent]
  constructor
  · rintro ⟨extracted', hextracted', s', io', hserialize', hstream', hwell⟩
    rw [hextracted] at hextracted'
    cases hextracted'
    rw [hserialize] at hserialize'
    cases hserialize'
    rw [hstream] at hstream'
    cases hstream'
    exact hwell
  · intro hwell
    exact ⟨extracted, hextracted, s, io, hserialize, hstream, hwell⟩

/-- **The target of a request.**  For a verb without spaces and a URI without spaces and line
breaks that `extractUri` accepts, the first two lines are well formed exactly if the verb is not
broken, a slash stands behind the authority, and the host has neither a query nor a fragment. -/
theorem writesWellFormed_iff (depth : Nat) {uri : List UInt8} (hverb : 32 ∉ call.verb)
    (huri : ∀ c ∈ uri, c ≠ 32 ∧ c ≠ 13 ∧ c ≠ 10)
    (haccepted : ∃ extracted, extractUri uri false = .ok extracted) :
    WritesWellFormed call (depth + 1) uri ↔
      Unbroken call.verb ∧ 47 ∈ afterScheme uri ∧ 63 ∉ hostText uri ∧ 35 ∉ hostText uri := by
  obtain ⟨extracted, hextracted⟩ := haccepted
  obtain ⟨hpath, hhost⟩ := extracted_parts hextracted
  have hspace : 32 ∉ extracted.path := by
    rw [hpath]
    exact fun hmem => (huri 32 (mem_of_mem_parts (Or.inl hmem))).1 rfl
  have hreturn : 13 ∉ extracted.path ∧ 13 ∉ extracted.host := by
    rw [hpath, hhost]
    constructor
    · exact fun hmem => (huri 13 (mem_of_mem_parts (Or.inl hmem))).2.1 rfl
    · exact fun hmem => (huri 13 (mem_of_mem_parts (Or.inr hmem))).2.1 rfl
  rw [writesWellFormed_of_extracted call depth hextracted,
    wellFormedLines_iff call hverb hspace hreturn, hpath, head_pathText, hhost]

/-- `GET` and `http://a/` -/
theorem writesWellFormed_iff_slash :
    WritesWellFormed { verb := [71, 69, 84] } 1 [104, 116, 116, 112, 58, 47, 47, 97, 47] := by
  apply (writesWellFormed_iff { verb := [71, 69, 84] } 0 (by decide) (by simp) ⟨_, rfl⟩).mpr
  decide

/-- For `http://a` the request line is `GET  HTTP/1.1`, with an empty target; for `http://a?b/`
the second line is `Host: a?b`. -/
theorem not_writesWellFormed :
    ((⟨[71, 69, 84], [], by decide, []⟩ : RestCall).request
        (partsOf [104, 116, 116, 112, 58, 47, 47, 97] false 80)).requestLine =
      [71, 69, 84, 32, 32, 72, 84, 84, 80, 47, 49, 46, 49] ∧
    ¬WritesWellFormed { verb := [71, 69, 84] } 1 [104, 116, 116, 112, 58, 47, 47, 97] ∧
    ¬WritesWellFormed { verb := [71, 69, 84] } 1
      [104, 116, 116, 112, 58, 47, 47, 97, 63, 98, 47] := by
  refine ⟨by decide, fun hwell => ?_, fun hwell => ?_⟩
  · have hlines := (writesWellFormed_of_extracted _ 0 rfl).mp hwell
    obtain ⟨-, htarget, -, -⟩ :=
      (wellFormedLines_iff _ (by decide) (by decide) (by decide)).mp hlines
    exact absurd htarget (by decide)
  · have hlines := (writesWellFormed_of_extracted _ 0 rfl).mp hwell
    obtain ⟨-, -, hquery, -⟩ :=
      (wellFormedLines_iff _ (by decide) (by decide) (by decide)).mp hlines
    exact absurd hquery (by decide)

end RestCall
end Iostreams
