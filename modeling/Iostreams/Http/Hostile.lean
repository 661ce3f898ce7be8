import Iostreams.Http.Head
import Iostreams.Tcp.Streambuf

/-!
# Responses of a hostile server

Two properties of `deserialize` that must not depend on what the peer sends.
The reader comes to an end exactly when the head of the response does, and the
body it announces can be read: behind the end of the input it keeps reading
zeros, which neither end a line nor are an empty one, and a negative length is
converted to a size for which there may be no block, or no bounds in the buffer
below.  The memory behind a body covers the reported size unless the announced
length is `-1`, whose conversion is the largest `size_t`, so that
`malloc(contentLength + 1)` is asked for nothing.
-/

namespace Iostreams
namespace Http

open Foundation

variable {β : Type} [CharSource β] {s : Serial β} {bytes : List UInt8}

/-- A connection whose peer sends `data` in one segment and closes. -/
def closedConnection (data : List UInt8) : Serial TcpStreambuf :=
  Serial.ofStream { rdbuf := TcpStreambuf.connected data (fun _ => ⟨1460, by decide⟩) true } false

theorem hasInput_closedConnection (data : List UInt8) : (closedConnection data).HasInput data :=
  Serial.hasInput_ofStream rfl

/-! ## The body -/

/-- The length a `Content-Length` header announces. -/
def announced (headers : Headers) : Option Int :=
  (headers.lookup contentLengthName).bind fun text => (stoll text).toOption

/-- There is a block for the body, and the transfer of the body stays in the buffer below. -/
def BodyReadable (malloc : Nat → Bool) (s : Serial β) (length : Int) : Prop :=
  (toSizeT (toSizeT length + 1) ≠ 0 → malloc (toSizeT (toSizeT length + 1)) = true) ∧
    ¬s.Overruns (toSizeT length)

/-- The call returns or throws. -/
def Finishes {α : Type} (result : Except Halt α) : Prop :=
  (∃ value, result = .ok value) ∨ ∃ what, result = .error (.exception what)

theorem not_finishes_outOfFuel {α : Type} : ¬Finishes (.error .outOfFuel : Except Halt α) :=
  fun hfinishes => hfinishes.elim nofun nofun

theorem not_finishes_fault {α : Type} : ¬Finishes (.error .fault : Except Halt α) :=
  fun hfinishes => hfinishes.elim nofun nofun

section Body

variable {malloc : Nat → Bool} {fuel : Nat} {response : HttpResponse}

theorem readBody_none (s : Serial β) (hnone : announced response.headers = none) :
    readBody malloc fuel s response = .ok (response, s) ∨
      ∃ what, readBody malloc fuel s response = .error (.exception what) := by
  unfold readBody
  unfold announced at hnone
  cases htext : response.headers.lookup contentLengthName with
  | none => exact Or.inl rfl
  | some text =>
      rw [htext, Option.bind_some] at hnone
      by_cases hempty : text = []
      · exact Or.inl (if_pos hempty)
      · cases hparse : stoll text with
        | error what => exact Or.inr ⟨what, by simp [hempty, hparse]⟩
        | ok length => simp [hparse, Except.toOption] at hnone

/-- A body that is announced is read into a block of `contentLength + 1` bytes, computed
as a `size_t`. -/
theorem readBody_length (s : Serial β) {length : Int}
    (hsome : announced response.headers = some length) :
    readBody malloc fuel s response =
      if toSizeT (toSizeT length + 1) ≠ 0 ∧ malloc (toSizeT (toSizeT length + 1)) = false then
        .error .fault
      else
        s.readBytes fuel (List.replicate (toSizeT (toSizeT length + 1)) 0) (toSizeT length) >>=
          fun (_, body, s) => .ok ({ response with body := ⟨toSizeT length, some body⟩ }, s) := by
  unfold readBody
  unfold announced at hsome
  cases htext : response.headers.lookup contentLengthName with
  | none => simp [htext] at hsome
  | some text =>
      rw [htext, Option.bind_some] at hsome
      cases hparse : stoll text with
      | error what => simp [hparse, Except.toOption] at hsome
      | ok length' =>
          obtain rfl : length' = length := by simpa [hparse, Except.toOption] using hsome
          have hempty : text ≠ [] := by
            rintro rfl
            cases hparse
          simp only [hempty, if_false, hparse]
          rfl

theorem readBody_some (hinput : s.HasInput bytes) (hfuel : 0 < fuel) {length : Int}
    (hsome : announced response.headers = some length) (hreadable : BodyReadable malloc s length) :
    ∃ block s', readBody malloc fuel s response =
        .ok ({ response with body := ⟨toSizeT length, some block⟩ }, s') ∧
      block.length = toSizeT (toSizeT length + 1) := by
  obtain ⟨fuel, rfl⟩ := Nat.exists_eq_succ_of_ne_zero (Nat.ne_of_gt hfuel)
  obtain ⟨count, block, s', hread, hblock⟩ := hinput.returns (toSizeT_lt length) hreadable.2 fuel
    (List.replicate (toSizeT (toSizeT length + 1)) 0)
  refine ⟨block, s', ?_, by rw [hblock, List.length_replicate]⟩
  have hgranted : ¬(toSizeT (toSizeT length + 1) ≠ 0 ∧
      malloc (toSizeT (toSizeT length + 1)) = false) := by
    rintro ⟨hsize, hrefused⟩
    rw [hreadable.1 hsize] at hrefused
    cases hrefused
  rw [readBody_length s hsome, if_neg hgranted, hread]
  rfl

/-- Without a block, or past the buffer, the body is the last thing the reader gets to. -/
theorem readBody_fault (hinput : s.HasInput bytes) (hfuel : 0 < fuel) {length : Int}
    (hsome : announced response.headers = some length)
    (hreadable : ¬BodyReadable malloc s length) :
    readBody malloc fuel s response = .error .fault := by
  obtain ⟨fuel, rfl⟩ := Nat.exists_eq_succ_of_ne_zero (Nat.ne_of_gt hfuel)
  rw [readBody_length s hsome]
  split
  · rfl
  · next hgranted =>
      have hover : s.Overruns (toSizeT length) := by
        by_contra hfits
        refine hreadable ⟨fun hsize => ?_, hfits⟩
        by_contra hrefused
        exact hgranted ⟨hsize, Bool.eq_false_of_not_eq_true hrefused⟩
      rw [hinput.fault (toSizeT_lt length) hover]
      rfl

theorem readBody_finishes_iff (hinput : s.HasInput bytes) (hfuel : 0 < fuel) :
    Finishes (readBody malloc fuel s response) ↔
      ∀ length, announced response.headers = some length → BodyReadable malloc s length := by
  cases hannounced : announced response.headers with
  | none =>
      refine iff_of_true ?_ nofun
      rcases readBody_none s hannounced with hreturn | ⟨what, hthrow⟩
      · exact Or.inl ⟨_, hreturn⟩
      · exact Or.inr ⟨what, hthrow⟩
  | some length =>
      constructor
      · rintro hfinishes length' ⟨rfl⟩
        by_contra hreadable
        rw [readBody_fault hinput hfuel hannounced hreadable] at hfinishes
        exact not_finishes_fault hfinishes
      · intro hreadable
        obtain ⟨block, s', hreturn, -⟩ :=
          readBody_some hinput hfuel hannounced (hreadable length rfl)
        exact Or.inl ⟨_, hreturn⟩

end Body

/-! ## Termination -/

/-- The length that the head announces for a body, over the headers that are there. -/
def announcedIn (headers : Headers) (bytes : List UInt8) : Option Int :=
  match completeLines bytes with
  | [] => none
  | statusLine :: lines =>
      if 2 ≤ statusLine.count 32 ∧ lines.contains [] then announced (headersOf headers lines)
      else none

theorem announcedIn_append {text : List UInt8} (htext : 10 ∉ text) (headers : Headers)
    (rest : List UInt8) :
    announcedIn headers (text ++ 10 :: rest) =
      if 2 ≤ (strip text).count 32 ∧ [] ∈ completeLines rest then
        announced (headersOf headers (completeLines rest))
      else none := by
  rw [announcedIn, completeLines_append htext]
  simp only [List.contains_iff_mem]

omit [CharSource β] in
theorem BodyReadable.congr {malloc : Nat → Bool} {s s' : Serial β}
    (hbacking : s'.backing = s.backing) {length : Int} :
    BodyReadable malloc s' length ↔ BodyReadable malloc s length := by
  rw [BodyReadable, BodyReadable, Serial.Overruns.congr hbacking]

/-- Behind a head that ends, everything depends on the body. -/
theorem deserialize_finishes_iff {text rest : List UInt8} (htext : 10 ∉ text)
    (hinput : s.HasInput (text ++ 10 :: rest)) (malloc : Nat → Bool) (response : HttpResponse)
    (hspaces : 2 ≤ (strip text).count 32) (hempty : [] ∈ completeLines rest) :
    (∃ fuel, Finishes (deserializeWith malloc fuel s response)) ↔
      ∀ length, announced (headersOf response.headers (completeLines rest)) = some length →
        BodyReadable malloc s length := by
  have hhead := deserialize_head htext ⟨hinput, rfl⟩ response hspaces hempty malloc
  constructor
  · rintro ⟨fuel, hfinishes⟩ length hannounced
    rcases hhead fuel with ⟨s', hbody, hinput', hfuel⟩ | ⟨-, hshort⟩
    · rw [hbody, readBody_finishes_iff hinput'.1 hfuel] at hfinishes
      exact (BodyReadable.congr hinput'.2).mp (hfinishes length hannounced)
    · rw [hshort] at hfinishes
      exact absurd hfinishes not_finishes_outOfFuel
  · intro hreadable
    refine ⟨(text ++ 10 :: rest).length + 1, ?_⟩
    rcases hhead ((text ++ 10 :: rest).length + 1) with ⟨s', hbody, hinput', hfuel⟩ | ⟨hshort, -⟩
    · rw [hbody, readBody_finishes_iff hinput'.1 hfuel]
      exact fun length hannounced =>
        (BodyReadable.congr hinput'.2).mpr (hreadable length hannounced)
    · omega

/-- The reader returns or throws exactly if the head of the response ends and a body that it
announces can be read. -/
theorem deserialize_terminates_iff (hinput : s.HasInput bytes) (malloc : Nat → Bool)
    (response : HttpResponse) :
    (∃ fuel, Finishes (deserializeWith malloc fuel s response)) ↔
      HeadComplete bytes ∧
        ∀ length, announcedIn response.headers bytes = some length →
          BodyReadable malloc s length := by
  by_cases hhead : HeadComplete bytes
  swap
  · refine iff_of_false ?_ fun hboth => hhead hboth.1
    rintro ⟨fuel, hfinishes⟩
    rw [deserialize_endless ⟨hinput, rfl⟩ hhead] at hfinishes
    exact not_finishes_outOfFuel hfinishes
  rw [and_iff_right hhead]
  rcases find_cases bytes 10 with hbytes | ⟨text, rest, rfl, htext⟩
  · rw [HeadComplete, completeLines_of_not_mem hbytes] at hhead
    exact hhead.elim
  rw [HeadComplete, completeLines_append htext] at hhead
  rw [announcedIn_append htext]
  by_cases hspaces : (strip text).count 32 < 2
  · -- the reader stops behind the status line
    rw [if_neg fun hgo => absurd hspaces (Nat.not_lt.mpr hgo.1)]
    refine iff_of_true ⟨(text ++ 10 :: rest).length + 1, ?_⟩
      fun length hlength => absurd hlength.symm (Option.some_ne_none length)
    rcases deserialize_stops htext ⟨hinput, rfl⟩ response hspaces malloc
        ((text ++ 10 :: rest).length + 1) with ⟨s', hstop⟩ | ⟨hshort, -⟩
    · exact Or.inl ⟨_, hstop⟩
    · omega
  · have hgo : 2 ≤ (strip text).count 32 := Nat.not_lt.mp hspaces
    have hempty : [] ∈ completeLines rest := hhead.resolve_left hspaces
    rw [if_pos ⟨hgo, hempty⟩]
    exact deserialize_finishes_iff htext hinput malloc response hgo hempty

/-- A head that announces three bytes, over a stream. -/
theorem deserialize_terminates_iff_three :
    let data := [72, 84, 84, 80, 47, 49, 46, 49, 32, 50, 48, 48, 32, 79, 75, 10,
      67, 111, 110, 116, 101, 110, 116, 45, 76, 101, 110, 103, 116, 104, 58, 32, 51, 10, 10]
    (∃ fuel, Finishes (deserializeWith mallocObject fuel (closedConnection data) {})) ↔
      HeadComplete data ∧ ∀ length, announcedIn ∅ data = some length →
        BodyReadable mallocObject (closedConnection data) length :=
  deserialize_terminates_iff (hasInput_closedConnection _) mallocObject {}

/-- A peer that closes after the status line. -/
theorem deserialize_statusLine_only :
    ¬∃ fuel, Finishes (deserialize fuel (closedConnection
      [72, 84, 84, 80, 47, 49, 46, 49, 32, 50, 48, 48, 32, 79, 75, 13, 10]) {}) := by
  rintro ⟨fuel, hfinishes⟩
  rw [deserialize, deserialize_endless ⟨hasInput_closedConnection _, rfl⟩ (by decide)] at hfinishes
  exact not_finishes_outOfFuel hfinishes

/-! ## The memory behind the body -/

/-- The reported size is covered by the block, so that the copy for C callers stays in
its bounds. -/
def BodyInBounds (response : HttpResponse) : Prop :=
  (0 < response.body.size → ∃ block, response.body.block = some block ∧
    response.body.size ≤ block.length) ∧
  (makeHttpResponse response).isSome = true

/-- The value of the last header line with this name. -/
def lastValue (name : List UInt8) (lines : List (List UInt8)) : Option (List UInt8) :=
  lines.reverse.findSome? fun line =>
    match headerField line with
    | some (key, value) => if key = name then some value else none
    | none => none

/-- The length the last `Content-Length` line of a complete head announces. -/
def announcedLength (bytes : List UInt8) : Option Int :=
  match completeLines bytes with
  | [] => none
  | statusLine :: lines =>
      if 2 ≤ statusLine.count 32 ∧ lines.contains [] then
        (lastValue contentLengthName (headerLines lines)).bind fun text => (stoll text).toOption
      else none

/-- The header map keeps the last value of a name. -/
theorem lookup_foldl_setHeader (name : List UInt8) (lines : List (List UInt8)) :
    (lines.foldl setHeader ∅).lookup name = lastValue name lines := by
  induction lines using List.reverseRecOn with
  | nil => rfl
  | append_singleton lines line ih =>
      rw [List.foldl_append, List.foldl_cons, List.foldl_nil, setHeader, lastValue,
        List.reverse_append, List.reverse_singleton, List.singleton_append, List.findSome?_cons]
      cases hfield : headerField line with
      | none => exact ih
      | some field =>
          obtain ⟨key, value⟩ := field
          by_cases hkey : key = name
          · subst hkey
            simp
          · simp only [hkey, if_false]
            rw [Finmap.lookup_insert_of_ne _ (Ne.symm hkey)]
            exact ih

theorem announcedLength_eq (bytes : List UInt8) : announcedLength bytes = announcedIn ∅ bytes := by
  unfold announcedLength announcedIn announced headersOf
  simp only [lookup_foldl_setHeader]

theorem announced_bounds {headers : Headers} {length : Int}
    (hannounced : announced headers = some length) : -2 ^ 63 ≤ length ∧ length < 2 ^ 63 := by
  unfold announced at hannounced
  obtain ⟨text, -, htext⟩ := Option.bind_eq_some_iff.mp hannounced
  cases hparse : stoll text with
  | error what => simp [hparse, Except.toOption] at htext
  | ok value =>
      obtain rfl : value = length := by simpa [hparse, Except.toOption] using htext
      exact stoll_bounds hparse

/-- A body as the reader allocates it for an announced length. -/
def AllocatedFor (body : Body) (length : Int) : Prop :=
  -2 ^ 63 ≤ length ∧ length < 2 ^ 63 ∧ ∃ block, body = ⟨toSizeT length, some block⟩ ∧
    block.length = toSizeT (toSizeT length + 1)

/-- A body is as it was, or a block for the length that was announced. -/
theorem body_of_readBody (hinput : s.HasInput bytes) {malloc : Nat → Bool} {fuel : Nat}
    (hfuel : 0 < fuel) {head response : HttpResponse} {s' : Serial β}
    (hreturn : readBody malloc fuel s head = .ok (response, s')) :
    response.body = head.body ∨
      ∃ length, announced head.headers = some length ∧ BodyReadable malloc s length ∧
        AllocatedFor response.body length := by
  cases hannounced : announced head.headers with
  | none =>
      rcases readBody_none s hannounced with hplain | ⟨what, hthrow⟩
      · rw [hplain] at hreturn
        cases hreturn
        exact Or.inl rfl
      · rw [hthrow] at hreturn
        cases hreturn
  | some length =>
      obtain ⟨hlow, hhigh⟩ := announced_bounds hannounced
      by_cases hreadable : BodyReadable malloc s length
      · obtain ⟨block, s₁, hread, hblock⟩ := readBody_some hinput hfuel hannounced hreadable
        rw [hread] at hreturn
        cases hreturn
        exact Or.inr ⟨length, rfl, hreadable, hlow, hhigh, block, rfl, hblock⟩
      · rw [readBody_fault hinput hfuel hannounced hreadable] at hreturn
        cases hreturn

/-- Whatever is returned has no body or one of the announced length, which could be read. -/
theorem body_of_returns (hinput : s.HasInput bytes) {malloc : Nat → Bool} {fuel : Nat}
    {response : HttpResponse} {s' : Serial β}
    (hreturn : deserializeWith malloc fuel s {} = .ok (response, s')) :
    response.body = {} ∨
      ∃ length, announcedLength bytes = some length ∧ BodyReadable malloc s length ∧
        AllocatedFor response.body length := by
  by_cases hhead : HeadComplete bytes
  swap
  · -- an incomplete head is read for ever
    rw [deserialize_endless ⟨hinput, rfl⟩ hhead] at hreturn
    cases hreturn
  rcases find_cases bytes 10 with hbytes | ⟨text, rest, rfl, htext⟩
  · rw [HeadComplete, completeLines_of_not_mem hbytes] at hhead
    exact hhead.elim
  rw [HeadComplete, completeLines_append htext] at hhead
  have hfresh := (parseStatusLine_frame {} (strip text)).2
  by_cases hspaces : (strip text).count 32 < 2
  · -- the decoder stops at the status line, and the body is the one it was given
    rcases deserialize_stops htext ⟨hinput, rfl⟩ {} hspaces malloc fuel with
      ⟨s₁, hstop⟩ | ⟨-, hshort⟩
    · rw [hstop] at hreturn
      cases hreturn
      exact Or.inl hfresh
    · rw [hshort] at hreturn
      cases hreturn
  have hgo : 2 ≤ (strip text).count 32 := Nat.not_lt.mp hspaces
  have hempty : [] ∈ completeLines rest := hhead.resolve_left hspaces
  rw [announcedLength_eq, announcedIn_append htext, if_pos ⟨hgo, hempty⟩]
  rcases deserialize_head htext ⟨hinput, rfl⟩ {} hgo hempty malloc fuel with
    ⟨s₁, hbody, hinput₁, hfuel⟩ | ⟨-, hshort⟩
  swap
  · rw [hshort] at hreturn
    cases hreturn
  rw [hbody] at hreturn
  rcases body_of_readBody hinput₁.1 hfuel hreturn with hsame | ⟨length, hlength, hreadable, hblock⟩
  · exact Or.inl (hsame.trans hfresh)
  · exact Or.inr ⟨length, hlength, (BodyReadable.congr hinput₁.2).mp hreadable, hblock⟩

/-- A body that is announced and can be read is returned. -/
theorem returns_of_announced (hinput : s.HasInput bytes) {malloc : Nat → Bool} {length : Int}
    (hannounced : announcedLength bytes = some length) (hreadable : BodyReadable malloc s length) :
    ∃ fuel response s', deserializeWith malloc fuel s {} = .ok (response, s') ∧
      AllocatedFor response.body length := by
  rw [announcedLength_eq] at hannounced
  rcases find_cases bytes 10 with hbytes | ⟨text, rest, rfl, htext⟩
  · simp [announcedIn, completeLines_of_not_mem hbytes] at hannounced
  rw [announcedIn_append htext] at hannounced
  by_cases hgo : 2 ≤ (strip text).count 32 ∧ [] ∈ completeLines rest
  swap
  · simp [hgo] at hannounced
  rw [if_pos hgo] at hannounced
  obtain ⟨hlow, hhigh⟩ := announced_bounds hannounced
  rcases deserialize_head htext ⟨hinput, rfl⟩ {} hgo.1 hgo.2 malloc
      ((text ++ 10 :: rest).length + 1) with ⟨s₁, hbody, hinput₁, hfuel⟩ | ⟨hshort, -⟩
  swap
  · omega
  generalize hresponse : ({ (parseStatusLine {} (strip text)).1 with
    headers := headersOf ∅ (completeLines rest) } : HttpResponse) = head at hbody
  have hheaders : headersOf ∅ (completeLines rest) = head.headers := by rw [← hresponse]
  rw [hheaders] at hannounced
  obtain ⟨block, s₂, hread, hblock⟩ := readBody_some hinput₁.1 hfuel hannounced
    ((BodyReadable.congr hinput₁.2).mpr hreadable)
  exact ⟨_, _, _, hbody.trans hread, hlow, hhigh, block, rfl, hblock⟩

/-- Only `-1` is converted to the largest `size_t`. -/
theorem toSizeT_succ {length : Int} (hlow : -2 ^ 63 ≤ length) (hhigh : length < 2 ^ 63) :
    toSizeT (toSizeT length + 1) = if length = -1 then 0 else toSizeT length + 1 := by
  split
  · next hminus => rw [hminus]; rfl
  · next hother =>
      have hlt : (toSizeT length : Int) + 1 < 2 ^ 64 := by
        unfold toSizeT
        omega
      unfold toSizeT
      omega

theorem bodyInBounds_none {response : HttpResponse} (hbody : response.body = {}) :
    BodyInBounds response := by
  rw [BodyInBounds, makeHttpResponse, hbody]
  exact ⟨fun hpos => absurd hpos (by decide), rfl⟩

theorem bodyInBounds_block {response : HttpResponse} {length : Int}
    (hbody : AllocatedFor response.body length) : BodyInBounds response ↔ length ≠ -1 := by
  obtain ⟨hlow, hhigh, block, hbody, hblock⟩ := hbody
  have hsucc := toSizeT_succ hlow hhigh
  rw [BodyInBounds, makeHttpResponse, hbody]
  constructor
  · rintro ⟨hcovered, -⟩ rfl
    have hlargest : 0 < toSizeT (-1) := by decide
    obtain ⟨block', hsame, hle⟩ := hcovered hlargest
    obtain rfl : block = block' := by simpa using hsame
    rw [hblock, hsucc, if_pos rfl] at hle
    exact absurd hlargest (Nat.not_lt.mpr hle)
  · intro hother
    rw [if_neg hother] at hsucc
    have hle : toSizeT length ≤ block.length := by omega
    refine ⟨fun _ => ⟨block, rfl, hle⟩, ?_⟩
    by_cases hpos : 0 < toSizeT length
    · have hcopy : toSizeT length ≤ block.length ∧
          toSizeT length < toSizeT (toSizeT length + 1) := ⟨hle, by omega⟩
      simp [hpos, copyBody, hcopy]
    · simp [hpos]

omit [CharSource β] in
/-- No block is needed for an announced length of `-1`. -/
theorem bodyReadable_minusOne {malloc : Nat → Bool} (hfits : ¬s.Overruns (toSizeT (-1))) :
    BodyReadable malloc s (-1) :=
  ⟨fun hsize => absurd rfl hsize, hfits⟩

/-- An announced length of `-1` is reported without memory behind it, unless the transfer of the
body faults. -/
theorem exists_out_of_bounds (hinput : s.HasInput bytes) (malloc : Nat → Bool)
    (hannounced : announcedLength bytes = some (-1)) (hfits : ¬s.Overruns (toSizeT (-1))) :
    ∃ fuel response s', deserializeWith malloc fuel s {} = .ok (response, s') ∧
      ¬BodyInBounds response := by
  obtain ⟨fuel, response, s', hreturn, hbody⟩ :=
    returns_of_announced hinput hannounced (bodyReadable_minusOne hfits)
  exact ⟨fuel, response, s', hreturn, fun hbounds => (bodyInBounds_block hbody).mp hbounds rfl⟩

/-- Every response that is returned is covered by memory exactly if no length of `-1` is
announced, or its transfer does not return. -/
theorem bodyInBounds_iff (hinput : s.HasInput bytes) (malloc : Nat → Bool) :
    (∀ fuel response s', deserializeWith malloc fuel s {} = .ok (response, s') →
      BodyInBounds response) ↔
        announcedLength bytes ≠ some (-1) ∨ s.Overruns (toSizeT (-1)) := by
  constructor
  · intro hcovered
    by_contra hneither
    obtain ⟨hminus, hfits⟩ := not_or.mp hneither
    obtain ⟨fuel, response, s', hreturn, hbounds⟩ :=
      exists_out_of_bounds hinput malloc (not_not.mp hminus) hfits
    exact hbounds (hcovered fuel response s' hreturn)
  · intro heither fuel response s' hreturn
    rcases body_of_returns hinput hreturn with hbody | ⟨length, hlength, hreadable, hbody⟩
    · exact bodyInBounds_none hbody
    · apply (bodyInBounds_block hbody).mpr
      rintro rfl
      rcases heither with hother | hover
      · exact hother hlength
      · exact hreadable.2 hover

/-- A response of three bytes. -/
theorem bodyInBounds_iff_three :
    let data := [72, 84, 84, 80, 47, 49, 46, 49, 32, 50, 48, 48, 32, 79, 75, 10,
      67, 111, 110, 116, 101, 110, 116, 45, 76, 101, 110, 103, 116, 104, 58, 32, 51, 10, 10,
      97, 98, 99]
    (∀ fuel response s', deserializeWith mallocObject fuel (closedConnection data) {} =
      .ok (response, s') → BodyInBounds response) ↔
        announcedLength data ≠ some (-1) ∨ (closedConnection data).Overruns (toSizeT (-1)) :=
  bodyInBounds_iff (hasInput_closedConnection _) mallocObject

/-- A response with `Content-Length: -1`. -/
def minusOneResponse : List UInt8 :=
  [72, 84, 84, 80, 47, 49, 46, 49, 32, 50, 48, 48, 32, 79, 75, 13, 10,
    67, 111, 110, 116, 101, 110, 116, 45, 76, 101, 110, 103, 116, 104, 58, 32, 45, 49, 13, 10,
    13, 10]

theorem minusOneResponse_out_of_bounds :
    ¬∀ fuel response s', deserialize fuel (closedConnection minusOneResponse) {} =
      .ok (response, s') → BodyInBounds response := by
  intro hcovered
  have hannounced : announcedLength minusOneResponse = some (-1) := by decide
  obtain ⟨fuel, response, s', hreturn, hbounds⟩ :=
    exists_out_of_bounds (hasInput_closedConnection minusOneResponse) mallocObject hannounced
      ((Serial.streamMode_ofStream _).not_overruns _)
  exact hbounds (hcovered fuel response s' hreturn)

end Http
end Iostreams
