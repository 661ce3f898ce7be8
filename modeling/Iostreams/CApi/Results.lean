import Iostreams.CApi.HeadersJson
import Iostreams.Foundation.Ownership
import Iostreams.Http.FieldNames

/-!
# The memory behind the results of the C API

A response, a list of entries and a string are given to C callers in blocks from `malloc`, which
they give back by `io_http_response_free`, `io_archive_entries_free` and `io_string_free`.  The
functions do not mark what they have freed, and `io_archive_entries_free` believes the count that it
gets.

A block never changes, so that its content is the kind of the resource, and a pointer tells what a
caller reads there for as long as the block is held.  `malloc` does not fail.
-/

namespace Iostreams

open Foundation

/-- The bytes of a text or of a body, or the pointers to texts in a `char**`. -/
inductive CBlock where
  | bytes (content : List UInt8)
  | pointers (texts : List (List UInt8 × Nat))
  deriving DecidableEq, Repr

abbrev CPointer := CBlock × Nat

namespace CPointer

def content (pointer : CPointer) : List UInt8 :=
  match pointer.1 with
  | .bytes content => content
  | .pointers _ => []

/-- The elements of a `char**`. -/
def elements (pointer : CPointer) : List CPointer :=
  match pointer.1 with
  | .bytes _ => []
  | .pointers texts => texts.map fun (content, number) => (.bytes content, number)

/-- What a caller reads as a string. -/
def text (pointer : CPointer) : List UInt8 := pointer.content.takeWhile (· ≠ 0)

end CPointer

/-- `str.c_str()`, as C reads it. -/
def cText (str : List UInt8) : List UInt8 := str.takeWhile (· ≠ 0)

/-- A response with its headers in the order in which they are iterated over. -/
structure HttpAnswer where
  response : HttpResponse
  entries : List (List UInt8 × List UInt8)
  lookup_iff : ∀ name value,
    (name, value) ∈ entries ↔ response.headers.lookup name = some value

/-- The answer that stands for an exception. -/
def errorAnswer (what : List UInt8) : HttpAnswer where
  response := { protocol := [101, 114, 114, 111, 114], statusCode := [48], statusText := what }
  entries := []
  lookup_iff := by simp

/-- `io_http_response_t` -/
structure CResponse where
  protocol : CPointer
  version : CPointer
  statusCode : CPointer
  statusText : CPointer
  headersJson : CPointer
  body : CPointer
  bodySize : Nat

/-- The six pointers, in the order of the structure. -/
def CResponse.pointers (response : CResponse) : List CPointer :=
  [response.protocol, response.version, response.statusCode, response.statusText,
    response.headersJson, response.body]

namespace CMemory

/-! ## Making results -/

/-- `copy_c_string` -/
def copyCString (str : List UInt8) : Owning CBlock CPointer :=
  Owning.obtain (.bytes (Http.copyCString str))

/-- The body and its size; the copy may leave the block behind the body. -/
def copyBody (body : Body) : Owning CBlock (CPointer × Nat) :=
  let copyEmpty : Owning CBlock (CPointer × Nat) := do
    let copy ← copyCString []
    pure (copy, 0)
  match body.block with
  | some block =>
      if 0 < body.size then
        match Http.copyBody block body.size with
        | some content => do
            let copy ← Owning.obtain (.bytes content)
            pure (copy, body.size)
        | none => Owning.fault
      else copyEmpty
  | none => copyEmpty

/-- `make_http_response` -/
def makeHttpResponse (answer : HttpAnswer) : Owning CBlock CResponse := do
  let protocol ← copyCString answer.response.protocol
  let version ← copyCString answer.response.version
  let statusCode ← copyCString answer.response.statusCode
  let statusText ← copyCString answer.response.statusText
  let headersJson ← copyCString (headersToJson answer.entries)
  let (body, bodySize) ← copyBody answer.response.body
  pure { protocol, version, statusCode, statusText, headersJson, body, bodySize }

/-- `make_http_error_response` -/
def makeHttpErrorResponse (errorMsg : List UInt8) : Owning CBlock CResponse := do
  -- "error"
  let protocol ← copyCString [101, 114, 114, 111, 114]
  let version ← copyCString []
  -- "0"
  let statusCode ← copyCString [48]
  let statusText ← copyCString errorMsg
  -- "{}"
  let headersJson ← copyCString [123, 125]
  let body ← copyCString []
  pure { protocol, version, statusCode, statusText, headersJson, body, bodySize := 0 }

end CMemory

/-- The arguments of `restSync`. -/
structure RestArguments where
  verb : List UInt8
  uri : List UInt8
  headers : Headers := ∅
  body : List UInt8 := []

/-- What comes of `restSync`: a response, or the text of an exception. -/
abbrev RestSync := RestArguments → Except (List UInt8) HttpAnswer

namespace CMemory

/-- What is returned for what comes of a request. -/
def respond : Except (List UInt8) HttpAnswer → Owning CBlock CResponse
  | .ok answer => makeHttpResponse answer
  | .error what => makeHttpErrorResponse what

/-- `"NULL URL"` -/
def nullUrl : List UInt8 := [78, 85, 76, 76, 32, 85, 82, 76]

/-- `"NULL method or URL"` -/
def nullMethodOrUrl : List UInt8 :=
  [78, 85, 76, 76, 32, 109, 101, 116, 104, 111, 100, 32, 111, 114, 32, 85, 82, 76]

/-- What comes of a function that gets a URL, or a null pointer. -/
def outcomeFor (restSync : RestSync) (verb : List UInt8) (url : Option (List UInt8))
    (body : Option (List UInt8)) : Except (List UInt8) HttpAnswer :=
  match url with
  | none => .error nullUrl
  | some uri => restSync { verb, uri, body := body.getD [] }

/-- `io_http_get`: `"GET"` -/
def ioHttpGet (restSync : RestSync) (url : Option (List UInt8)) : Owning CBlock CResponse :=
  respond (outcomeFor restSync [71, 69, 84] url none)

/-- `io_http_post`: `"POST"` -/
def ioHttpPost (restSync : RestSync) (url body : Option (List UInt8)) : Owning CBlock CResponse :=
  respond (outcomeFor restSync [80, 79, 83, 84] url body)

/-- `io_http_put`: `"PUT"` -/
def ioHttpPut (restSync : RestSync) (url body : Option (List UInt8)) : Owning CBlock CResponse :=
  respond (outcomeFor restSync [80, 85, 84] url body)

/-- `io_http_delete`: `"DELETE"` -/
def ioHttpDelete (restSync : RestSync) (url : Option (List UInt8)) : Owning CBlock CResponse :=
  respond (outcomeFor restSync [68, 69, 76, 69, 84, 69] url none)

/-- What comes of `io_http_request`; the last header of a name counts. -/
def requestOutcome (restSync : RestSync) (method url : Option (List UInt8))
    (headers : List (List UInt8 × List UInt8)) (body : Option (List UInt8)) :
    Except (List UInt8) HttpAnswer :=
  match method, url with
  | some verb, some uri =>
      restSync {
        verb
        uri
        headers := headers.foldl (fun map (key, value) => map.insert key value) ∅
        body := body.getD [] }
  | _, _ => .error nullMethodOrUrl

/-- `io_http_request` -/
def ioHttpRequest (restSync : RestSync) (method url : Option (List UInt8))
    (headers : List (List UInt8 × List UInt8)) (body : Option (List UInt8)) :
    Owning CBlock CResponse :=
  respond (requestOutcome restSync method url headers body)

/-- The texts of a list, one after the other. -/
def copyAll : List (List UInt8) → Owning CBlock (List CPointer)
  | [] => pure []
  | str :: rest => do
      let copy ← copyCString str
      let copies ← copyAll rest
      pure (copy :: copies)

/-- `io_archive_list_entries`, and what it stores behind `out_count`.  There are no entries where
`list_entries` throws or an argument is null; the array is obtained with its elements, after
them. -/
def ioArchiveListEntries (entries : Option (List (List UInt8))) (wantsCount : Bool) :
    Owning CBlock (Option CPointer × Option Nat) := do
  match entries with
  | none => pure (none, none)
  | some entries => do
      let count := if wantsCount then some entries.length else none
      if entries.isEmpty then pure (none, count)
      else do
        let copies ← copyAll entries
        let result ← Owning.obtain
          (.pointers (copies.map fun copy => (copy.content, copy.2)))
        pure (some result, count)

/-- `io_archive_get_entry_string`, `io_get_local_ip` and `io_resolve_host_to_ip`: null where there
is no string. -/
def ioString (str : Option (List UInt8)) : Owning CBlock (Option CPointer) := do
  match str with
  | none => pure none
  | some str => do
      let copy ← copyCString str
      pure (some copy)

/-! ## Giving them back -/

/-- `io_http_response_free` -/
def ioHttpResponseFree (response : CResponse) : Owning CBlock Unit :=
  Owning.releaseAll response.pointers

/-- `entries[i]` -/
def readElement (entries : CPointer) (i : Nat) : Owning CBlock CPointer := do
  Owning.touch entries
  match entries.elements[i]? with
  | some element => pure element
  | none => Owning.fault

/-- The loop of `io_archive_entries_free`, from `entries[i]` on. -/
def freeElements (entries : CPointer) (i : Nat) : Nat → Owning CBlock Unit
  | 0 => pure ()
  | count + 1 => do
      let element ← readElement entries i
      Owning.release element
      freeElements entries (i + 1) count

/-- `io_archive_entries_free` -/
def ioArchiveEntriesFree (entries : Option CPointer) (count : Nat) : Owning CBlock Unit :=
  match entries with
  | none => pure ()
  | some entries => do
      freeElements entries 0 count
      Owning.release entries

/-- `io_string_free`, `io_archive_string_free` -/
def ioStringFree (str : Option CPointer) : Owning CBlock Unit :=
  Owning.ifPresent Owning.release str

end CMemory

/-! ## Programs -/

/-- What a caller gets. -/
inductive CResult where
  | response (fields : CResponse)
  | entries (array : Option CPointer) (count : Option Nat)
  | string (str : Option CPointer)

namespace CResult

/-- The blocks of a result, first the one that is freed or read in any case. -/
def blocks : CResult → List CPointer
  | .response fields => fields.pointers
  | .entries (some array) _ => array :: array.elements
  | .entries none _ => []
  | .string str => str.toList

end CResult

/-- A result in the hands of a C program, which still has it after it has freed it. -/
structure GivenResult where
  result : CResult
  /-- The count it was freed with; it is nothing for a response and for a string. -/
  freed : Option Nat := none

namespace GivenResult

/-- The blocks that are still there. -/
def left (given : GivenResult) : List CPointer :=
  match given.freed, given.result with
  | none, result => result.blocks
  | some count, .entries (some array) _ => array.elements.drop count
  | some _, _ => []

/-- The pointer that must not be used any more. -/
def dangling (given : GivenResult) : Option CPointer :=
  match given.freed with
  | some _ => given.result.blocks.head?
  | none => none

end GivenResult

/-- The functions that return a response. -/
inductive HttpFunction where
  | get (url : Option (List UInt8))
  | post (url body : Option (List UInt8))
  | put (url body : Option (List UInt8))
  | delete (url : Option (List UInt8))
  | request (method url : Option (List UInt8)) (headers : List (List UInt8 × List UInt8))
      (body : Option (List UInt8))

namespace HttpFunction

def call (restSync : RestSync) : HttpFunction → Owning CBlock CResponse
  | .get url => CMemory.ioHttpGet restSync url
  | .post url body => CMemory.ioHttpPost restSync url body
  | .put url body => CMemory.ioHttpPut restSync url body
  | .delete url => CMemory.ioHttpDelete restSync url
  | .request method url headers body => CMemory.ioHttpRequest restSync method url headers body

/-- What `restSync` makes of its arguments, unless one is null. -/
def outcome (restSync : RestSync) : HttpFunction → Except (List UInt8) HttpAnswer
  | .get url => CMemory.outcomeFor restSync [71, 69, 84] url none
  | .post url body => CMemory.outcomeFor restSync [80, 79, 83, 84] url body
  | .put url body => CMemory.outcomeFor restSync [80, 85, 84] url body
  | .delete url => CMemory.outcomeFor restSync [68, 69, 76, 69, 84, 69] url none
  | .request method url headers body => CMemory.requestOutcome restSync method url headers body

/-- What it answers. -/
def answer (restSync : RestSync) (function : HttpFunction) : HttpAnswer :=
  match function.outcome restSync with
  | .ok answer => answer
  | .error what => errorAnswer what

/-- Each function copies its answer. -/
theorem call_eq (restSync : RestSync) (function : HttpFunction) :
    function.call restSync = CMemory.makeHttpResponse (function.answer restSync) := by
  have hcall : function.call restSync = CMemory.respond (function.outcome restSync) := by
    cases function <;> rfl
  rw [hcall, answer]
  cases function.outcome restSync with
  | ok answer => rfl
  | error what => rfl

end HttpFunction

inductive CApiCall where
  | http (restSync : RestSync) (function : HttpFunction)
  | listEntries (entries : Option (List (List UInt8))) (wantsCount : Bool)
  | string (str : Option (List UInt8))
  /-- The program reads a result. -/
  | read (index : Nat)
  | freeResponse (index : Nat)
  | freeEntries (index count : Nat)
  | freeString (index : Nat)

namespace CApiCall

def perform (given : List GivenResult) : CApiCall → Owning CBlock (List GivenResult)
  | .http restSync function => do
      let fields ← function.call restSync
      pure (given ++ [{ result := .response fields }])
  | .listEntries entries wantsCount => do
      let (array, count) ← CMemory.ioArchiveListEntries entries wantsCount
      pure (given ++ [{ result := .entries array count }])
  | .string str => do
      let copy ← CMemory.ioString str
      pure (given ++ [{ result := .string copy }])
  | .read index =>
      match given[index]? with
      | some { result, .. } => do
          Owning.touchAll result.blocks
          pure given
      | none => pure given
  | .freeResponse index =>
      match given[index]? with
      | some { result := .response fields, .. } => do
          CMemory.ioHttpResponseFree fields
          pure (given.set index { result := .response fields, freed := some 0 })
      | _ => pure given
  | .freeEntries index count =>
      match given[index]? with
      | some { result := .entries array outCount, .. } => do
          CMemory.ioArchiveEntriesFree array count
          pure (given.set index { result := .entries array outCount, freed := some count })
      | _ => pure given
  | .freeString index =>
      match given[index]? with
      | some { result := .string str, .. } => do
          CMemory.ioStringFree str
          pure (given.set index { result := .string str, freed := some 0 })
      | _ => pure given

/-- Nothing is used or freed that was freed before, no list is freed with a count beyond its end,
and no body is shorter than its size. -/
def Allowed (given : List GivenResult) : CApiCall → Prop
  | .http restSync function =>
      (Http.makeHttpResponse (function.answer restSync).response).isSome = true
  | .listEntries _ _ => True
  | .string _ => True
  | .read index => ∀ g, given[index]? = some g → g.dangling = none
  | .freeResponse index => ∀ g fields, given[index]? = some g → g.result = .response fields →
      g.dangling = none
  | .freeEntries index count => ∀ g array outCount, given[index]? = some g →
      g.result = .entries (some array) outCount →
        g.dangling = none ∧ count ≤ array.elements.length
  | .freeString index => ∀ g str, given[index]? = some g → g.result = .string str →
      g.dangling = none

end CApiCall

/-! ## Blocks and their contents -/

/-- A string, as C reads it in its copy. -/
theorem text_of_copy {pointer : CPointer} {str : List UInt8}
    (hpointer : pointer.1 = .bytes (Http.copyCString str)) : pointer.text = cText str := by
  have hcut : (str ++ [0]).takeWhile (· ≠ 0) = str.takeWhile (· ≠ 0) := by
    clear hpointer
    induction str with
    | nil => rfl
    | cons c str ih => rw [List.cons_append, List.takeWhile_cons, List.takeWhile_cons, ih]
  rw [CPointer.text, CPointer.content, hpointer]
  exact hcut

/-- What a caller finds in the fields of a response. -/
structure CResponse.Shows (fields : CResponse) (answer : HttpAnswer) : Prop where
  protocol : fields.protocol.text = cText answer.response.protocol
  version : fields.version.text = cText answer.response.version
  statusCode : fields.statusCode.text = cText answer.response.statusCode
  statusText : fields.statusText.text = cText answer.response.statusText
  headersJson : fields.headersJson.text = cText (headersToJson answer.entries)
  body : fields.body.content = Http.Body.bytes answer.response.body ++ [0]
  bodySize : fields.bodySize = (Http.Body.bytes answer.response.body).length

namespace CMemory

variable {owned : Multiset (CBlock × Nat)}

theorem returns_copyCString (str : List UInt8) :
    Returns (copyCString str) fun copy => copy.1 = .bytes (Http.copyCString str) :=
  returns_obtain _

theorem spends_copyCString (str : List UInt8) (owned : Multiset (CBlock × Nat)) :
    Spends owned (copyCString str) (fun copy => copy ::ₘ owned) 0 :=
  Spends.obtain _ owned

/-! ### Responses -/

/-- Nothing outside of the block behind the body is copied. -/
def Copies (body : Body) : Prop :=
  ∀ block, body.block = some block → 0 < body.size →
    body.size ≤ block.length ∧ body.size < toSizeT (body.size + 1)

theorem isSome_makeHttpResponse {response : HttpResponse} :
    (Http.makeHttpResponse response).isSome = true ↔ Copies response.body := by
  unfold Http.makeHttpResponse Copies
  cases hblock : response.body.block with
  | none => simp
  | some block =>
      by_cases hpos : 0 < response.body.size
      · by_cases hfits : response.body.size ≤ block.length ∧
          response.body.size < toSizeT (response.body.size + 1)
        · simp [Http.copyBody, hpos, hfits]
        · simp [Http.copyBody, hpos, hfits]
      · simp [hpos]

theorem spends_copyBody {body : Body} (hcopies : Copies body)
    (owned : Multiset (CBlock × Nat)) :
    Spends owned (copyBody body) (fun copy => copy.1 ::ₘ owned) 0 := by
  have hempty : Spends owned (do
      let copy ← copyCString []
      pure (copy, 0)) (fun copy : CPointer × Nat => copy.1 ::ₘ owned) 0 :=
    (spends_copyCString [] owned).seq fun copy => Spends.stop _ rfl
  unfold copyBody
  cases hblock : body.block with
  | none => exact hempty
  | some block =>
      by_cases hpos : 0 < body.size
      · simp only [hpos, if_true, Http.copyBody, if_pos (hcopies block hblock hpos)]
        exact (Spends.obtain _ owned).seq fun copy => Spends.stop _ rfl
      · simp only [hpos, if_false]
        exact hempty

theorem faults_copyBody {body : Body} (hcopies : ¬Copies body)
    (owned : Multiset (CBlock × Nat)) : Faults owned (copyBody body) := by
  simp only [Copies, not_forall] at hcopies
  obtain ⟨block, hblock, hpos, hoverrun⟩ := hcopies
  simp only [copyBody, hblock, hpos, if_true, Http.copyBody, if_neg hoverrun]
  exact Faults.fault owned

theorem returns_copyBody (body : Body) :
    Returns (copyBody body) fun copy =>
      copy.1.content = Http.Body.bytes body ++ [0] ∧ copy.2 = (Http.Body.bytes body).length := by
  have hempty (hbytes : Http.Body.bytes body = []) : Returns (do
      let copy ← copyCString []
      pure (copy, 0)) fun copy : CPointer × Nat =>
        copy.1.content = Http.Body.bytes body ++ [0] ∧
          copy.2 = (Http.Body.bytes body).length := by
    refine (returns_copyCString []).bind fun copy hcopy => Returns.pure ?_
    rw [hbytes, CPointer.content, hcopy]
    exact ⟨rfl, rfl⟩
  unfold copyBody
  cases hblock : body.block with
  | none => exact hempty (by rw [Http.Body.bytes, hblock]; exact List.take_nil)
  | some block =>
      by_cases hpos : 0 < body.size
      · simp only [hpos, if_true, Http.copyBody]
        split
        · -- the copy ends behind the body, with a zero
          next content hcontent =>
            obtain ⟨hfits, hcopy⟩ := Option.ite_none_right_eq_some.mp hcontent
            have hbytes : Http.Body.bytes body = block.take body.size := by
              rw [Http.Body.bytes, hblock]
              rfl
            refine (returns_obtain _).bind fun copy hkind => Returns.pure ?_
            rw [CPointer.content, hkind, hbytes, List.length_take, Nat.min_eq_left hfits.1]
            exact ⟨(Option.some.inj hcopy).symm, rfl⟩
        · exact returns_fault _
      · simp only [hpos, if_false]
        refine hempty ?_
        rw [Http.Body.bytes, Nat.eq_zero_of_not_pos hpos, List.take_zero]

/-- A response has its six blocks. -/
theorem spends_makeHttpResponse {answer : HttpAnswer} (hcopies : Copies answer.response.body)
    (owned : Multiset (CBlock × Nat)) :
    Spends owned (makeHttpResponse answer)
      (fun fields => (fields.pointers : Multiset (CBlock × Nat)) + owned) 0 := by
  refine (spends_copyCString _ owned).seq fun protocol => (spends_copyCString _ _).seq fun version =>
    (spends_copyCString _ _).seq fun statusCode => (spends_copyCString _ _).seq fun statusText =>
    (spends_copyCString _ _).seq fun headersJson => (spends_copyBody hcopies _).seq fun copy =>
    Spends.stop _ ?_
  obtain ⟨body, bodySize⟩ := copy
  simp only [CResponse.pointers, ← Multiset.cons_coe, Multiset.coe_nil, ← Multiset.singleton_add]
  ac_rfl

theorem faults_makeHttpResponse {answer : HttpAnswer} (hcopies : ¬Copies answer.response.body)
    (owned : Multiset (CBlock × Nat)) : Faults owned (makeHttpResponse answer) :=
  Faults.after (spends_copyCString _ owned) fun _ => Faults.after (spends_copyCString _ _) fun _ =>
    Faults.after (spends_copyCString _ _) fun _ => Faults.after (spends_copyCString _ _) fun _ =>
    Faults.after (spends_copyCString _ _) fun _ => (faults_copyBody hcopies _).bind _

theorem returns_makeHttpResponse (answer : HttpAnswer) :
    Returns (makeHttpResponse answer) fun fields => fields.Shows answer := by
  refine (returns_copyCString _).bind fun protocol hprotocol =>
    (returns_copyCString _).bind fun version hversion =>
    (returns_copyCString _).bind fun statusCode hstatusCode =>
    (returns_copyCString _).bind fun statusText hstatusText =>
    (returns_copyCString _).bind fun headersJson hheadersJson =>
    (returns_copyBody _).bind fun copy hcopy => Returns.pure ?_
  exact {
    protocol := text_of_copy hprotocol
    version := text_of_copy hversion
    statusCode := text_of_copy hstatusCode
    statusText := text_of_copy hstatusText
    headersJson := text_of_copy hheadersJson
    body := hcopy.1
    bodySize := hcopy.2 }

theorem spends_ioHttpResponseFree (fields : CResponse) (owned : Multiset (CBlock × Nat)) :
    Spends ((fields.pointers : Multiset (CBlock × Nat)) + owned) (ioHttpResponseFree fields)
      (fun _ => owned) 0 :=
  Spends.releaseAll fields.pointers owned

/-! ### Lists of entries -/

theorem spends_copyAll (strs : List (List UInt8)) (owned : Multiset (CBlock × Nat)) :
    Spends owned (copyAll strs)
      (fun copies => (copies : Multiset (CBlock × Nat)) + owned) 0 := by
  induction strs generalizing owned with
  | nil => exact Spends.stop _ (zero_add owned).symm
  | cons str strs ih =>
      refine (spends_copyCString str owned).seq fun copy => (ih (copy ::ₘ owned)).seq fun copies =>
        Spends.stop _ ?_
      rw [← Multiset.cons_coe, Multiset.cons_add, Multiset.add_cons]

theorem returns_copyAll (strs : List (List UInt8)) :
    Returns (copyAll strs) fun copies =>
      copies.map Prod.fst = strs.map fun str => .bytes (Http.copyCString str) := by
  induction strs with
  | nil => exact Returns.pure rfl
  | cons str strs ih =>
      refine (returns_copyCString str).bind fun copy hcopy => ih.bind fun copies hcopies =>
        Returns.pure ?_
      rw [List.map_cons, List.map_cons, hcopy, hcopies]

/-- The array has the pointers to the copies. -/
theorem elements_of_copies {array : CPointer} {copies : List CPointer} {strs : List (List UInt8)}
    (harray : array.1 = .pointers (copies.map fun copy => (copy.content, copy.2)))
    (hcopies : copies.map Prod.fst = strs.map fun str => .bytes (Http.copyCString str)) :
    array.elements = copies := by
  have hbytes : ∀ copy ∈ copies, (CBlock.bytes copy.content, copy.2) = copy := by
    intro copy hmem
    have hkind : copy.1 ∈ strs.map fun str => CBlock.bytes (Http.copyCString str) :=
      hcopies ▸ List.mem_map_of_mem hmem
    obtain ⟨str, -, hstr⟩ := List.mem_map.mp hkind
    rw [CPointer.content, ← hstr, hstr]
  rw [CPointer.elements, harray]
  show (copies.map fun copy => (copy.content, copy.2)).map _ = copies
  rw [List.map_map]
  exact (List.map_congr_left hbytes).trans (List.map_id copies)

theorem texts_of_copies {copies : List CPointer} {strs : List (List UInt8)}
    (hcopies : copies.map Prod.fst = strs.map fun str => .bytes (Http.copyCString str)) :
    copies.map CPointer.text = strs.map cText := by
  calc copies.map CPointer.text
      = (copies.map Prod.fst).map fun block => CPointer.text (block, 0) := by
        rw [List.map_map]
        rfl
    _ = strs.map cText := by
        rw [hcopies, List.map_map]
        exact List.map_congr_left fun str _ => text_of_copy rfl

theorem spends_ioArchiveListEntries (entries : Option (List (List UInt8))) (wantsCount : Bool)
    (owned : Multiset (CBlock × Nat)) :
    Spends owned (ioArchiveListEntries entries wantsCount)
      (fun listed => ((CResult.entries listed.1 listed.2).blocks : Multiset (CBlock × Nat)) +
        owned) 0 := by
  unfold ioArchiveListEntries
  cases entries with
  | none => exact Spends.stop _ (zero_add owned).symm
  | some entries =>
      dsimp only
      split
      · exact Spends.stop _ (zero_add owned).symm
      · refine (spends_copyAll entries owned).seqReturning (returns_copyAll entries)
          fun copies hcopies => (Spends.obtain _ _).seqReturning (returns_obtain _)
            fun array harray => Spends.stop _ ?_
        rw [CResult.blocks, elements_of_copies harray hcopies, ← Multiset.cons_coe,
          Multiset.cons_add]

/-- The list that a caller gets, unless there is nothing in it. -/
def Lists (listed : Option CPointer × Option Nat) (entries : Option (List (List UInt8)))
    (wantsCount : Bool) : Prop :=
  match entries, listed.1 with
  | none, array => array = none ∧ listed.2 = none
  | some entries, none => entries = [] ∧ listed.2 = if wantsCount then some 0 else none
  | some entries, some array => array.elements.map CPointer.text = entries.map cText ∧
      listed.2 = if wantsCount then some array.elements.length else none

theorem returns_ioArchiveListEntries (entries : Option (List (List UInt8))) (wantsCount : Bool) :
    Returns (ioArchiveListEntries entries wantsCount) fun listed =>
      Lists listed entries wantsCount := by
  unfold ioArchiveListEntries
  cases entries with
  | none => exact Returns.pure ⟨rfl, rfl⟩
  | some entries =>
      dsimp only
      split
      · next hempty =>
          obtain rfl := List.isEmpty_iff.mp hempty
          exact Returns.pure ⟨rfl, rfl⟩
      · refine (returns_copyAll entries).bind fun copies hcopies =>
          (returns_obtain _).bind fun array harray => Returns.pure ?_
        have helements := elements_of_copies harray hcopies
        have hlength : copies.length = entries.length := by
          simpa using congrArg List.length hcopies
        rw [← hlength, ← helements]
        exact ⟨helements.symm ▸ texts_of_copies hcopies, rfl⟩

/-- The blocks of a list from an element on. -/
def blocksFrom (array : CPointer) (i : Nat) : Multiset (CBlock × Nat) :=
  array ::ₘ ((array.elements.drop i : List CPointer) : Multiset (CBlock × Nat))

theorem spends_readElement {array : CPointer} {i : Nat} (hlt : i < array.elements.length)
    (owned : Multiset (CBlock × Nat)) :
    Spends (blocksFrom array i + owned) (readElement array i)
      (fun element => element ::ₘ (blocksFrom array (i + 1) + owned)) 0 := by
  refine (Spends.touch (by simp [blocksFrom])).seq fun _ => ?_
  rw [List.getElem?_eq_getElem hlt]
  refine Spends.stop _ ?_
  rw [blocksFrom, blocksFrom, List.drop_eq_getElem_cons hlt, ← Multiset.cons_coe,
    Multiset.cons_swap, Multiset.cons_add]

/-- The loop frees as many elements as it is told to, where there are as many. -/
theorem spends_freeElements {array : CPointer} {i count : Nat}
    (hcount : i + count ≤ array.elements.length) (owned : Multiset (CBlock × Nat)) :
    Spends (blocksFrom array i + owned) (freeElements array i count)
      (fun _ => blocksFrom array (i + count) + owned) 0 := by
  induction count generalizing i with
  | zero => exact Spends.pure () fun _ => _
  | succ count ih =>
      have hrest : Spends (blocksFrom array (i + 1) + owned) (freeElements array (i + 1) count)
          (fun _ => blocksFrom array (i + 1 + count) + owned) 0 := ih (by omega)
      rw [Nat.add_right_comm, Nat.add_assoc] at hrest
      exact (spends_readElement (by omega) owned).seq fun element =>
        (Spends.release element _).seq fun _ => hrest

/-- With a greater count it reads behind the array. -/
theorem faults_freeElements {array : CPointer} {i count : Nat}
    (hbegin : i ≤ array.elements.length) (hcount : array.elements.length < i + count)
    (owned : Multiset (CBlock × Nat)) :
    Faults (blocksFrom array i + owned) (freeElements array i count) := by
  induction count generalizing i with
  | zero => omega
  | succ count ih =>
      by_cases hlt : i < array.elements.length
      · exact Faults.after (spends_readElement hlt owned) fun element =>
          Faults.after (Spends.release element _) fun _ => ih (by omega) (by omega)
      · refine Faults.bind (Faults.after (Spends.touch (by simp [blocksFrom])) fun _ => ?_) _
        rw [List.getElem?_eq_none (Nat.not_lt.mp hlt)]
        exact Faults.fault _

theorem spends_ioArchiveEntriesFree {array : CPointer} {count : Nat}
    (hcount : count ≤ array.elements.length) (owned : Multiset (CBlock × Nat)) :
    Spends (((array :: array.elements : List CPointer) : Multiset (CBlock × Nat)) + owned)
      (ioArchiveEntriesFree (some array) count)
      (fun _ => ((array.elements.drop count : List CPointer) : Multiset (CBlock × Nat)) + owned)
      0 := by
  have hall : Spends (blocksFrom array 0 + owned) (freeElements array 0 count)
      (fun _ => blocksFrom array (0 + count) + owned) 0 := spends_freeElements (by omega) owned
  have hlast := Spends.release array
    (((array.elements.drop count : List CPointer) : Multiset (CBlock × Nat)) + owned)
  rw [← Multiset.cons_add] at hlast
  rw [Nat.zero_add] at hall
  exact hall.seq fun _ => hlast

theorem faults_ioArchiveEntriesFree {array : CPointer} {count : Nat}
    (hcount : array.elements.length < count) (owned : Multiset (CBlock × Nat)) :
    Faults (((array :: array.elements : List CPointer) : Multiset (CBlock × Nat)) + owned)
      (ioArchiveEntriesFree (some array) count) := by
  have hbehind : array.elements.length < 0 + count := by omega
  exact (faults_freeElements (Nat.zero_le _) hbehind owned).bind _

/-- An array that is gone is read or freed. -/
theorem ioArchiveEntriesFree_gone {array : CPointer} {ledger : Ledger CBlock}
    (hgone : ledger.Gone array) (count : Nat) :
    ioArchiveEntriesFree (some array) count ledger = none := by
  cases count with
  | zero => exact if_neg hgone.2
  | succ count =>
      exact Owning.bind_eq_none (Owning.bind_eq_none
        (Owning.bind_eq_none (Owning.touch_gone hgone) _) _) _

/-! ### Strings -/

theorem spends_ioString (str : Option (List UInt8)) (owned : Multiset (CBlock × Nat)) :
    Spends owned (ioString str)
      (fun copy => ((CResult.string copy).blocks : Multiset (CBlock × Nat)) + owned) 0 := by
  cases str with
  | none => exact Spends.stop _ (zero_add owned).symm
  | some str =>
      exact (spends_copyCString str owned).seq fun copy => Spends.stop _
        (Multiset.singleton_add copy owned).symm

theorem returns_ioString (str : Option (List UInt8)) :
    Returns (ioString str) fun copy => copy.map CPointer.text = str.map cText := by
  cases str with
  | none => exact Returns.pure rfl
  | some str =>
      exact (returns_copyCString str).bind fun copy hcopy => Returns.pure
        (congrArg some (text_of_copy hcopy))

end CMemory

/-! ## Programs -/

def ownedResults (given : List GivenResult) : Multiset (CBlock × Nat) :=
  (given.map fun g => (g.left : Multiset (CBlock × Nat))).sum

def danglingResults (given : List GivenResult) : Multiset (CBlock × Nat) :=
  (given.map fun g => present g.dangling).sum

theorem ownedResults_append (given : List GivenResult) (result : CResult) :
    (result.blocks : Multiset (CBlock × Nat)) + ownedResults given =
      ownedResults (given ++ [⟨result, none⟩]) :=
  (sum_concat given ⟨result, none⟩ fun g => (g.left : Multiset (CBlock × Nat))).symm

/-- What may be used is still there. -/
theorem GivenResult.left_of_usable {g : GivenResult} (husable : g.dangling = none) :
    g.left = g.result.blocks := by
  obtain ⟨result, freed⟩ := g
  cases freed with
  | none => rfl
  | some count =>
      have hempty : result.blocks = [] := List.head?_eq_none_iff.mp husable
      cases result with
      | response fields => exact absurd hempty (by simp [CResult.blocks, CResponse.pointers])
      | string str => exact hempty.symm
      | entries array outCount =>
          cases array with
          | none => rfl
          | some array => exact absurd hempty (by simp [CResult.blocks])

namespace CApiCall

/-- A call that frees a result. -/
theorem spends_free {given : List GivenResult} {index : Nat} {g next : GivenResult}
    (hget : given[index]? = some g) (husable : g.dangling = none) {free : Owning CBlock Unit}
    (hfree : ∀ owned : Multiset (CBlock × Nat),
      Spends ((g.result.blocks : Multiset (CBlock × Nat)) + owned) free
        (fun _ => (next.left : Multiset (CBlock × Nat)) + owned) 0) :
    Spends (ownedResults given)
      (do
        free
        pure (given.set index next)) ownedResults 0 := by
  obtain ⟨hsplit, hset⟩ := sum_of_getElem hget fun g => (g.left : Multiset (CBlock × Nat))
  have hframe := hfree (ownedResults (given.eraseIdx index))
  have hnext : (next.left : Multiset (CBlock × Nat)) + ownedResults (given.eraseIdx index) =
      ownedResults (given.set index next) := (hset next).symm
  rw [← g.left_of_usable husable] at hframe
  exact (hframe.seq fun _ => Spends.stop _ hnext).congr hsplit (fun _ => rfl) rfl

theorem spends_perform (given : List GivenResult) (call : CApiCall)
    (hallowed : call.Allowed given) :
    Spends (ownedResults given) (call.perform given) ownedResults 0 := by
  cases call with
  | http restSync function =>
      have hcopies := CMemory.isSome_makeHttpResponse.mp hallowed
      unfold perform
      simp only [function.call_eq restSync]
      exact (CMemory.spends_makeHttpResponse hcopies (ownedResults given)).seq fun fields =>
        Spends.stop _ (ownedResults_append given (.response fields))
  | listEntries entries wantsCount =>
      exact (CMemory.spends_ioArchiveListEntries entries wantsCount (ownedResults given)).seq
        fun listed => Spends.stop _ (ownedResults_append given (.entries listed.1 listed.2))
  | string str =>
      exact (CMemory.spends_ioString str (ownedResults given)).seq fun copy =>
        Spends.stop _ (ownedResults_append given (.string copy))
  | read index =>
      unfold perform
      simp only
      split
      · next result freed hget =>
          have hleft := GivenResult.left_of_usable (hallowed _ hget)
          obtain ⟨hsplit, -⟩ := sum_of_getElem hget fun g => (g.left : Multiset (CBlock × Nat))
          have hmem : ∀ block ∈ result.blocks, block ∈ ownedResults given := by
            intro block hblock
            rw [ownedResults, hsplit, hleft]
            exact Multiset.mem_add.mpr (Or.inl hblock)
          exact (Spends.touchAll hmem).seq fun _ => Spends.pure given ownedResults
      · exact Spends.pure given ownedResults
  | freeResponse index =>
      unfold perform
      simp only
      split
      · next fields freed hget =>
          exact spends_free hget (hallowed _ fields hget rfl) fun owned =>
            (CMemory.spends_ioHttpResponseFree fields owned).congr rfl
              (fun _ => (zero_add owned).symm) rfl
      · exact Spends.pure given ownedResults
  | freeEntries index count =>
      unfold perform
      simp only
      split
      · next array outCount freed hget =>
          -- without an array `io_archive_entries_free` returns at once
          cases array with
          | none =>
              have husable : GivenResult.dangling ⟨.entries none outCount, freed⟩ = none := by
                cases freed <;> rfl
              exact spends_free hget husable fun owned => Spends.pure () fun _ => 0 + owned
          | some array =>
              obtain ⟨husable, hcount⟩ := hallowed _ array outCount hget rfl
              exact spends_free hget husable fun owned =>
                CMemory.spends_ioArchiveEntriesFree hcount owned
      · exact Spends.pure given ownedResults
  | freeString index =>
      unfold perform
      simp only
      split
      · next str freed hget =>
          exact spends_free hget (hallowed _ str hget rfl) fun owned =>
            (Spends.releasePresent str owned).congr rfl (fun _ => (zero_add owned).symm) rfl
      · exact Spends.pure given ownedResults

/-- What must not be used any more was given back. -/
def Remembers (given later : List GivenResult) : Prop :=
  ∀ block ∈ danglingResults later, block ∈ danglingResults given ∨
    ∃ returned, ownedResults given = returned + ownedResults later ∧ block ∈ returned

/-- A free gives back the first block of a result. -/
theorem remembers_free {given : List GivenResult} {index : Nat} {g : GivenResult}
    (hget : given[index]? = some g) (husable : g.dangling = none) (free : Owning CBlock Unit)
    (next : GivenResult) (returned : List CPointer)
    (hreturned : (g.result.blocks : Multiset (CBlock × Nat)) =
      (returned : Multiset (CBlock × Nat)) + (next.left : Multiset (CBlock × Nat)))
    (hdangling : ∀ block, next.dangling = some block → block ∈ returned) :
    Returns
      (do
        free
        pure (given.set index next))
      (Remembers given) := by
  refine Returns.after _ fun _ => Returns.pure fun block hmem => ?_
  obtain ⟨hsplit, hset⟩ := sum_of_getElem hget fun g => present g.dangling
  obtain ⟨howned, howned'⟩ := sum_of_getElem hget fun g => (g.left : Multiset (CBlock × Nat))
  rw [danglingResults, hset] at hmem
  rcases Multiset.mem_add.mp hmem with hnew | hold
  · have hblock : next.dangling = some block := Option.mem_toList.mp hnew
    refine Or.inr ⟨returned, ?_, hdangling block hblock⟩
    rw [ownedResults, ownedResults, howned, howned', g.left_of_usable husable, hreturned, add_assoc]
  · rw [danglingResults, hsplit]
    exact Or.inl (Multiset.mem_add.mpr (Or.inr hold))

theorem remembers_perform (given : List GivenResult) (call : CApiCall)
    (hallowed : call.Allowed given) :
    Returns (call.perform given) (Remembers given) := by
  have happend (result : CResult) :
      ∀ block ∈ danglingResults (given ++ [⟨result, none⟩]), block ∈ danglingResults given := by
    intro block hmem
    simpa [danglingResults, GivenResult.dangling, present] using hmem
  cases call with
  | http restSync function =>
      exact Returns.after _ fun fields =>
        Returns.pure fun block hmem => Or.inl (happend _ block hmem)
  | listEntries entries wantsCount =>
      exact Returns.after _ fun listed =>
        Returns.pure fun block hmem => Or.inl (happend _ block hmem)
  | string str =>
      exact Returns.after _ fun copy => Returns.pure fun block hmem => Or.inl (happend _ block hmem)
  | read index =>
      unfold perform
      simp only
      split
      · exact Returns.after _ fun _ => Returns.pure fun block hmem => Or.inl hmem
      · exact Returns.pure fun block hmem => Or.inl hmem
  | freeResponse index =>
      unfold perform
      simp only
      split
      · next fields freed hget =>
          exact remembers_free hget (hallowed _ fields hget rfl) _ ⟨.response fields, some 0⟩
            fields.pointers (add_zero _).symm fun block hblock => List.mem_of_mem_head? hblock
      · exact Returns.pure fun block hmem => Or.inl hmem
  | freeEntries index count =>
      unfold perform
      simp only
      split
      · next array outCount freed hget =>
          cases array with
          | none =>
              have husable : GivenResult.dangling ⟨.entries none outCount, freed⟩ = none := by
                cases freed <;> rfl
              exact remembers_free hget husable _ ⟨.entries none outCount, some count⟩ []
                (add_zero _).symm fun block hblock => nomatch hblock
          | some array =>
              obtain ⟨husable, -⟩ := hallowed _ array outCount hget rfl
              -- the texts behind the count are neither freed nor named any more
              have hreturned : array :: array.elements =
                  array :: array.elements.take count ++ array.elements.drop count :=
                congrArg _ (List.take_append_drop count array.elements).symm
              exact remembers_free hget husable _ ⟨.entries (some array) outCount, some count⟩
                (array :: array.elements.take count) (congrArg _ hreturned)
                fun block hblock => List.mem_cons.mpr (Or.inl (Option.some.inj hblock).symm)
      · exact Returns.pure fun block hmem => Or.inl hmem
  | freeString index =>
      unfold perform
      simp only
      split
      · next str freed hget =>
          exact remembers_free hget (hallowed _ str hget rfl) _ ⟨.string str, some 0⟩ str.toList
            (add_zero _).symm fun block hblock => List.mem_of_mem_head? hblock
      · exact Returns.pure fun block hmem => Or.inl hmem

/-- What is used after it was freed, and a list or a body that is read beyond its end. -/
theorem faults_perform {given : List GivenResult} {call : CApiCall} {ledger : Ledger CBlock}
    {lost : Multiset CBlock} (hallowed : ¬call.Allowed given)
    (haccounted : Accounted ownedResults danglingResults lost given ledger) :
    call.perform given ledger = none := by
  obtain ⟨leaked, hheld, -⟩ := haccounted.held
  have hgone {index : Nat} {g : GivenResult} (hget : given[index]? = some g)
      (hdangling : g.dangling ≠ none) :
      ∃ block rest, g.result.blocks = block :: rest ∧ ledger.Gone block := by
    obtain ⟨block, hblock⟩ := Option.ne_none_iff_exists'.mp hdangling
    obtain ⟨hsplit, -⟩ := sum_of_getElem hget fun g => present g.dangling
    have hmem : block ∈ danglingResults given := by
      rw [danglingResults, hsplit, hblock]
      exact Multiset.mem_add.mpr (Or.inl (Multiset.mem_singleton_self block))
    obtain ⟨result, freed⟩ := g
    cases freed with
    | none => exact absurd rfl hdangling
    | some count =>
        obtain ⟨rest, hrest⟩ := List.head?_eq_some_iff.mp hblock
        exact ⟨block, rest, hrest, haccounted.gone block hmem⟩
  cases call with
  | http restSync function =>
      -- `memcpy` runs beyond the body or the new block
      have hcopies := fun hcopies => hallowed (CMemory.isSome_makeHttpResponse.mpr hcopies)
      unfold perform
      simp only [function.call_eq restSync]
      exact ((CMemory.faults_makeHttpResponse hcopies _).bind _) ledger leaked haccounted.valid
        hheld
  | listEntries entries wantsCount => exact absurd trivial hallowed
  | string str => exact absurd trivial hallowed
  | read index =>
      simp only [Allowed, not_forall] at hallowed
      obtain ⟨g, hget, hdangling⟩ := hallowed
      obtain ⟨block, rest, hblocks, hblock⟩ := hgone hget hdangling
      unfold perform
      simp only [hget, hblocks]
      exact Owning.bind_eq_none (Owning.bind_eq_none (Owning.touch_gone hblock) _) _
  | freeResponse index =>
      simp only [Allowed, not_forall] at hallowed
      obtain ⟨⟨result, freed⟩, fields, hget, rfl, hdangling⟩ := hallowed
      obtain ⟨block, rest, hblocks, hblock⟩ := hgone hget hdangling
      obtain rfl : fields.protocol = block := (List.cons.inj hblocks).1
      unfold perform
      simp only [hget]
      exact Owning.bind_eq_none (Owning.bind_eq_none (if_neg hblock.2) _) _
  | freeEntries index count =>
      simp only [Allowed, not_forall] at hallowed
      obtain ⟨⟨result, freed⟩, array, outCount, hget, rfl, hwrong⟩ := hallowed
      unfold perform
      simp only [hget]
      by_cases husable : GivenResult.dangling ⟨.entries (some array) outCount, freed⟩ = none
      · -- the count runs beyond the end
        have hcount : array.elements.length < count := by
          by_contra hle
          exact hwrong ⟨husable, Nat.not_lt.mp hle⟩
        obtain ⟨hsplit, -⟩ := sum_of_getElem hget fun g => (g.left : Multiset (CBlock × Nat))
        rw [ownedResults, hsplit, GivenResult.left_of_usable husable, add_assoc] at hheld
        exact ((CMemory.faults_ioArchiveEntriesFree hcount _).bind _) ledger 0 haccounted.valid
          (hheld.trans (add_zero _).symm)
      · -- the array itself was freed before
        obtain ⟨block, rest, hblocks, hblock⟩ := hgone hget husable
        obtain rfl : array = block := (List.cons.inj hblocks).1
        exact Owning.bind_eq_none (CMemory.ioArchiveEntriesFree_gone hblock count) _
  | freeString index =>
      simp only [Allowed, not_forall] at hallowed
      obtain ⟨⟨result, freed⟩, str, hget, rfl, hdangling⟩ := hallowed
      obtain ⟨block, rest, hblocks, hblock⟩ := hgone hget hdangling
      unfold perform
      simp only [hget]
      cases str with
      | none => exact absurd hblocks (by simp [CResult.blocks])
      | some str =>
          obtain rfl : str = block := (List.cons.inj hblocks).1
          exact Owning.bind_eq_none (if_neg hblock.2) _

/-- The calls that give something to the program. -/
def gives : CApiCall → Bool
  | .http _ _ | .listEntries _ _ | .string _ => true
  | _ => false

/-- What a call gives to the program. -/
def Gives (result : CResult) : CApiCall → Prop
  | .http restSync function => ∃ fields, result = .response fields ∧
      fields.Shows (function.answer restSync)
  | .listEntries entries wantsCount => ∃ array count, result = .entries array count ∧
      CMemory.Lists (array, count) entries wantsCount
  | .string str => ∃ copy, result = .string copy ∧ copy.map CPointer.text = str.map cText
  | _ => False

/-- The results so far stand as they are, and a call that gives one puts it behind them. -/
def Leaves (given : List GivenResult) (call : CApiCall) (later : List GivenResult) : Prop :=
  ∃ new, later.map GivenResult.result = given.map GivenResult.result ++ new ∧
    List.Forall₂ (fun call result => call.Gives result) ([call].filter gives) new

theorem leaves_append (given : List GivenResult) {call : CApiCall} {made : CResult}
    (hgives : call.gives = true) (hmade : call.Gives made) :
    Leaves given call (given ++ [⟨made, none⟩]) := by
  refine ⟨[made], List.map_append, ?_⟩
  rw [List.filter_cons_of_pos hgives]
  exact .cons hmade .nil

theorem leaves_same (given : List GivenResult) {call : CApiCall} (hgives : call.gives = false) :
    Leaves given call given := by
  refine ⟨[], (List.append_nil _).symm, ?_⟩
  rw [List.filter_cons_of_neg (Bool.eq_false_iff.mp hgives)]
  exact .nil

/-- A free changes which results were freed, and not the results. -/
theorem leaves_set {given : List GivenResult} {call : CApiCall} {index : Nat} {g : GivenResult}
    (hgives : call.gives = false) (hget : given[index]? = some g) (freed : Option Nat) :
    Leaves given call (given.set index ⟨g.result, freed⟩) := by
  have hsame : (given.set index ⟨g.result, freed⟩).map GivenResult.result =
      given.map GivenResult.result := by
    obtain ⟨hlt, rfl⟩ := List.getElem?_eq_some_iff.mp hget
    have hmapped : index < (given.map GivenResult.result).length := by
      rw [List.length_map]
      exact hlt
    rw [List.map_set, ← List.getElem_map GivenResult.result (h := hmapped), List.set_getElem_self]
  rw [Leaves, hsame]
  exact leaves_same given hgives

theorem returns_perform (given : List GivenResult) (call : CApiCall) :
    Returns (call.perform given) (Leaves given call) := by
  cases call with
  | http restSync function =>
      unfold perform
      simp only [function.call_eq restSync]
      exact (CMemory.returns_makeHttpResponse _).bind fun fields hfields =>
        Returns.pure (leaves_append given rfl ⟨fields, rfl, hfields⟩)
  | listEntries entries wantsCount =>
      exact (CMemory.returns_ioArchiveListEntries entries wantsCount).bind fun listed hlisted =>
        Returns.pure (leaves_append given rfl ⟨listed.1, listed.2, rfl, hlisted⟩)
  | string str =>
      exact (CMemory.returns_ioString str).bind fun copy hcopy =>
        Returns.pure (leaves_append given rfl ⟨copy, rfl, hcopy⟩)
  | read index =>
      unfold perform
      simp only
      split
      · exact Returns.after _ fun _ => Returns.pure (leaves_same given rfl)
      · exact Returns.pure (leaves_same given rfl)
  | freeResponse index =>
      unfold perform
      simp only
      split
      · next hget => exact Returns.after _ fun _ => Returns.pure (leaves_set rfl hget _)
      · exact Returns.pure (leaves_same given rfl)
  | freeEntries index count =>
      unfold perform
      simp only
      split
      · next hget => exact Returns.after _ fun _ => Returns.pure (leaves_set rfl hget _)
      · exact Returns.pure (leaves_same given rfl)
  | freeString index =>
      unfold perform
      simp only
      split
      · next hget => exact Returns.after _ fun _ => Returns.pure (leaves_set rfl hget _)
      · exact Returns.pure (leaves_same given rfl)

theorem bookkeeping_results :
    Bookkeeping perform ownedResults danglingResults (fun _ _ => 0) (fun given call =>
      call.Allowed given) where
  spends given call hallowed := spends_perform given call hallowed
  remembers given call hallowed := fun ledger later next hrun block hmem =>
    (remembers_perform given call hallowed ledger later next hrun block hmem).imp_right
      fun hreturned => ⟨rfl, hreturned⟩
  faults _ _ _ _ hallowed haccounted := faults_perform hallowed haccounted

end CApiCall

/-- A C program that gets, reads and frees results in any order has a fault exactly if it reads or
frees one that it has freed, frees a list with a count beyond its end, or gets a response whose
body is shorter than its size or so long that `size_t` cannot count a byte more.  Otherwise each
of its calls that gives a result has left it in its turn, and the result shows what the call made
it from; in the end the blocks that are held are those of results that were not freed and the
texts of lists that were freed with too small a count. -/
theorem cResults_balanced (calls : List CApiCall) :
    (Owning.run CApiCall.perform [] calls {} = none ↔
      Misuses CApiCall.perform (fun given call => call.Allowed given) [] calls {}) ∧
    ∀ given ledger, Owning.run CApiCall.perform [] calls {} = some (given, ledger) →
      ledger.held = ownedResults given ∧
        List.Forall₂ (fun call g => call.Gives g.result) (calls.filter CApiCall.gives) given := by
  have hbook := CApiCall.bookkeeping_results
  refine ⟨(hbook.balanced calls rfl rfl).1, fun given ledger hrun => ⟨?_, ?_⟩⟩
  · exact hbook.held_eq_owned rfl rfl hrun
  · obtain ⟨new, hnew, hmade⟩ :=
      Returns.run_appends CApiCall.returns_perform [] calls {} given ledger hrun
    rw [List.map_nil, List.nil_append] at hnew
    rw [← hnew, List.forall₂_map_right_iff] at hmade
    exact hmade

end Iostreams
