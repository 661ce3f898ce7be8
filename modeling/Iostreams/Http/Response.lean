import Iostreams.Foundation.ByteString
import Iostreams.Serial.Transfer
import Mathlib.Data.Finmap

/-!
# Reading an HTTP response

`deserialize` reads a response the way the library does: one character at a
time up to the empty line after the headers, then the body in one transfer
whose size is the value of the `Content-Length` header.  The character reader
ignores how many bytes the transfer returned, so that it yields `'\0'` where
there is no input.

The two loops spend one unit of fuel in each round.  A body is the block of
memory behind it together with the size that is reported, which need not agree.
For which sizes `malloc` has a block is a parameter; the null pointer it returns
for the others goes to `memset`.
`makeHttpResponse` is the consumer that copies a response for C callers; where a
copy would leave a block it has no result.
-/

namespace Iostreams

open Foundation

/-- Header values by name. -/
abbrev Headers := Finmap fun _ : List UInt8 => List UInt8

/-- A reported size and the memory behind the pointer, if it is not null. -/
structure Body where
  size : Nat := 0
  block : Option (List UInt8) := none
  deriving DecidableEq

structure HttpResponse where
  protocol : List UInt8 := []
  version : List UInt8 := []
  statusCode : List UInt8 := []
  statusText : List UInt8 := []
  headers : Headers := ∅
  body : Body := {}
  deriving DecidableEq

namespace Http

/-- `"Content-Length"` -/
def contentLengthName : List UInt8 :=
  [67, 111, 110, 116, 101, 110, 116, 45, 76, 101, 110, 103, 116, 104]

section Reading

variable {β : Type} [Streambuf β]

/-- `read_char` -/
def readChar (fuel : Nat) (s : Serial β) : Except Halt (UInt8 × Serial β) := do
  let (_, c, s) ← s.readBytes fuel [0] 1
  return (c.headD 0, s)

/-- `read_line`, with the characters it already has in `result`. -/
def readLine : Nat → Serial β → List UInt8 → Except Halt (List UInt8 × Serial β)
  | 0, _, _ => .error .outOfFuel
  | fuel + 1, s, result => do
      let (ch, s) ← readChar (fuel + 1) s
      if ch = 13 then readLine fuel s result
      else if ch = 10 then return (result, s)
      else readLine fuel s (result ++ [ch])

/-- The name and the value of a header line. -/
def headerField (headerLine : List UInt8) : Option (List UInt8 × List UInt8) :=
  match find headerLine 58 0 with
  | none => none
  | some colon =>
      let key := substr headerLine 0 colon
      let value := headerLine.drop (colon + 1)
      some (key, if value.head? = some 32 then value.drop 1 else value)

/-- A header line without a colon is skipped, a later one replaces an earlier one. -/
def setHeader (headers : Headers) (headerLine : List UInt8) : Headers :=
  match headerField headerLine with
  | none => headers
  | some (key, value) => headers.insert key value

/-- The loop over the header lines. -/
def readHeaders : Nat → Serial β → Headers → Except Halt (Headers × Serial β)
  | 0, _, _ => .error .outOfFuel
  | fuel + 1, s, headers => do
      let (headerLine, s) ← readLine (fuel + 1) s []
      if headerLine = [] then return (headers, s)
      else readHeaders fuel s (setHeader headers headerLine)

/-- The body, where `Content-Length` announces one.  A request for no bytes is met with an empty
block. -/
def readBody (malloc : Nat → Bool) (fuel : Nat) (s : Serial β) (response : HttpResponse) :
    Except Halt (HttpResponse × Serial β) :=
  match response.headers.lookup contentLengthName with
  | none => .ok (response, s)
  | some text =>
      if text = [] then .ok (response, s)
      else
        match stoll text with
        | .error what => .error (.exception what)
        | .ok length => do
            let contentLength := toSizeT length
            let bodySize := toSizeT (contentLength + 1)
            -- memset on the null pointer
            if bodySize ≠ 0 ∧ malloc bodySize = false then .error .fault
            else do
              let (_, body, s) ← s.readBytes fuel (List.replicate bodySize 0) contentLength
              return ({ response with body := ⟨contentLength, some body⟩ }, s)

/-- The part of the status line before the first space. -/
def setProtocolVersion (response : HttpResponse) (protocolVersion : List UInt8) : HttpResponse :=
  match find protocolVersion 47 0 with
  | some slash =>
      { response with
        protocol := substr protocolVersion 0 (slash + 1)
        version := protocolVersion.drop (slash + 1) }
  | none => { response with protocol := protocolVersion, version := [] }

/-- The fields of the status line, and whether the line is complete enough to go on. -/
def parseStatusLine (response : HttpResponse) (statusLine : List UInt8) : HttpResponse × Bool :=
  match find statusLine 32 0 with
  | none => (response, false)
  | some space1 =>
      let response := setProtocolVersion response (substr statusLine 0 space1)
      match find statusLine 32 (space1 + 1) with
      | none => (response, false)
      | some space2 =>
          ({ response with
              statusCode := substr statusLine (space1 + 1) (space2 - space1 - 1)
              statusText := statusLine.drop (space2 + 1) }, true)

/-- `deserialize(serial, response)`, for any `malloc` -/
def deserializeWith (malloc : Nat → Bool) (fuel : Nat) (s : Serial β) (response : HttpResponse) :
    Except Halt (HttpResponse × Serial β) := do
  let (statusLine, s) ← readLine fuel s []
  let (response, complete) := parseStatusLine response statusLine
  if complete then do
    let (headers, s) ← readHeaders fuel s response.headers
    readBody malloc fuel s { response with headers }
  else
    return (response, s)

/-- The sizes of objects: no block has `2 ^ 63` bytes or more. -/
def mallocObject (size : Nat) : Bool := size < 2 ^ 63

/-- `deserialize(serial, response)`, where memory is not exhausted -/
def deserialize (fuel : Nat) (s : Serial β) (response : HttpResponse) :
    Except Halt (HttpResponse × Serial β) :=
  deserializeWith mallocObject fuel s response

end Reading

/-! ## The copy for C callers -/

/-- `io_http_response_t`, without the rendering of the headers. -/
structure IoHttpResponse where
  protocol : List UInt8
  version : List UInt8
  statusCode : List UInt8
  statusText : List UInt8
  body : List UInt8
  bodySize : Nat
  deriving DecidableEq

/-- `copy_c_string`: the characters and a terminating zero. -/
def copyCString (str : List UInt8) : List UInt8 := str ++ [0]

/-- `malloc(size + 1)`, `memcpy` of `size` bytes, and a terminating zero; no result when an
access leaves either block. -/
def copyBody (block : List UInt8) (size : Nat) : Option (List UInt8) :=
  if size ≤ block.length ∧ size < toSizeT (size + 1) then some (block.take size ++ [0]) else none

def makeHttpResponse (response : HttpResponse) : Option IoHttpResponse := do
  let (body, bodySize) ←
    match response.body.block with
    | some block =>
        if 0 < response.body.size then do
          let bodyCopy ← copyBody block response.body.size
          pure (bodyCopy, response.body.size)
        else pure (copyCString [], 0)
    | none => pure (copyCString [], 0)
  return {
    protocol := copyCString response.protocol
    version := copyCString response.version
    statusCode := copyCString response.statusCode
    statusText := copyCString response.statusText
    body
    bodySize }

end Http
end Iostreams
