import Iostreams.Foundation.StandardStream

/-!
# The state of a `Serial`

A `Serial` transfers bytes and bits between values and one of four backends:
a counter (`isCountSerial`), a caller-supplied buffer (`isBufferSerial`), a
pass-through object, or standard streams.  The record below has the fields of
the class under their names; `_size_mismatch_flag` and `__size_mismatch_flag`
are `sizeMismatchFlag` and `lastSizeMismatchFlag`.

The streams a `Serial` is constructed over are one object `stream` together
with the two null tests `writeStreamPointer` and `readStreamPointer`.  The
temporary `currentReadBuffer`, a (size, pointer, index) triple whose size and
index always agree, is the list of its bytes.  The pointer `read_buffer`, which
is null outside `readTypeWithBuffer`, is passed as an argument where it is
consulted.

Operations return `Except Halt`: a C++ exception, `outOfFuel` when the bound on
call depth and loop iterations the operation was given is used up, or `fault`
where memory is accessed that is not there.
-/

namespace Iostreams

open Foundation

/-- The ways an operation does not return. -/
inductive Halt where
  | outOfFuel
  | exception (what : String)
  | fault
  deriving DecidableEq, Repr

@[simp] theorem ok_bind {ε α ρ : Type} (value : α) (next : α → Except ε ρ) :
    (Except.ok value >>= next) = next value := rfl

/-- The results of some calls, in order, and the state after them. -/
def runEach {σ κ ω : Type} (perform : σ → κ → Except Halt (ω × σ)) :
    List κ → σ → Except Halt (List ω × σ)
  | [], state => .ok ([], state)
  | call :: rest, state => do
      let (result, state) ← perform state call
      let (results, state) ← runEach perform rest state
      .ok (result :: results, state)

theorem runEach_cons_eq {σ κ ω : Type} {perform : σ → κ → Except Halt (ω × σ)} {call : κ}
    {rest : List κ} {state next final : σ} {result : ω} {results : List ω}
    (hcall : perform state call = .ok (result, next))
    (hrest : runEach perform rest next = .ok (results, final)) :
    runEach perform (call :: rest) state = .ok (result :: results, final) := by
  rw [runEach, hcall, ok_bind]
  simp only [hrest, ok_bind]

/-- A run that returns is a call that returns and a run from there. -/
theorem runEach_cons_ok {σ κ ω : Type} {perform : σ → κ → Except Halt (ω × σ)} {call : κ}
    {rest : List κ} {state final : σ} {results : List ω}
    (hrun : runEach perform (call :: rest) state = .ok (results, final)) :
    ∃ result next later, perform state call = .ok (result, next) ∧
      runEach perform rest next = .ok (later, final) ∧ results = result :: later := by
  cases hcall : perform state call with
  | error halt =>
      rw [runEach, hcall] at hrun
      cases hrun
  | ok step =>
      obtain ⟨result, next⟩ := step
      rw [runEach, hcall, ok_bind] at hrun
      cases hrest : runEach perform rest next with
      | error halt =>
          simp only [hrest] at hrun
          cases hrun
      | ok run =>
          obtain ⟨later, state'⟩ := run
          simp only [hrest, ok_bind] at hrun
          cases hrun
          exact ⟨result, next, later, rfl, hrest, rfl⟩

/-- A pass-through object: its two virtual functions. -/
structure APassthrough where
  write : List UInt8 → Int
  read : List UInt8 → Nat → Int × List UInt8

/-- The fields of the class. -/
structure Serial (β : Type) where
  currentReadByte : UInt8 := 0
  bitsReadReadByte : Nat := 8
  currentWriteByte : UInt8 := 0
  bitsWrittenWriteByte : Nat := 0
  bitStream : Bool := false
  currentReadBuffer : List UInt8 := []
  pushedReadBuffer : Bool := false
  readEof : Bool := false
  readEmpty : Bool := false
  sizeMismatchFlag : Bool := false
  lastSizeMismatchFlag : Bool := false
  lastBytesRead : Nat := 0
  nextReadOffset : Int := 0
  startReadOffsetPosition : Int := 0
  isCountSerial : Bool := false
  countWrite : Nat := 0
  countWriteIndex : Nat := 0
  countReadIndex : Nat := 0
  isBufferSerial : Bool := false
  bufferReadIndex : Int := 0
  bufferWriteIndex : Int := 0
  bufferSize : Int := 0
  bufferPointer : List UInt8 := []
  stream : Option (IOStream β) := none
  writeStreamPointer : Bool := false
  readStreamPointer : Bool := false
  passthroughPtr : Option APassthrough := none

namespace Serial

variable {β : Type}

/-! ## Constructors -/

/-- `Serial(bool)` -/
def ofCount (isCountSerial : Bool) : Serial β := { isCountSerial }

/-- `Serial(int64_t, char*, bool)` over a block of memory of the given size. -/
def ofBuffer (memory : List UInt8) (bitStream : Bool) : Serial β :=
  { bitStream, isBufferSerial := true, bufferSize := memory.length, bufferPointer := memory }

/-- `Serial(std::iostream&, bool)` -/
def ofStream (io : IOStream β) (bitStream : Bool) : Serial β :=
  { bitStream, stream := some io, writeStreamPointer := true, readStreamPointer := true }

/-! ## The read and the write stream -/

/-- `*readStreamPointer`, when the pointer is not null. -/
def readStream (s : Serial β) : Option (IOStream β) :=
  if s.readStreamPointer then s.stream else none

/-- `*writeStreamPointer`, when the pointer is not null. -/
def writeStream (s : Serial β) : Option (IOStream β) :=
  if s.writeStreamPointer then s.stream else none

/-- The state of the stream object after an operation on it. -/
def setStream (s : Serial β) (io : IOStream β) : Serial β := { s with stream := some io }

/-! ## Flags -/

def isReadEof (s : Serial β) : Bool := s.readEof

def isReadEmpty (s : Serial β) : Bool := s.readEmpty

def lastDidNotReadWholeSize (s : Serial β) : Bool := s.lastSizeMismatchFlag

def didNotReadWholeSize (s : Serial β) : Bool × Serial β :=
  (s.sizeMismatchFlag,
    { s with lastSizeMismatchFlag := s.sizeMismatchFlag, sizeMismatchFlag := false })

def clearRead (s : Serial β) : Serial β :=
  let s := match s.readStream with
    | some io => s.setStream io.clear
    | none => s
  { s with lastSizeMismatchFlag := false, sizeMismatchFlag := false }

/-! ## The temporary read buffer -/

def pushByteReadBuffer (s : Serial β) : Serial β :=
  { s with currentReadBuffer := [], pushedReadBuffer := true }

def pushReadBytes (s : Serial β) (data : List UInt8) (expectedSize : Nat) : Serial β :=
  { s with
    sizeMismatchFlag := s.sizeMismatchFlag || data.length != expectedSize
    currentReadBuffer :=
      if s.pushedReadBuffer then s.currentReadBuffer ++ data else s.currentReadBuffer }

def popByteReadBuffer (s : Serial β) : Serial β :=
  if s.pushedReadBuffer then { s with pushedReadBuffer := false, currentReadBuffer := [] } else s

def peekByteReadBuffer (s : Serial β) : Except Halt (List UInt8) :=
  if s.pushedReadBuffer then .ok s.currentReadBuffer
  else .error (.exception "peeked when empty")

/-! ## Positions -/

section Positions

variable [Streambuf β]

def getWritePosition (s : Serial β) : Int :=
  if s.isCountSerial then toInt64 s.countWriteIndex
  else if s.isBufferSerial then s.bufferWriteIndex
  else match s.writeStream with
    | some io => io.tellp
    | none => -1

/-- `tellg` can set `failbit`, so the position comes with the new state. -/
def getReadPosition (s : Serial β) : Int × Serial β :=
  if s.isCountSerial then (toInt64 s.countReadIndex, s)
  else if s.isBufferSerial then (s.bufferReadIndex, s)
  else match s.readStream with
    | some io =>
        let (position, io) := io.tellg
        (position, s.setStream io)
    | none => (-1, s)

def setWritePosition (s : Serial β) (index : Nat) : Serial β :=
  if s.isCountSerial then { s with countWriteIndex := index }
  else if s.isBufferSerial then { s with bufferWriteIndex := toInt64 index }
  else match s.writeStream with
    | some io => s.setStream (io.seekp (toInt64 index))
    | none => s

def setReadPosition (s : Serial β) (index : Nat) : Serial β :=
  if s.isCountSerial then { s with countReadIndex := index }
  else if s.isBufferSerial then { s with bufferReadIndex := toInt64 index }
  else match s.readStream with
    | some io => s.setStream (io.seekg (toInt64 index))
    | none => s

end Positions

end Serial
end Iostreams
