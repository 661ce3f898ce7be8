import Iostreams.CApi.ServerClients
import Iostreams.Foundation.Run
import Iostreams.Foundation.StandardStream
import Mathlib.Algebra.Order.BigOperators.Group.List

/-!
# Writing to a connection through the C API

`io_tcp_client_write` and `io_tcp_stream_write` hand their data to `ostream::write`, which
calls `tcp_streambuf::xsputn` once, and then return the size they were given.  How much the
socket accepted is the result of `xsputn`; a shorter result becomes the `badbit` of the stream,
which neither function looks at.

What the socket does is a `SocketOutcome`, one for each call.  `ReportsAccepted` says of a run
that the results add up to what the socket accepted, and `Accepts` which calls let it.
-/

namespace Iostreams

open Foundation

/-! ## The output side of `tcp_streambuf` -/

/-- What the socket does when `xsputn` turns to it. -/
structure SocketOutcome where
  /-- The first `wait_writable` does not time out. -/
  writable : Bool
  /-- On TLS, the results of waiting after each `SSL_write` that has to be repeated. -/
  waits : List Bool := []
  /-- The most bytes that `send`, or the last `SSL_write`, takes; none where it fails. -/
  takes : Option Nat

/-- The counters of `tcp_streambuf` for its output, and what the socket has accepted. -/
structure TcpOutput where
  ssl : Bool
  accepted : List UInt8 := []
  writePos : Int := 0
  writeLength : Int := 0

namespace TcpOutput

/-- The length that `send` and `SSL_write` are called with; that of `SSL_write` is an `int`. -/
def sendLength (ssl : Bool) (n : Int) : Nat := if ssl then (toInt32 n).toNat else n.toNat

theorem sendLength_le {ssl : Bool} {n : Int} (hpos : 0 < n) : (sendLength ssl n : Int) ≤ n := by
  have hint : toInt32 n ≤ n := toInt32_le hpos
  unfold sendLength
  split <;> omega

/-- `sent = send(fd, s, n, 0)`, or `SSL_write`: a failure is `-1`, converted to `size_t`. -/
def send (buf : TcpOutput) (outcome : SocketOutcome) (s : List UInt8) (n : Int) :
    Nat × TcpOutput :=
  match outcome.takes with
  | none => (toSizeT (-1), buf)
  | some count =>
      let bytes := s.take (min count (sendLength buf.ssl n))
      (bytes.length, { buf with accepted := buf.accepted ++ bytes })

def xsputn (buf : TcpOutput) (outcome : SocketOutcome) (s : List UInt8) (n : Int) :
    Int × TcpOutput :=
  if n ≤ 0 then (0, buf)
  else if !outcome.writable then (0, buf)
  else if buf.ssl && outcome.waits.contains false then (0, buf)
  else
    let (sent, buf) := buf.send outcome s n
    -- `sent` is unsigned, so that a failure is counted before it is returned
    if sent ≤ 0 then (-1, buf)
    else
      (toInt64 sent, { buf with
        writePos := toInt64 (buf.writePos + sent)
        writeLength := toInt64 (buf.writeLength + sent) })

/-- No wait times out, and the socket takes `n` bytes. -/
def TakesAll (buf : TcpOutput) (outcome : SocketOutcome) (n : Int) : Prop :=
  outcome.writable = true ∧ (buf.ssl = true → false ∉ outcome.waits) ∧
    ∃ count, outcome.takes = some count ∧ n ≤ min count (sendLength buf.ssl n)

/-- The socket accepted a prefix of the data, all of it exactly if it takes it all, and the
result tells whether it did. -/
def Effect (buf : TcpOutput) (outcome : SocketOutcome) (n : Int) (result : Int × TcpOutput) :
    Prop :=
  ∃ bytes, result.2.accepted = buf.accepted ++ bytes ∧ result.2.ssl = buf.ssl ∧
    (bytes.length : Int) ≤ n ∧ ((bytes.length : Int) = n ↔ buf.TakesAll outcome n) ∧
    (result.1 < n ↔ ¬buf.TakesAll outcome n)

theorem effect_nothing {buf buf' : TcpOutput} {outcome : SocketOutcome} {n r : Int} (hpos : 0 < n)
    (haccepted : buf'.accepted = buf.accepted) (hssl : buf'.ssl = buf.ssl) (hr : r < n)
    (hshort : ¬buf.TakesAll outcome n) : buf.Effect outcome n (r, buf') := by
  refine ⟨[], by rw [haccepted, List.append_nil], hssl, ?_, ?_, iff_of_true hr hshort⟩
  · show (0 : Int) ≤ n
    omega
  · refine iff_of_false ?_ hshort
    show ¬(0 : Int) = n
    omega

/-- Where no wait times out, all depends on how much the socket takes. -/
theorem takesAll_iff {buf : TcpOutput} {outcome : SocketOutcome}
    (hwritable : outcome.writable = true) (hwaits : buf.ssl = true → false ∉ outcome.waits)
    {count : Nat} (htakes : outcome.takes = some count) (n : Int) :
    buf.TakesAll outcome n ↔ n ≤ min count (sendLength buf.ssl n) := by
  constructor
  · rintro ⟨-, -, count', hcount, hle⟩
    rw [htakes] at hcount
    cases hcount
    exact hle
  · exact fun hle => ⟨hwritable, hwaits, count, htakes, hle⟩

/-- What was sent is a prefix of the data. -/
theorem sent_effect {buf : TcpOutput} {outcome : SocketOutcome} {s : List UInt8} {n : Int}
    (hpos : 0 < n) (hlt : n < 2 ^ 63) (hle : n ≤ s.length) {count : Nat}
    (hall : buf.TakesAll outcome n ↔ n ≤ min count (sendLength buf.ssl n)) :
    let bytes := s.take (min count (sendLength buf.ssl n))
    let sent := { buf with accepted := buf.accepted ++ bytes }
    buf.Effect outcome n (if bytes.length ≤ 0 then (-1, sent)
      else (toInt64 bytes.length, { sent with
        writePos := toInt64 (buf.writePos + bytes.length)
        writeLength := toInt64 (buf.writeLength + bytes.length) })) := by
  intro bytes sent
  have hlength : bytes.length = min (min count (sendLength buf.ssl n)) s.length :=
    List.length_take
  have hsend : (sendLength buf.ssl n : Int) ≤ n := sendLength_le hpos
  by_cases hnone : bytes.length ≤ 0
  · rw [if_pos hnone]
    refine effect_nothing hpos ?_ rfl (by omega) (fun htakes => ?_)
    · show buf.accepted ++ bytes = buf.accepted
      rw [List.length_eq_zero_iff.mp (Nat.le_zero.mp hnone), List.append_nil]
    · have hle := hall.mp htakes
      omega
  · have hsent : toInt64 (bytes.length : Int) = bytes.length := toInt64_natCast (by omega)
    rw [if_neg hnone]
    refine ⟨bytes, rfl, rfl, by omega, ?_, ?_⟩
    · rw [hall]
      omega
    · rw [hall, hsent]
      omega

theorem xsputn_effect (buf : TcpOutput) (outcome : SocketOutcome) {s : List UInt8} {n : Int}
    (hpos : 0 < n) (hlt : n < 2 ^ 63) (hle : n ≤ s.length) :
    buf.Effect outcome n (buf.xsputn outcome s n) := by
  unfold xsputn
  rw [if_neg (by omega)]
  by_cases hwritable : outcome.writable = true
  · rw [if_neg (by simp [hwritable])]
    by_cases hwait : buf.ssl = true ∧ false ∈ outcome.waits
    · -- a wait in the loop timed out
      rw [if_pos (by simpa using hwait)]
      exact effect_nothing hpos rfl rfl hpos fun htakes => htakes.2.1 hwait.1 hwait.2
    · rw [if_neg (by simpa using hwait)]
      have hwaits : buf.ssl = true → false ∉ outcome.waits := fun hssl hmem => hwait ⟨hssl, hmem⟩
      cases htakes : outcome.takes with
      | none =>
          have hsent : toInt64 (toSizeT (-1)) < n := by
            have hminus : toInt64 (toSizeT (-1)) = -1 := rfl
            omega
          simp only [send, htakes]
          apply effect_nothing hpos rfl rfl hsent
          rintro ⟨-, -, count, hcount, -⟩
          rw [htakes] at hcount
          cases hcount
      | some count =>
          simp only [send, htakes]
          exact sent_effect hpos hlt hle (takesAll_iff hwritable hwaits htakes n)
  · rw [if_pos (by simpa using hwritable)]
    exact effect_nothing hpos rfl rfl hpos fun htakes => hwritable htakes.1

end TcpOutput

/-- `ostream::write(s, n)` on a `tcp_iostream` -/
def tcpWrite (io : IOStream TcpOutput) (outcome : SocketOutcome) (s : List UInt8) (n : Int) :
    IOStream TcpOutput :=
  if io.good then
    let (taken, rdbuf) := io.rdbuf.xsputn outcome s n
    if taken < n then { io with rdbuf, badbit := true } else { io with rdbuf }
  else
    io

/-- A stream that is not good, or a size that is not positive, changes nothing. -/
theorem tcpWrite_idle {io : IOStream TcpOutput} {n : Int} (hidle : io.good = false ∨ n ≤ 0)
    (outcome : SocketOutcome) (s : List UInt8) : tcpWrite io outcome s n = io := by
  unfold tcpWrite
  rcases hidle with hgood | hn
  · rw [if_neg (by simp [hgood])]
  · have hput : io.rdbuf.xsputn outcome s n = (0, io.rdbuf) := by
      rw [TcpOutput.xsputn, if_pos hn]
    split
    · simp only [hput]
      rw [if_neg (by omega)]
    · rfl

/-- On a good stream, `badbit` tells whether everything was accepted. -/
theorem tcpWrite_good {io : IOStream TcpOutput} (hgood : io.good = true) (outcome : SocketOutcome)
    {s : List UInt8} {n : Int} (hpos : 0 < n) (hlt : n < 2 ^ 63) (hle : n ≤ s.length) :
    ∃ bytes, (tcpWrite io outcome s n).rdbuf.accepted = io.rdbuf.accepted ++ bytes ∧
      (tcpWrite io outcome s n).rdbuf.ssl = io.rdbuf.ssl ∧ (bytes.length : Int) ≤ n ∧
      ((bytes.length : Int) = n ↔ io.rdbuf.TakesAll outcome n) ∧
      ((tcpWrite io outcome s n).good = true ↔ io.rdbuf.TakesAll outcome n) := by
  obtain ⟨bytes, haccepted, hssl, hbytes, hall, hresult⟩ :=
    io.rdbuf.xsputn_effect outcome hpos hlt hle
  unfold tcpWrite
  rw [if_pos hgood]
  by_cases hshort : (io.rdbuf.xsputn outcome s n).1 < n
  · simp only [hshort, if_true]
    refine ⟨bytes, haccepted, hssl, hbytes, hall, ?_⟩
    exact iff_of_false (by simp [IOStream.good]) (hresult.mp hshort)
  · simp only [hshort, if_false]
    have htakes : io.rdbuf.TakesAll outcome n := not_not.mp (mt hresult.mpr hshort)
    exact ⟨bytes, haccepted, hssl, hbytes, hall, iff_of_true hgood htakes⟩

/-! ## The two functions -/

/-- A handle that is null, or whose `ptr` is, is none, and so is a null `data`. -/
def ioTcpWrite (stream : Option (IOStream TcpOutput)) (data : Option (List UInt8))
    (outcome : SocketOutcome) : Int × Option (IOStream TcpOutput) :=
  match stream, data with
  | some io, some data =>
      (toInt64 data.length, some (tcpWrite io outcome data (toInt64 data.length)))
  | stream, _ => (ioError, stream)

def ioTcpClientWrite (client : Option (IOStream TcpOutput)) (data : Option (List UInt8))
    (outcome : SocketOutcome) : Int × Option (IOStream TcpOutput) :=
  ioTcpWrite client data outcome

def ioTcpStreamWrite (stream : Option (IOStream TcpOutput)) (data : Option (List UInt8))
    (outcome : SocketOutcome) : Int × Option (IOStream TcpOutput) :=
  ioTcpWrite stream data outcome

/-! ## Runs -/

inductive TcpWriteFunction where
  | client
  | stream
  deriving DecidableEq

/-- A call on a connection, with the handle that the caller passes and the socket's part in it. -/
structure TcpWriteCall where
  function : TcpWriteFunction
  handle : Bool := true
  data : Option (List UInt8)
  outcome : SocketOutcome

/-- What a call returned, how much it was given and how much of that the socket accepted. -/
structure WriteReport where
  returned : Int
  size : Nat
  accepted : Nat
  deriving DecidableEq

namespace TcpWriteCall

/-- The result of the call and the connection after it. -/
def result (call : TcpWriteCall) (io : IOStream TcpOutput) : Int × IOStream TcpOutput :=
  let handle := if call.handle then some io else none
  let (returned, handle) := match call.function with
    | .client => ioTcpClientWrite handle call.data call.outcome
    | .stream => ioTcpStreamWrite handle call.data call.outcome
  (returned, handle.getD io)

def perform (call : TcpWriteCall) (io : IOStream TcpOutput) :
    WriteReport × IOStream TcpOutput :=
  let (returned, io') := call.result io
  ({ returned
     size := (call.data.getD []).length
     accepted := io'.rdbuf.accepted.length - io.rdbuf.accepted.length }, io')

/-- The call is made on the connection, with something for it. -/
def Asks (call : TcpWriteCall) (data : List UInt8) : Prop :=
  call.handle = true ∧ call.data = some data ∧ 0 < toInt64 data.length

/-- The stream is good and the socket takes all that it is given, if it is given anything. -/
def Accepts (call : TcpWriteCall) (io : IOStream TcpOutput) : Prop :=
  ∀ data, call.Asks data →
    io.good = true ∧ io.rdbuf.TakesAll call.outcome (toInt64 data.length)

theorem result_asks {call : TcpWriteCall} {data : List UInt8} (hasks : call.Asks data)
    (io : IOStream TcpOutput) :
    call.result io =
      (toInt64 data.length, tcpWrite io call.outcome data (toInt64 data.length)) := by
  obtain ⟨hhandle, hdata, -⟩ := hasks
  cases hfunction : call.function <;>
    simp [result, hfunction, hhandle, hdata, ioTcpClientWrite, ioTcpStreamWrite, ioTcpWrite]

/-- A call that is not made on the connection, or with nothing for it, reports nothing. -/
theorem result_idle {call : TcpWriteCall} (hidle : ∀ data, ¬call.Asks data)
    (io : IOStream TcpOutput) : (call.result io).1 ≤ 0 ∧ (call.result io).2 = io := by
  have hfunction : call.result io =
      let (returned, handle) :=
        ioTcpWrite (if call.handle then some io else none) call.data call.outcome
      (returned, handle.getD io) := by
    cases hfunction : call.function <;>
      simp only [result, hfunction, ioTcpClientWrite, ioTcpStreamWrite]
  rw [hfunction]
  by_cases hhandle : call.handle = true
  · cases hdata : call.data with
    | none => simp [hhandle, ioTcpWrite, ioError]
    | some data =>
        have hnone : toInt64 data.length ≤ 0 := by
          by_contra hpos
          exact hidle data ⟨hhandle, hdata, by omega⟩
        simp [hhandle, ioTcpWrite, tcpWrite_idle (Or.inr hnone), hnone]
  · simp [hhandle, ioTcpWrite, ioError]

/-- What one call does: the socket never accepts more than the call reports, and as much exactly
if it accepts all that it is given. -/
structure Step (call : TcpWriteCall) (io : IOStream TcpOutput) : Prop where
  grows : (call.perform io).1.accepted + io.rdbuf.accepted.length =
    (call.perform io).2.rdbuf.accepted.length
  le : (call.perform io).1.accepted ≤ (call.perform io).1.returned.toNat
  eq_iff : (call.perform io).1.accepted = (call.perform io).1.returned.toNat ↔ call.Accepts io
  ssl : (call.perform io).2.rdbuf.ssl = io.rdbuf.ssl
  good : (call.perform io).2.good = true → io.good = true
  keeps : call.Accepts io → (call.perform io).2.good = io.good

/-- A call that leaves the connection as it is. -/
theorem step_of_unchanged {call : TcpWriteCall} {io : IOStream TcpOutput}
    (hsame : (call.result io).2 = io) (hiff : 0 = (call.result io).1.toNat ↔ call.Accepts io) :
    call.Step io := by
  have hreport : (call.perform io).1.accepted = 0 := by simp [perform, hsame]
  have hstate : (call.perform io).2 = io := hsame
  refine ⟨?_, ?_, ?_, by rw [hstate], by rw [hstate]; exact id, fun _ => by rw [hstate]⟩
  · rw [hreport, hstate, Nat.zero_add]
  · rw [hreport]
    exact Nat.zero_le _
  · rw [hreport]
    exact hiff

/-- A call on a good stream. -/
theorem step_of_good {call : TcpWriteCall} {data : List UInt8} (hasks : call.Asks data)
    {io : IOStream TcpOutput} (hgood : io.good = true) : call.Step io := by
  have hresult := result_asks hasks io
  obtain ⟨bytes, haccepted, hssl, hbytes, hall, hstill⟩ :=
    tcpWrite_good hgood call.outcome hasks.2.2 (toInt64_lt _) (toInt64_natCast_le _)
  have haccepts : call.Accepts io ↔ io.rdbuf.TakesAll call.outcome (toInt64 data.length) := by
    constructor
    · exact fun haccepts => (haccepts data hasks).2
    · intro htakes other hother
      obtain rfl := Option.some.inj (hother.2.1.symm.trans hasks.2.1)
      exact ⟨hgood, htakes⟩
  have hlength := congrArg List.length haccepted
  rw [List.length_append] at hlength
  refine ⟨?_, ?_, ?_, ?_, fun _ => hgood, fun hwhole => ?_⟩
  · simp only [perform, hresult]
    omega
  · simp only [perform, hresult]
    omega
  · simp only [perform, hresult]
    rw [haccepts, ← hall]
    omega
  · simp only [perform, hresult, hssl]
  · simp only [perform, hresult]
    rw [hgood]
    exact hstill.mpr (haccepts.mp hwhole)

theorem step (call : TcpWriteCall) (io : IOStream TcpOutput) : call.Step io := by
  by_cases hasks : ∃ data, call.Asks data
  · obtain ⟨data, hasks⟩ := hasks
    by_cases hgood : io.good = true
    · exact step_of_good hasks hgood
    · -- the stream does nothing, and the size is returned all the same
      have hresult := result_asks hasks io
      have hpos := hasks.2.2
      rw [tcpWrite_idle (Or.inl (Bool.eq_false_iff.mpr hgood))] at hresult
      have hnot : ¬call.Accepts io := fun haccepts => hgood (haccepts data hasks).1
      have hreturned : (call.result io).1 = toInt64 data.length := by rw [hresult]
      exact step_of_unchanged (by rw [hresult]) (iff_of_false (by omega) hnot)
  · have hnone : ∀ data, ¬call.Asks data := not_exists.mp hasks
    obtain ⟨hreturned, hresult⟩ := result_idle hnone io
    exact step_of_unchanged hresult (iff_of_true (Int.toNat_of_nonpos hreturned).symm
      fun data hdata => absurd hdata (hnone data))

/-- Only the state of the stream and the kind of the connection matter to what comes. -/
theorem Step.accepts_iff {call : TcpWriteCall} {io : IOStream TcpOutput} (hstep : call.Step io)
    (haccepts : call.Accepts io) (next : TcpWriteCall) :
    next.Accepts (call.perform io).2 ↔ next.Accepts io := by
  unfold Accepts TcpOutput.TakesAll
  rw [hstep.keeps haccepts, hstep.ssl]

end TcpWriteCall

/-- The results that are not negative add up to what the socket accepted, and a call whose data
was not accepted completely does not return its size. -/
def ReportsAccepted (io : IOStream TcpOutput) (calls : List TcpWriteCall) : Prop :=
  let (reports, final) := runModel (fun io call => TcpWriteCall.perform call io) io calls
  io.rdbuf.accepted.length + (reports.map fun report => report.returned.toNat).sum =
      final.rdbuf.accepted.length ∧
    ∀ report ∈ reports, report.accepted < report.size → report.returned ≠ report.size

/-! ## The reports of a run -/

/-- Every call is reported as it is, and the final count is the sum of the reports. -/
theorem runModel_accepted (calls : List TcpWriteCall) (io : IOStream TcpOutput) :
    io.rdbuf.accepted.length +
        ((runModel (fun io call => TcpWriteCall.perform call io) io calls).1.map
          WriteReport.accepted).sum =
      (runModel (fun io call => TcpWriteCall.perform call io) io
        calls).2.rdbuf.accepted.length := by
  induction calls generalizing io with
  | nil => rfl
  | cons call rest ih =>
      have hgrows := (call.step io).grows
      simp only [runModel, List.map_cons, List.sum_cons]
      rw [← ih (call.perform io).2]
      omega

/-- Every report is exact exactly if every call is accepted. -/
theorem reports_exact_iff (calls : List TcpWriteCall) (io : IOStream TcpOutput) :
    (∀ report ∈ (runModel (fun io call => TcpWriteCall.perform call io) io calls).1,
        report.accepted = report.returned.toNat) ↔ ∀ call ∈ calls, call.Accepts io := by
  induction calls generalizing io with
  | nil => simp [runModel]
  | cons call rest ih =>
      have hstep := call.step io
      simp only [runModel, List.forall_mem_cons]
      rw [ih (call.perform io).2, hstep.eq_iff]
      apply and_congr_right
      intro haccepts
      simp only [hstep.accepts_iff haccepts]

theorem reports_le (calls : List TcpWriteCall) (io : IOStream TcpOutput) :
    ∀ report ∈ (runModel (fun io call => TcpWriteCall.perform call io) io calls).1,
      report.accepted ≤ report.returned.toNat := by
  induction calls generalizing io with
  | nil => simp [runModel]
  | cons call rest ih =>
      simp only [runModel, List.forall_mem_cons]
      exact ⟨(call.step io).le, ih _⟩

/-- Sums of pairwise ordered numbers are equal only if the numbers are. -/
theorem sum_eq_iff {α : Type} {f g : α → Nat} {items : List α}
    (hle : ∀ item ∈ items, f item ≤ g item) :
    (items.map g).sum = (items.map f).sum ↔ ∀ item ∈ items, f item = g item := by
  induction items with
  | nil => simp
  | cons item rest ih =>
      rw [List.forall_mem_cons] at hle ⊢
      obtain ⟨hfirst, hothers⟩ := hle
      have hsum : (rest.map f).sum ≤ (rest.map g).sum := List.sum_le_sum hothers
      simp only [List.map_cons, List.sum_cons]
      rw [← ih hothers]
      omega

/-- **Results of writes.**  In a run of writes on a connection the results add up to what the
socket accepted, and a call whose data was not accepted completely does not return its size,
exactly if the socket takes all that it is given in every call, and the stream was good. -/
theorem writes_reportAccepted_iff (io : IOStream TcpOutput) (calls : List TcpWriteCall) :
    ReportsAccepted io calls ↔ ∀ call ∈ calls, call.Accepts io := by
  have hsum := sum_eq_iff (reports_le calls io)
  have hfinal := runModel_accepted calls io
  rw [← reports_exact_iff calls io, ← hsum]
  unfold ReportsAccepted
  simp only
  constructor
  · rintro ⟨htotal, -⟩
    omega
  · intro hexact
    refine ⟨by omega, fun report hreport hshort hfull => ?_⟩
    have hreported := hsum.mp hexact report hreport
    omega

/-- A partial `send` is reported as a whole one, and so is a call after it, which the stream no
longer passes on. -/
theorem not_writes_reportAccepted :
    ∃ (io : IOStream TcpOutput) (calls : List TcpWriteCall),
      (runModel (fun io call => TcpWriteCall.perform call io) io calls).1 =
        [{ returned := 2, size := 2, accepted := 1 }, { returned := 1, size := 1, accepted := 0 }] ∧
      ¬ReportsAccepted io calls := by
  let partialSend : SocketOutcome := { writable := true, takes := some 1 }
  refine ⟨{ rdbuf := { ssl := false } },
    [{ function := .client, data := some [104, 105], outcome := partialSend },
      { function := .client, data := some [33], outcome := partialSend }], by decide, ?_⟩
  rintro ⟨htotal, -⟩
  exact absurd htotal (by decide)

end Iostreams
