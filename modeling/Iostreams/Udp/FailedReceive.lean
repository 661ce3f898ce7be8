import Iostreams.Udp.Received

/-!
# A `recvfrom` that fails

`receiveOne` prints an error where `recvfrom` returns `-1` and goes on: the address that was not
filled in is looked up, a stream is created if there is none, and `-1`, as a `size_t`, is the size
that `add_received_data` is to make room for.  No vector has that many elements, so the call
throws; the new stream stays registered.  `io_udp_server_receive`, which checks for a null stream,
returns null because of the exception.
-/

namespace Iostreams

open Foundation

namespace UdpServer

/-- `receiveOne` whose `recvfrom` returns `-1`, whatever is there to be received. -/
def receiveFailing (server : UdpServer) (uninitialized : SockAddr) :
    Except String SockAddr × UdpServer :=
  server.giveTo uninitialized [] (toSizeT (-1))

/-- Without a datagram `recvfrom` fails. -/
theorem receiveOne_failing {server : UdpServer} (hinbox : server.socket.inbox = [])
    (uninitialized : SockAddr) :
    server.receiveOne uninitialized = server.receiveFailing uninitialized := by
  rw [receiveOne, hinbox]
  rfl

/-- `io_udp_server_receive`: null where `receiveOne` throws or returns a null stream. -/
def ioUdpServerReceive (result : Except String SockAddr × UdpServer) :
    Option SockAddr × UdpServer :=
  match result with
  | (.error _, server) => (none, server)
  | (.ok key, server) =>
      if server.clientStreams.lookup key = none then (none, server) else (some key, server)

/-- The call returns a null stream without throwing, and nothing has changed for the clients. -/
structure FailsCleanly (server : UdpServer) (result : Except String SockAddr × UdpServer) :
    Prop where
  null : ∃ key, result.1 = .ok key ∧ result.2.clientStreams.lookup key = none
  registered : ∀ key, key ∈ result.2.clientStreams ↔ key ∈ server.clientStreams
  unread : ∀ key, result.2.unread key = server.unread key

/-! ## What `giveTo` returns and registers -/

/-- A stream that is returned is the one under the key. -/
theorem giveTo_registers (server : UdpServer) (key : SockAddr) (data : List SentByte)
    (size : Nat) (other : SockAddr) :
    other ∈ (server.giveTo key data size).2.clientStreams ↔
      other = key ∨ other ∈ server.clientStreams := by
  rw [giveTo]
  cases ((server.clientStreams.lookup key).getD
      { rdbuf := { addr := key } }).rdbuf.addReceivedData data size with
  | error what => exact Finmap.mem_insert
  | ok buf => exact Finmap.mem_insert

theorem key_of_giveTo {server : UdpServer} {key returned : SockAddr} {data : List SentByte}
    {size : Nat} (hreturns : (server.giveTo key data size).1 = .ok returned) : returned = key := by
  rw [giveTo] at hreturns
  cases hadd : ((server.clientStreams.lookup key).getD
      { rdbuf := { addr := key } }).rdbuf.addReceivedData data size with
  | error what =>
      rw [hadd] at hreturns
      cases hreturns
  | ok buf =>
      rw [hadd] at hreturns
      cases hreturns
      rfl

/-- `receiveOne` has no way to return a null stream. -/
theorem giveTo_not_null (server : UdpServer) (key : SockAddr) (data : List SentByte) (size : Nat) :
    ¬∃ returned, (server.giveTo key data size).1 = .ok returned ∧
      (server.giveTo key data size).2.clientStreams.lookup returned = none := by
  rintro ⟨returned, hreturns, hnull⟩
  have hmem := (giveTo_registers server key data size returned).mpr
    (Or.inl (key_of_giveTo hreturns))
  exact Finmap.lookup_eq_none.mp hnull hmem

/-! ## The size of the vectors -/

/-- Every `gbuffer` is as long as a vector can be. -/
def Allocated (server : UdpServer) : Prop :=
  ∀ key io, server.clientStreams.lookup key = some io →
    io.rdbuf.gbufferSize ≤ UdpStreambuf.maxSize

theorem allocated_bound (refuses : Nat → Bool) : (bound refuses).Allocated :=
  fun _ _ hlookup => nomatch hlookup

theorem Allocated.insert {server : UdpServer} (hallocated : server.Allocated) (socket : UdpSocket)
    (key : SockAddr) {io : IOStream UdpStreambuf}
    (hio : io.rdbuf.gbufferSize ≤ UdpStreambuf.maxSize) :
    Allocated ⟨socket, server.clientStreams.insert key io⟩ := by
  intro other io' hlookup
  rcases lookup_insert_eq_some.mp hlookup with ⟨-, rfl⟩ | ⟨-, hold⟩
  · exact hio
  · exact hallocated other io' hold

/-- The stream that is given what was received, be it new or not. -/
theorem Allocated.stream {server : UdpServer} (hallocated : server.Allocated) (key : SockAddr) :
    ((server.clientStreams.lookup key).getD
      { rdbuf := { addr := key } }).rdbuf.gbufferSize ≤ UdpStreambuf.maxSize := by
  cases hlookup : server.clientStreams.lookup key with
  | none => exact (by decide : (4096 : Nat) ≤ UdpStreambuf.maxSize)
  | some io => exact hallocated key io hlookup

theorem addReceivedData_size {buf buf' : UdpStreambuf} {data : List SentByte} {size : Nat}
    (hbuf : buf.gbufferSize ≤ UdpStreambuf.maxSize)
    (hadd : buf.addReceivedData data size = .ok buf') :
    buf'.gbufferSize ≤ UdpStreambuf.maxSize := by
  unfold UdpStreambuf.addReceivedData UdpStreambuf.resize at hadd
  by_cases hgrow : buf.gbufferSize < size
  · rw [if_pos hgrow] at hadd
    by_cases hmax : UdpStreambuf.maxSize < size
    · rw [if_pos hmax] at hadd
      cases hadd
    · rw [if_neg hmax] at hadd
      cases hadd
      exact Nat.not_lt.mp hmax
  · rw [if_neg hgrow] at hadd
    cases hadd
    exact hbuf

theorem Allocated.giveTo {server : UdpServer} (hallocated : server.Allocated) (key : SockAddr)
    (data : List SentByte) (size : Nat) : (server.giveTo key data size).2.Allocated := by
  have hio := hallocated.stream key
  rw [UdpServer.giveTo]
  cases hadd : ((server.clientStreams.lookup key).getD
      { rdbuf := { addr := key } }).rdbuf.addReceivedData data size with
  | error what => exact hallocated.insert _ key hio
  | ok buf => exact hallocated.insert _ key (addReceivedData_size hio hadd)

/-- A size of `-1` is more than any vector takes. -/
theorem addReceivedData_failing {buf : UdpStreambuf}
    (hbuf : buf.gbufferSize ≤ UdpStreambuf.maxSize) :
    buf.addReceivedData [] (toSizeT (-1)) = .error "vector::_M_default_append" := by
  have hmax : UdpStreambuf.maxSize < toSizeT (-1) := by decide
  have hgrow : buf.gbufferSize < toSizeT (-1) := Nat.lt_of_le_of_lt hbuf hmax
  unfold UdpStreambuf.addReceivedData UdpStreambuf.resize
  rw [if_pos hgrow, if_pos hmax]
  rfl

/-- A failing call throws, and all it leaves is a stream under the residual address. -/
theorem receiveFailing_eq {server : UdpServer} (hallocated : server.Allocated)
    (uninitialized : SockAddr) :
    server.receiveFailing uninitialized = (.error "vector::_M_default_append",
      { server with
        clientStreams := server.clientStreams.insert uninitialized
          ((server.clientStreams.lookup uninitialized).getD
            { rdbuf := { addr := uninitialized } }) }) := by
  rw [receiveFailing, giveTo, addReceivedData_failing (hallocated.stream uninitialized)]

/-- What is unread stays, for the new stream has nothing. -/
theorem unread_receiveFailing {server : UdpServer} (hallocated : server.Allocated)
    (uninitialized key : SockAddr) :
    (server.receiveFailing uninitialized).2.unread key = server.unread key := by
  rw [receiveFailing_eq hallocated]
  by_cases hkey : uninitialized = key
  · subst hkey
    apply (unread_insert _ _).trans
    unfold unread
    cases server.clientStreams.lookup uninitialized with
    | none => rfl
    | some io => rfl
  · exact unread_insert_of_ne _ hkey _

/-! ## Runs -/

theorem gbufferSize_uflow (ch : UdpChannel) :
    ch.uflow.2.buf.gbufferSize = ch.buf.gbufferSize := by
  cases harea : ch.buf.getArea with
  | cons sent rest =>
      rw [UdpChannel.uflow_available harea]
      rfl
  | nil =>
      cases hinbox : ch.socket.inbox with
      | nil => rw [UdpChannel.uflow_nothing harea hinbox]
      | cons datagram rest =>
          cases hreceived : datagram.bytes.take ch.buf.gbufferSize with
          | nil =>
              simp [UdpChannel.uflow, UdpChannel.underflow, harea, hinbox, hreceived,
                UdpChannel.recvfrom]
          | cons sent others =>
              rw [UdpChannel.uflow_refill harea hinbox hreceived]
              rfl

theorem gbufferSize_xsgetn (count : Nat) (ch : UdpChannel) :
    (UdpChannel.xsgetn count ch).2.buf.gbufferSize = ch.buf.gbufferSize := by
  induction count generalizing ch with
  | zero => rfl
  | succ count ih =>
      have huflow := gbufferSize_uflow ch
      rw [UdpChannel.xsgetn]
      rcases hch : ch.uflow with ⟨sent, next⟩
      rw [hch] at huflow
      cases sent with
      | none => exact huflow
      | some sent => exact (ih next).trans huflow

theorem gbufferSize_overflow (ch : UdpChannel) (c : UInt8) :
    (ch.overflow c).2.buf.gbufferSize = ch.buf.gbufferSize := by
  dsimp only [UdpChannel.overflow]
  split <;> rfl

theorem gbufferSize_xsputn (src : List UInt8) (ch : UdpChannel) :
    (UdpChannel.xsputn src ch).2.buf.gbufferSize = ch.buf.gbufferSize :=
  UdpChannel.xsputn_preserves (fun next => next.buf.gbufferSize = ch.buf.gbufferSize)
    (fun next c hnext => (gbufferSize_overflow next c).trans hnext) src rfl

theorem Allocated.onStream {server : UdpServer} (hallocated : server.Allocated) (key : SockAddr)
    {operate : IOStream UdpChannel → IOStream UdpChannel}
    (hkeeps : ∀ io, (operate io).rdbuf.buf.gbufferSize = io.rdbuf.buf.gbufferSize) :
    (server.onStream key operate).Allocated := by
  unfold UdpServer.onStream
  cases hlookup : server.clientStreams.lookup key with
  | none => exact hallocated
  | some io =>
      apply hallocated.insert
      exact (hkeeps _).trans_le (hallocated key io hlookup)

theorem Allocated.perform {server : UdpServer} (hallocated : server.Allocated)
    (event : UdpEvent) : (server.perform event).Allocated := by
  cases event with
  | arrive datagram => exact fun key io hlookup => hallocated key io hlookup
  | receiveOne uninitialized =>
      show (server.receiveOne uninitialized).2.Allocated
      unfold UdpServer.receiveOne
      cases server.socket.inbox with
      | nil => exact hallocated.giveTo _ _ _
      | cons datagram rest =>
          have hserver : Allocated
              { server with socket := { server.socket with inbox := rest } } := hallocated
          exact hserver.giveTo _ _ _
  | read key count =>
      show (server.read key count).2.Allocated
      rw [read_eq]
      apply hallocated.onStream
      intro io
      rw [rdbuf_read]
      split
      · exact gbufferSize_xsgetn _ _
      · rfl
  | write key src =>
      apply hallocated.onStream
      intro io
      rw [rdbuf_write]
      split
      · exact gbufferSize_xsputn _ _
      · rfl
  | flush key =>
      apply hallocated.onStream
      intro io
      rw [rdbuf_flush]
  | clear key => exact hallocated.onStream key fun _ => rfl

/-- In every state a program gets to, a failing call throws. -/
theorem receiveFailing_throws (refuses : Nat → Bool) (events : List UdpEvent)
    (uninitialized : SockAddr) :
    ((events.foldl perform (bound refuses)).receiveFailing uninitialized).1 =
      .error "vector::_M_default_append" := by
  have hallocated : (events.foldl perform (bound refuses)).Allocated :=
    List.foldlRecOn events perform (allocated_bound refuses)
      fun _ hserver event _ => hserver.perform event
  rw [receiveFailing_eq hallocated]

/-- **Failed receives.**  Whatever the state of a server and the residual address are, a call whose
`recvfrom` fails does not return a null stream with everything unchanged. -/
theorem not_failsCleanly (server : UdpServer) (uninitialized : SockAddr) :
    ¬server.FailsCleanly (server.receiveFailing uninitialized) ∧
      (server.socket.inbox = [] → ¬server.FailsCleanly (server.receiveOne uninitialized)) := by
  have hfailing : ¬server.FailsCleanly (server.receiveFailing uninitialized) := fun hclean =>
    giveTo_not_null server uninitialized [] (toSizeT (-1)) hclean.null
  refine ⟨hfailing, fun hinbox => ?_⟩
  rw [receiveOne_failing hinbox]
  exact hfailing

/-- On a new server the call throws and registers a client that has sent nothing; the function of
the C API, which returns null, registers it as well. -/
theorem not_failsCleanly_bound :
    let server := bound fun _ => false
    let result := server.receiveOne ⟨0, 0⟩
    result.1 = .error "vector::_M_default_append" ∧ ⟨0, 0⟩ ∈ result.2.clientStreams ∧
      ⟨0, 0⟩ ∉ server.clientStreams ∧ (ioUdpServerReceive result).1 = none ∧
      ¬server.FailsCleanly result := by
  intro server result
  have hresult : result = server.receiveFailing ⟨0, 0⟩ := receiveOne_failing rfl _
  have hthrows : result.1 = .error "vector::_M_default_append" := by
    rw [hresult, receiveFailing_eq (allocated_bound _)]
  refine ⟨hthrows, ?_, Finmap.notMem_empty, ?_, fun hclean => ?_⟩
  · rw [hresult]
    exact (giveTo_registers server _ _ _ _).mpr (Or.inl rfl)
  · rw [hresult, receiveFailing_eq (allocated_bound _)]
    rfl
  · obtain ⟨key, hreturns, -⟩ := hclean.null
    rw [hthrows] at hreturns
    cases hreturns

end UdpServer
end Iostreams
