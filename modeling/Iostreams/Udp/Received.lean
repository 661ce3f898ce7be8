import Iostreams.Udp.Server

/-!
# What a UDP server receives

`receiveOne` gives a datagram to the stream of its sender with `add_received_data`,
which copies it to the start of `gbuffer` and sets the get area to it.  Bytes that
the program has not read yet are gone, and so are those behind the 4096 that the
local buffer of `receiveOne` takes.

`UdpLog` runs a server and notes, for one peer, the bytes of the datagrams that were
received and the bytes that were read.
-/

namespace Iostreams

open Foundation

structure UdpLog where
  server : UdpServer
  received : List UInt8 := []
  read : List UInt8 := []

namespace UdpServer

/-- The bytes in the get area of the stream under a key, if there is one. -/
def unread (server : UdpServer) (key : SockAddr) : List UInt8 :=
  match server.clientStreams.lookup key with
  | none => []
  | some io => io.rdbuf.getArea.map SentByte.byte

/-- The data of the datagram that an event receives from a peer. -/
def receivedFrom (server : UdpServer) (key : SockAddr) : UdpEvent → List UInt8
  | .receiveOne _ =>
      match server.socket.inbox with
      | [] => []
      | datagram :: _ => if datagram.sender = key then datagram.data else []
  | _ => []

/-- The bytes that an event reads from the stream of a peer. -/
def readFrom (server : UdpServer) (key : SockAddr) : UdpEvent → List UInt8
  | .read other count => if other = key then (server.read key count).1 else []
  | _ => []

/-- A datagram is there to be received, and a read asks the stream of the peer for no more than
is unread. -/
def AsksPresent (server : UdpServer) (key : SockAddr) : UdpEvent → Prop
  | .receiveOne _ => server.socket.inbox ≠ []
  | .read other count => other = key → count ≤ (server.unread key).length
  | _ => True

/-- A datagram of the peer is received where its stream is drained, and the local buffer takes
all of it. -/
def ReceivesDrained (server : UdpServer) (key : SockAddr) : UdpEvent → Prop
  | .receiveOne _ =>
      match server.socket.inbox with
      | [] => True
      | datagram :: _ => datagram.sender = key →
          server.unread key = [] ∧ datagram.data.length ≤ receiveSize
  | _ => True

end UdpServer

namespace UdpLog

def perform (key : SockAddr) (log : UdpLog) (event : UdpEvent) : UdpLog where
  server := log.server.perform event
  received := log.received ++ log.server.receivedFrom key event
  read := log.read ++ log.server.readFrom key event

/-- What was received from the peer was read or can be read. -/
def Complete (key : SockAddr) (log : UdpLog) : Prop :=
  log.read ++ log.server.unread key = log.received

end UdpLog

/-! ## Streams -/

namespace UdpChannel

/-- A request for what is there takes it from the get area. -/
theorem xsgetn_of_le {count : Nat} {ch : UdpChannel} (hle : count ≤ ch.buf.getArea.length) :
    (xsgetn count ch).1 = ch.buf.getArea.take count ∧
      (xsgetn count ch).2.buf.getArea = ch.buf.getArea.drop count := by
  induction count generalizing ch with
  | zero => exact ⟨rfl, rfl⟩
  | succ count ih =>
      cases harea : ch.buf.getArea with
      | nil =>
          rw [harea] at hle
          exact absurd hle (Nat.not_succ_le_zero count)
      | cons sent rest =>
          rw [harea, List.length_cons, Nat.succ_le_succ_iff] at hle
          rcases @ih (ch.deliver sent rest) hle with ⟨htaken, hleft⟩
          simp only [xsgetn, uflow_available harea, List.take_succ_cons, List.drop_succ_cons]
          exact ⟨congrArg (List.cons sent) htaken, hleft⟩

theorem getArea_overflow (ch : UdpChannel) (c : UInt8) :
    (ch.overflow c).2.buf.getArea = ch.buf.getArea := by
  dsimp only [overflow]
  split <;> rfl

theorem getArea_xsputn (src : List UInt8) (ch : UdpChannel) :
    (xsputn src ch).2.buf.getArea = ch.buf.getArea :=
  xsputn_preserves (fun next => next.buf.getArea = ch.buf.getArea)
    (fun next c hnext => (getArea_overflow next c).trans hnext) src rfl

end UdpChannel

namespace UdpServer

variable {server : UdpServer} {key : SockAddr}

theorem unread_of_lookup {io : IOStream UdpStreambuf}
    (hlookup : server.clientStreams.lookup key = some io) :
    server.unread key = io.rdbuf.getArea.map SentByte.byte := by
  rw [unread, hlookup]

theorem unread_insert (socket : UdpSocket) (io : IOStream UdpStreambuf) :
    UdpServer.unread ⟨socket, server.clientStreams.insert key io⟩ key =
      io.rdbuf.getArea.map SentByte.byte := by
  unfold unread
  rw [Finmap.lookup_insert]

theorem unread_insert_of_ne (socket : UdpSocket) {other : SockAddr} (hne : other ≠ key)
    (io : IOStream UdpStreambuf) :
    UdpServer.unread ⟨socket, server.clientStreams.insert other io⟩ key = server.unread key := by
  unfold unread
  rw [Finmap.lookup_insert_of_ne _ (Ne.symm hne)]

/-- An operation that keeps the get area of its stream keeps what is unread. -/
theorem unread_onStream (other : SockAddr) {operate : IOStream UdpChannel → IOStream UdpChannel}
    (hkeeps : ∀ io, (operate io).rdbuf.buf.getArea = io.rdbuf.buf.getArea) :
    (server.onStream other operate).unread key = server.unread key := by
  unfold onStream
  cases hlookup : server.clientStreams.lookup other with
  | none => rfl
  | some io =>
      by_cases hkey : other = key
      · subst hkey
        rw [unread_of_lookup hlookup]
        exact (unread_insert _ _).trans (congrArg _ (hkeeps _))
      · exact unread_insert_of_ne _ hkey _

/-- An operation on another stream keeps what is unread. -/
theorem unread_onStream_of_ne {other : SockAddr} (hne : other ≠ key)
    (operate : IOStream UdpChannel → IOStream UdpChannel) :
    (server.onStream other operate).unread key = server.unread key := by
  unfold onStream
  cases server.clientStreams.lookup other with
  | none => rfl
  | some io => exact unread_insert_of_ne _ hne _

/-- A read that asks for no more than is unread returns its beginning and leaves the rest. -/
theorem read_append_unread {count : Int} (hcount : count ≤ (server.unread key).length) :
    (server.read key count).1 ++ (server.read key count).2.unread key = server.unread key := by
  unfold read
  cases hlookup : server.clientStreams.lookup key with
  | none => rfl
  | some io =>
      rw [unread_of_lookup hlookup, List.length_map] at hcount
      have hstream : (server.setStream key ((attach io server.socket).read count).2).unread key =
          ((attach io server.socket).read count).2.rdbuf.buf.getArea.map SentByte.byte :=
        unread_insert _ _
      show ((attach io server.socket).read count).1 ++ _ = _
      rw [hstream, rdbuf_read, unread_of_lookup hlookup]
      by_cases hgood : (attach io server.socket).good = true
      · have hle : count.toNat ≤ (attach io server.socket).rdbuf.buf.getArea.length := by
          show count.toNat ≤ io.rdbuf.getArea.length
          omega
        rcases UdpChannel.xsgetn_of_le hle with ⟨htaken, hleft⟩
        have hbytes : ((attach io server.socket).read count).1 =
            (UdpChannel.xsgetn count.toNat (attach io server.socket).rdbuf).1.map
              SentByte.byte := by
          rw [IOStream.read, if_pos hgood]
          simp only [Streambuf.sgetn]
          split <;> rfl
        rw [if_pos hgood, hbytes, htaken, hleft, ← List.map_append, List.take_append_drop]
        rfl
      · -- a stream in an error state transfers nothing
        rw [if_neg hgood, IOStream.read, if_neg hgood]
        rfl

/-- What fits the local buffer of `receiveOne` is given to a stream without an error. -/
theorem addReceivedData_eq (buf : UdpStreambuf) {data : List SentByte}
    (hsize : data.length ≤ receiveSize) :
    ∃ buf', buf.addReceivedData data data.length = .ok buf' ∧ buf'.getArea = data := by
  have hmax : ¬UdpStreambuf.maxSize < data.length := by
    have hlt : receiveSize < UdpStreambuf.maxSize := by decide
    omega
  unfold UdpStreambuf.addReceivedData UdpStreambuf.resize
  rw [if_neg hmax]
  split
  · exact ⟨_, rfl, List.take_length⟩
  · exact ⟨_, rfl, List.take_length⟩

/-- What `receiveOne` gives to a stream takes the place of what was unread there. -/
theorem unread_giveTo {data : List SentByte} (hsize : data.length ≤ receiveSize) :
    (server.giveTo key data data.length).2.unread key = data.map SentByte.byte := by
  obtain ⟨buf, hadd, harea⟩ := addReceivedData_eq
    ((server.clientStreams.lookup key).getD { rdbuf := { addr := key } }).rdbuf hsize
  rw [giveTo, hadd]
  apply (unread_insert _ _).trans
  rw [harea]

theorem unread_giveTo_of_ne {other : SockAddr} (hne : other ≠ key) (data : List SentByte)
    (size : Nat) : (server.giveTo other data size).2.unread key = server.unread key := by
  rw [giveTo]
  cases ((server.clientStreams.lookup other).getD
      { rdbuf := { addr := other } }).rdbuf.addReceivedData data size with
  | error what => exact unread_insert_of_ne _ hne _
  | ok buf => exact unread_insert_of_ne _ hne _

/-- What is unread after a datagram was received. -/
theorem unread_receiveOne {datagram : Datagram} {rest : List Datagram}
    (hinbox : server.socket.inbox = datagram :: rest) (uninitialized : SockAddr) :
    (server.receiveOne uninitialized).2.unread key =
      if datagram.sender = key then datagram.data.take receiveSize else server.unread key := by
  unfold receiveOne
  rw [hinbox]
  by_cases hsender : datagram.sender = key
  · have hsize : (datagram.bytes.take receiveSize).length ≤ receiveSize := by
      rw [List.length_take]
      exact Nat.min_le_left _ _
    have hdata : (datagram.bytes.take receiveSize).map SentByte.byte =
        datagram.data.take receiveSize := by
      rw [Datagram.bytes, List.map_take, List.map_map]
      exact congrArg _ (List.map_id _)
    rw [if_pos hsender, ← hdata, ← hsender]
    exact unread_giveTo hsize
  · rw [if_neg hsender]
    exact unread_giveTo_of_ne hsender _ _

end UdpServer

/-! ## Runs -/

namespace UdpLog

variable {log : UdpLog} {key : SockAddr}

/-- What is left of what was there, before what was received whole. -/
theorem append_take_eq_iff (left data : List UInt8) (size : Nat) :
    data.take size = left ++ data ↔ left = [] ∧ data.length ≤ size := by
  constructor
  · intro heq
    have hlength := congrArg List.length heq
    rw [List.length_take, List.length_append] at hlength
    exact ⟨List.length_eq_zero_iff.mp (by omega), by omega⟩
  · rintro ⟨rfl, hle⟩
    exact List.take_of_length_le hle

/-- An event that neither receives from the peer nor reads keeps the log complete. -/
theorem Complete.of_quiet (hcomplete : log.Complete key) {event : UdpEvent}
    (hreceived : log.server.receivedFrom key event = [])
    (hread : log.server.readFrom key event = [])
    (hunread : (log.server.perform event).unread key = log.server.unread key) :
    (log.perform key event).Complete key := by
  unfold Complete perform
  rw [hreceived, hread, hunread, List.append_nil, List.append_nil]
  exact hcomplete

/-- A datagram takes the place of what is unread, so that nothing may be. -/
theorem receiveOne_complete_iff (hcomplete : log.Complete key) {uninitialized : SockAddr}
    (hinbox : log.server.socket.inbox ≠ []) :
    (log.perform key (.receiveOne uninitialized)).Complete key ↔
      log.server.ReceivesDrained key (.receiveOne uninitialized) := by
  rcases List.exists_cons_of_ne_nil hinbox with ⟨datagram, rest, hcons⟩
  have hstart : log.read ++ log.server.unread key = log.received := hcomplete
  have hunread := @UdpServer.unread_receiveOne _ key _ _ hcons uninitialized
  by_cases hsender : datagram.sender = key
  · rw [if_pos hsender] at hunread
    have hreceived : log.server.receivedFrom key (.receiveOne uninitialized) =
        datagram.data := by
      rw [UdpServer.receivedFrom, hcons]
      exact if_pos hsender
    have hdrained : log.server.ReceivesDrained key (.receiveOne uninitialized) ↔
        log.server.unread key = [] ∧ datagram.data.length ≤ UdpServer.receiveSize := by
      rw [UdpServer.ReceivesDrained, hcons]
      exact ⟨fun hdrained => hdrained hsender, fun hdrained _ => hdrained⟩
    have hread : log.server.readFrom key (.receiveOne uninitialized) = [] := rfl
    -- what is unread afterwards is the datagram, of what was unread nothing
    rw [hdrained, ← append_take_eq_iff, ← hunread]
    unfold Complete perform
    rw [hreceived, hread, ← hstart, List.append_nil, List.append_assoc,
      List.append_cancel_left_eq]
    exact Iff.rfl
  · -- the datagram is for another stream
    rw [if_neg hsender] at hunread
    have hreceived : log.server.receivedFrom key (.receiveOne uninitialized) = [] := by
      rw [UdpServer.receivedFrom, hcons]
      exact if_neg hsender
    have hdrained : log.server.ReceivesDrained key (.receiveOne uninitialized) := by
      rw [UdpServer.ReceivesDrained, hcons]
      exact fun hother => absurd hother hsender
    exact iff_of_true (hcomplete.of_quiet hreceived rfl hunread) hdrained

/-- A read that asks for what is unread moves bytes from what is unread to what was read. -/
theorem Complete.read (hcomplete : log.Complete key) {other : SockAddr} {count : Int}
    (hasks : log.server.AsksPresent key (.read other count)) :
    (log.perform key (.read other count)).Complete key := by
  have hstart : log.read ++ log.server.unread key = log.received := hcomplete
  by_cases hkey : other = key
  · subst hkey
    have hread := UdpServer.read_append_unread (hasks rfl)
    show (log.read ++ if other = other then _ else _) ++ _ = log.received ++ []
    rw [if_pos rfl, List.append_assoc, List.append_nil, ← hstart]
    exact congrArg (log.read ++ ·) hread
  · have hread : log.server.readFrom key (.read other count) = [] := if_neg hkey
    apply hcomplete.of_quiet rfl hread
    show (log.server.read other count).2.unread key = _
    rw [UdpServer.read_eq]
    exact UdpServer.unread_onStream_of_ne hkey _

/-- An event keeps the log complete exactly if it receives where the stream is drained. -/
theorem perform_complete_iff (hcomplete : log.Complete key) {event : UdpEvent}
    (hasks : log.server.AsksPresent key event) :
    (log.perform key event).Complete key ↔ log.server.ReceivesDrained key event := by
  cases event with
  | arrive datagram => exact iff_of_true (hcomplete.of_quiet rfl rfl rfl) trivial
  | receiveOne uninitialized => exact receiveOne_complete_iff hcomplete hasks
  | read other count => exact iff_of_true (hcomplete.read hasks) trivial
  | write other src =>
      have hunread : (log.server.perform (.write other src)).unread key =
          log.server.unread key := by
        apply UdpServer.unread_onStream other
        intro io
        rw [UdpServer.rdbuf_write]
        split
        · exact UdpChannel.getArea_xsputn src io.rdbuf
        · rfl
      exact iff_of_true (hcomplete.of_quiet rfl rfl hunread) trivial
  | flush other =>
      have hunread : (log.server.perform (.flush other)).unread key = log.server.unread key := by
        apply UdpServer.unread_onStream other
        intro io
        rw [UdpServer.rdbuf_flush]
      exact iff_of_true (hcomplete.of_quiet rfl rfl hunread) trivial
  | clear other =>
      have hunread : (log.server.perform (.clear other)).unread key = log.server.unread key :=
        UdpServer.unread_onStream other fun _ => rfl
      exact iff_of_true (hcomplete.of_quiet rfl rfl hunread) trivial

/-- **Nothing received is lost.**  In a run whose reads ask for no more than is unread, what was
read from a peer and can still be read is at every moment what the peer sent, exactly if every
datagram of the peer is received where its stream is drained, and is of at most 4096 bytes. -/
theorem complete_iff (refuses : Nat → Bool) (key : SockAddr) (events : List UdpEvent)
    (hasks : EachAllowed (perform key) (fun log => log.server.AsksPresent key)
      { server := .bound refuses } events) :
    Throughout (perform key) (Complete key) { server := .bound refuses } events ↔
      EachAllowed (perform key) (fun log => log.server.ReceivesDrained key)
        { server := .bound refuses } events := by
  have hstart : Complete key { server := .bound refuses } := rfl
  exact throughout_iff_within (fun _ => True) (fun _ _ _ => trivial)
    (fun log event _ hcomplete hasks => perform_complete_iff hcomplete hasks) hasks trivial hstart

/-- Two datagrams, the second received when the first was read. -/
theorem complete_sample :
    Throughout (perform ⟨1, 10⟩) (Complete ⟨1, 10⟩) { server := .bound fun _ => false }
      [.arrive ⟨⟨1, 10⟩, [97]⟩, .arrive ⟨⟨1, 10⟩, [98]⟩, .receiveOne ⟨0, 0⟩, .read ⟨1, 10⟩ 1,
        .receiveOne ⟨0, 0⟩] := by
  apply (complete_iff _ _ _ ?_).mpr
  · refine ⟨trivial, trivial, fun _ => ?_, trivial, fun _ => ?_, trivial⟩
    · decide
    · decide
  · refine ⟨trivial, trivial, nofun, fun _ => ?_, nofun, trivial⟩
    decide

/-- The first of two datagrams is lost when the second is received before it was read. -/
theorem not_complete :
    let final := [.arrive ⟨⟨1, 10⟩, [97]⟩, .arrive ⟨⟨1, 10⟩, [98]⟩, .receiveOne ⟨0, 0⟩,
      .receiveOne ⟨0, 0⟩].foldl (perform ⟨1, 10⟩) { server := .bound fun _ => false }
    final.received = [97, 98] ∧ final.read = [] ∧ final.server.unread ⟨1, 10⟩ = [98] ∧
      ¬Complete ⟨1, 10⟩ final := by
  unfold Complete
  decide

end UdpLog
end Iostreams
