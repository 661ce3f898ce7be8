import Iostreams.Foundation.FiniteMap
import Iostreams.Foundation.Run
import Iostreams.Udp.Streambuf

/-!
# Peers of a UDP server

`receiveOne` takes a datagram from the socket and puts it into the stream of its
sender, which it returns.  A program reads from and writes to these streams in any
order, while datagrams of any peers arrive: `UdpEvent`.

`Isolated` says that every stream has delivered what its peer sent and nothing else, and
has sent to its peer only.  It is kept as long as no read refills a stream with the
datagram of another peer.
-/

namespace Iostreams

open Foundation

structure UdpServer where
  socket : UdpSocket
  clientStreams : Finmap fun _ : SockAddr => IOStream UdpStreambuf

namespace UdpServer

/-- A server that nothing has arrived at. -/
def bound (refuses : Nat → Bool) : UdpServer := { socket := { refuses }, clientStreams := ∅ }

/-! ## `receiveOne` -/

/-- The size of the local `buffer`. -/
def receiveSize : Nat := 4096

/-- The end of `receiveOne`: the stream under the key, new if there is none, is given what was
received. -/
def giveTo (server : UdpServer) (key : SockAddr) (data : List SentByte) (size : Nat) :
    Except String SockAddr × UdpServer :=
  let io := (server.clientStreams.lookup key).getD { rdbuf := { addr := key } }
  match io.rdbuf.addReceivedData data size with
  | .error what =>
      (.error what, { server with clientStreams := server.clientStreams.insert key io })
  | .ok buf => (.ok key,
      { server with clientStreams := server.clientStreams.insert key { io with rdbuf := buf } })

/-- `receiveOne`, which returns the stream under a key.  Where `recvfrom` fails, `client_addr`
is not initialized, and its `-1` is the size of what was received. -/
def receiveOne (server : UdpServer) (uninitialized : SockAddr) :
    Except String SockAddr × UdpServer :=
  match server.socket.inbox with
  | [] => server.giveTo uninitialized [] (toSizeT (-1))
  | datagram :: rest =>
      let received := datagram.bytes.take receiveSize
      { server with socket := { server.socket with inbox := rest } }.giveTo datagram.sender
        received received.length

/-! ## Streams -/

/-- A stream together with the socket it shares. -/
def attach (io : IOStream UdpStreambuf) (socket : UdpSocket) : IOStream UdpChannel :=
  { rdbuf := ⟨io.rdbuf, socket⟩
    eofbit := io.eofbit
    failbit := io.failbit
    badbit := io.badbit
    gcount := io.gcount }

def detach (io : IOStream UdpChannel) : IOStream UdpStreambuf :=
  { rdbuf := io.rdbuf.buf
    eofbit := io.eofbit
    failbit := io.failbit
    badbit := io.badbit
    gcount := io.gcount }

/-- The server after an operation on the stream under a key. -/
def setStream (server : UdpServer) (key : SockAddr) (io : IOStream UdpChannel) : UdpServer :=
  { server with
    socket := io.rdbuf.socket
    clientStreams := server.clientStreams.insert key (detach io) }

/-- An operation on the stream under a key, if `receiveOne` has returned it. -/
def onStream (server : UdpServer) (key : SockAddr)
    (operate : IOStream UdpChannel → IOStream UdpChannel) : UdpServer :=
  match server.clientStreams.lookup key with
  | none => server
  | some io => server.setStream key (operate (attach io server.socket))

/-- `stream.read(dest, count)`: the bytes stored at `dest`. -/
def read (server : UdpServer) (key : SockAddr) (count : Int) : List UInt8 × UdpServer :=
  match server.clientStreams.lookup key with
  | none => ([], server)
  | some io =>
      let (bytes, io) := (attach io server.socket).read count
      (bytes, server.setStream key io)

end UdpServer

/-- What happens at a server. -/
inductive UdpEvent where
  | arrive (datagram : Datagram)
  | receiveOne (uninitialized : SockAddr)
  | read (key : SockAddr) (count : Int)
  | write (key : SockAddr) (src : List UInt8)
  | flush (key : SockAddr)
  | clear (key : SockAddr)

namespace UdpServer

def perform (server : UdpServer) : UdpEvent → UdpServer
  | .arrive datagram =>
      { server with socket := { server.socket with inbox := server.socket.inbox ++ [datagram] } }
  | .receiveOne uninitialized => (server.receiveOne uninitialized).2
  | .read key count => (server.read key count).2
  | .write key src => server.onStream key fun io => io.write src
  | .flush key => server.onStream key IOStream.flush
  | .clear key => server.onStream key IOStream.clear

/-- Every stream has delivered bytes of its peer only, and has sent to its peer only. -/
def Isolated (server : UdpServer) : Prop :=
  ∀ key io, server.clientStreams.lookup key = some io →
    (∀ sent ∈ io.rdbuf.delivered, sent.sender = key) ∧ ∀ output ∈ io.rdbuf.sent, output.1 = key

/-- The invariant behind it. -/
def StreamsOwned (server : UdpServer) : Prop :=
  ∀ key io, server.clientStreams.lookup key = some io → io.rdbuf.Owned key

theorem StreamsOwned.isolated {server : UdpServer} (howned : server.StreamsOwned) :
    server.Isolated :=
  fun key io hlookup => ⟨(howned key io hlookup).delivered, (howned key io hlookup).sent⟩

/-- The datagrams a read takes from the socket are from the peer of its stream: it takes none
while bytes are left from the last, nor on a stream that is not good. -/
def RefillsOwn (server : UdpServer) : UdpEvent → Prop
  | .read key count => ∀ io, server.clientStreams.lookup key = some io → io.good = true →
      RefillsFrom key io.rdbuf.gbufferSize server.socket.inbox
        (count.toNat - io.rdbuf.getArea.length)
  | _ => True

/-! ## Steps -/

theorem streamsOwned_insert {server : UdpServer} (howned : server.StreamsOwned) (socket : UdpSocket)
    {key : SockAddr} {io : IOStream UdpStreambuf} :
    StreamsOwned ⟨socket, server.clientStreams.insert key io⟩ ↔ io.rdbuf.Owned key := by
  constructor
  · intro hnext
    exact hnext key io (Finmap.lookup_insert _)
  · intro hio other io' hlookup
    rcases lookup_insert_eq_some.mp hlookup with ⟨rfl, rfl⟩ | ⟨-, hold⟩
    · exact hio
    · exact howned other io' hold

/-- What a datagram is put into stays with its sender. -/
theorem giveTo_owned {server : UdpServer} (howned : server.StreamsOwned) {key : SockAddr}
    {data : List SentByte} (hdata : ∀ sent ∈ data, sent.sender = key) (size : Nat) :
    (server.giveTo key data size).2.StreamsOwned := by
  have hio : ((server.clientStreams.lookup key).getD
      { rdbuf := { addr := key } }).rdbuf.Owned key := by
    cases hlookup : server.clientStreams.lookup key with
    | none => exact ⟨rfl, Nat.succ_pos 4095, by simp, by simp, by simp⟩
    | some io => exact howned key io hlookup
  rw [giveTo]
  cases hadd : ((server.clientStreams.lookup key).getD
      { rdbuf := { addr := key } }).rdbuf.addReceivedData data size with
  | error what => exact (streamsOwned_insert howned _).mpr hio
  | ok buf => exact (streamsOwned_insert howned _).mpr (hio.addReceivedData hdata hadd)

theorem receiveOne_owned {server : UdpServer} (howned : server.StreamsOwned)
    (uninitialized : SockAddr) : (server.receiveOne uninitialized).2.StreamsOwned := by
  unfold receiveOne
  cases server.socket.inbox with
  | nil => exact giveTo_owned howned (by simp) _
  | cons datagram rest =>
      have hserver : StreamsOwned
          { server with socket := { server.socket with inbox := rest } } := howned
      exact giveTo_owned hserver
        (fun sent hsent => Datagram.sender_of_mem (List.mem_of_mem_take hsent)) _

/-- An operation on one stream keeps all with their peers exactly if it keeps that one. -/
theorem onStream_owned_iff {server : UdpServer} (howned : server.StreamsOwned) (key : SockAddr)
    (operate : IOStream UdpChannel → IOStream UdpChannel) :
    (server.onStream key operate).StreamsOwned ↔
      ∀ io, server.clientStreams.lookup key = some io →
        (operate (attach io server.socket)).rdbuf.buf.Owned key := by
  unfold onStream
  cases hlookup : server.clientStreams.lookup key with
  | none => exact iff_of_true howned fun io hio => nomatch hio
  | some io =>
      refine (streamsOwned_insert howned _).trans ⟨fun hnext io' hio => ?_, fun hnext => ?_⟩
      · cases hio
        exact hnext
      · exact hnext io rfl

theorem read_eq (server : UdpServer) (key : SockAddr) (count : Int) :
    (server.read key count).2 = server.onStream key fun io => (io.read count).2 := by
  rw [read, onStream]
  cases server.clientStreams.lookup key with
  | none => rfl
  | some io => rfl

theorem rdbuf_read (io : IOStream UdpChannel) (count : Int) :
    (io.read count).2.rdbuf =
      if io.good then (UdpChannel.xsgetn count.toNat io.rdbuf).2 else io.rdbuf := by
  unfold IOStream.read
  by_cases hgood : io.good = true
  · simp only [hgood, if_true, Streambuf.sgetn]
    split <;> rfl
  · simp only [hgood, Bool.false_eq_true, if_false]

theorem read_owned_iff {server : UdpServer} (howned : server.StreamsOwned) (key : SockAddr)
    (count : Int) :
    (server.read key count).2.StreamsOwned ↔ server.RefillsOwn (.read key count) := by
  rw [read_eq, onStream_owned_iff howned]
  apply forall₂_congr
  intro io hlookup
  have hio : (attach io server.socket).rdbuf.buf.Owned key := howned key io hlookup
  have hflags : (attach io server.socket).good = io.good := rfl
  rw [rdbuf_read, hflags]
  by_cases hgood : io.good = true
  · rw [if_pos hgood, UdpChannel.xsgetn_owned_iff hio]
    exact ⟨fun hrefills _ => hrefills, fun hrefills => hrefills hgood⟩
  · rw [if_neg hgood]
    exact iff_of_true hio fun htrue => absurd htrue hgood

theorem rdbuf_write (io : IOStream UdpChannel) (src : List UInt8) :
    (io.write src).rdbuf = if io.good then (UdpChannel.xsputn src io.rdbuf).2 else io.rdbuf := by
  unfold IOStream.write
  by_cases hgood : io.good = true
  · simp only [hgood, if_true, Streambuf.sputn]
    split <;> rfl
  · simp only [hgood, Bool.false_eq_true, if_false]

theorem rdbuf_flush (io : IOStream UdpChannel) : io.flush.rdbuf = io.rdbuf := by
  unfold IOStream.flush
  by_cases hgood : io.good = true
  · simp only [hgood, if_true, Streambuf.sync]
  · simp only [hgood, Bool.false_eq_true, if_false]

/-- One event keeps every stream with its peer exactly if it refills none from another. -/
theorem perform_owned_iff {server : UdpServer} (howned : server.StreamsOwned) (event : UdpEvent) :
    (server.perform event).StreamsOwned ↔ server.RefillsOwn event := by
  cases event with
  | arrive datagram => exact iff_of_true (fun key io hlookup => howned key io hlookup) trivial
  | receiveOne uninitialized => exact iff_of_true (receiveOne_owned howned uninitialized) trivial
  | read key count => exact read_owned_iff howned key count
  | write key src =>
      refine iff_of_true ((onStream_owned_iff howned key _).mpr fun io hlookup => ?_) trivial
      rw [rdbuf_write]
      split
      · exact UdpChannel.xsputn_owned (howned key io hlookup) src
      · exact howned key io hlookup
  | flush key =>
      refine iff_of_true ((onStream_owned_iff howned key _).mpr fun io hlookup => ?_) trivial
      rw [rdbuf_flush]
      exact howned key io hlookup
  | clear key =>
      exact iff_of_true ((onStream_owned_iff howned key _).mpr fun io hlookup =>
        howned key io hlookup) trivial

/-! ## Runs -/

/-- The bytes a read returns are those its stream notes as delivered. -/
theorem delivered_read {server : UdpServer} {key : SockAddr} {io : IOStream UdpStreambuf}
    (hlookup : server.clientStreams.lookup key = some io) (count : Int) :
    ∃ io', (server.read key count).2.clientStreams.lookup key = some io' ∧
      io'.rdbuf.delivered.map SentByte.byte =
        io.rdbuf.delivered.map SentByte.byte ++ (server.read key count).1 := by
  have hread : server.read key count = (((attach io server.socket).read count).1,
      server.setStream key ((attach io server.socket).read count).2) := by
    rw [read, hlookup]
  refine ⟨_, by rw [hread]; exact Finmap.lookup_insert _, ?_⟩
  rw [hread]
  show ((attach io server.socket).read count).2.rdbuf.buf.delivered.map SentByte.byte = _
  rw [rdbuf_read]
  by_cases hgood : io.good = true
  · have hflags : (attach io server.socket).good = true := hgood
    rw [if_pos hflags, UdpChannel.delivered_xsgetn, List.map_append, IOStream.read, if_pos hflags]
    simp only [Streambuf.sgetn]
    split <;> rfl
  · have hflags : ¬(attach io server.socket).good = true := hgood
    rw [if_neg hflags, IOStream.read, if_neg hflags, List.append_nil]
    rfl

/-- **Isolation of peers.**  In every run whose reads refill a stream with datagrams of its own
peer only, every stream has delivered what its peer sent and nothing else, and has sent to its
peer only. -/
theorem peers_isolated (refuses : Nat → Bool) (events : List UdpEvent)
    (hevents : EachAllowed perform RefillsOwn (bound refuses) events) :
    (events.foldl perform (bound refuses)).Isolated := by
  have hstart : (bound refuses).StreamsOwned := fun key io hlookup => nomatch hlookup
  exact (hevents.preserves StreamsOwned
    (fun server event howned hrefills => (perform_owned_iff howned event).mpr hrefills)
    hstart).isolated

/-- Two peers; the first is answered before anything else of the second arrives. -/
theorem peers_isolated_sample :
    ([.arrive ⟨⟨1, 10⟩, [97]⟩, .receiveOne ⟨0, 0⟩, .read ⟨1, 10⟩ 1, .write ⟨1, 10⟩ [98],
      .arrive ⟨⟨2, 20⟩, [99]⟩].foldl perform (bound fun _ => false)).Isolated := by
  refine peers_isolated _ _ ⟨trivial, trivial, ?_, trivial, trivial, trivial⟩
  intro io hlookup _
  cases hlookup
  exact refillsFrom_zero _ _ _

/-- A read of two bytes takes the second from another peer, and the answer goes there. -/
theorem not_peers_isolated :
    ¬([.arrive ⟨⟨1, 10⟩, [97]⟩, .receiveOne ⟨0, 0⟩, .arrive ⟨⟨2, 20⟩, [98]⟩,
      .read ⟨1, 10⟩ 2, .write ⟨1, 10⟩ [99]].foldl perform (bound fun _ => false)).Isolated := by
  intro hisolated
  obtain ⟨hdelivered, -⟩ := hisolated ⟨1, 10⟩ _ rfl
  exact absurd (hdelivered ⟨98, ⟨2, 20⟩⟩ (by decide)) (by decide)

end UdpServer
end Iostreams
