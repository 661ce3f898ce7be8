import Iostreams.Udp.FailedReceive

/-!
# What goes through a UDP stream

`through` is what a stream has delivered, what it holds and what waits for it at the socket.
Reading and writing keep it: each character is sent alone, so that a datagram that refills a get
area fits.  Only `receiveOne` takes something away, what is unread in the stream it gives a
datagram to.
-/

namespace Iostreams

open Foundation

/-! ## What goes through a channel -/

/-- The bytes of a peer that wait at a socket. -/
def waitingFrom (key : SockAddr) (inbox : List Datagram) : List UInt8 :=
  inbox.flatMap fun datagram => if datagram.sender = key then datagram.data else []

theorem waitingFrom_cons (key : SockAddr) (datagram : Datagram) (rest : List Datagram) :
    waitingFrom key (datagram :: rest) =
      (if datagram.sender = key then datagram.data else []) ++ waitingFrom key rest := rfl

theorem waitingFrom_concat (key : SockAddr) (inbox : List Datagram) (datagram : Datagram) :
    waitingFrom key (inbox ++ [datagram]) =
      waitingFrom key inbox ++ if datagram.sender = key then datagram.data else [] := by
  simp [waitingFrom]

/-- What a stream has delivered or still holds. -/
def UdpStreambuf.taken (buf : UdpStreambuf) : List UInt8 :=
  (buf.delivered ++ buf.getArea).map SentByte.byte

/-- Every datagram at the socket is one byte, as each character is sent alone. -/
def UdpSocket.SingleBytes (socket : UdpSocket) : Prop :=
  ∀ datagram ∈ socket.inbox, datagram.data.length = 1

namespace UdpChannel

/-- The bytes of a peer that were delivered, can be read or wait at the socket. -/
def through (ch : UdpChannel) (key : SockAddr) : List UInt8 :=
  ch.buf.taken ++ waitingFrom key ch.socket.inbox

/-- The second channel is the first after something was read from its peer or written. -/
structure Operates (key : SockAddr) (ch next : UdpChannel) : Prop where
  through_eq : next.through key = ch.through key
  waiting_eq : ∀ other, other ≠ key →
    waitingFrom other next.socket.inbox = waitingFrom other ch.socket.inbox
  inbox : next.socket.inbox <:+ ch.socket.inbox
  sent : ch.buf.sent <+: next.buf.sent

variable {ch next : UdpChannel} {key : SockAddr}

theorem Operates.refl (key : SockAddr) (ch : UdpChannel) : Operates key ch ch :=
  ⟨rfl, fun _ _ => rfl, List.suffix_rfl, List.prefix_rfl⟩

theorem Operates.trans {last : UdpChannel} (hfirst : Operates key ch next)
    (hrest : Operates key next last) : Operates key ch last where
  through_eq := hrest.through_eq.trans hfirst.through_eq
  waiting_eq other hne := (hrest.waiting_eq other hne).trans (hfirst.waiting_eq other hne)
  inbox := hrest.inbox.trans hfirst.inbox
  sent := hfirst.sent.trans hrest.sent

theorem Operates.singleBytes (hoperates : Operates key ch next)
    (hsingle : ch.socket.SingleBytes) : next.socket.SingleBytes :=
  fun datagram hmem => hsingle datagram (hoperates.inbox.mem hmem)

/-! ### Input -/

theorem operates_deliver {sent : SentByte} {rest : List SentByte}
    (harea : ch.buf.getArea = sent :: rest) (key : SockAddr) :
    Operates key ch (ch.deliver sent rest) where
  through_eq := by
    simp only [through, UdpStreambuf.taken, deliver, harea, List.append_assoc,
      List.singleton_append]
  waiting_eq _ _ := rfl
  inbox := List.suffix_rfl
  sent := List.prefix_rfl

/-- A datagram of the peer refills an empty get area, which holds its one byte. -/
theorem operates_refill {datagram : Datagram} {rest : List Datagram} {c : UInt8}
    (harea : ch.buf.getArea = []) (hinbox : ch.socket.inbox = datagram :: rest)
    (hsender : datagram.sender = key) (hdata : datagram.data = [c]) :
    Operates key ch ((ch.recvfrom datagram rest).deliver ⟨c, key⟩ []) where
  through_eq := by
    simp [through, UdpStreambuf.taken, deliver, recvfrom, harea, hinbox, waitingFrom_cons,
      hsender, hdata]
  waiting_eq other hne := by
    have hother : ¬datagram.sender = other := fun hsame => hne (hsame.symm.trans hsender)
    rw [hinbox, waitingFrom_cons, if_neg hother]
    rfl
  inbox := by
    rw [hinbox]
    exact List.suffix_cons datagram rest
  sent := List.prefix_rfl

/-- A request that refills the buffer with datagrams of its peer only. -/
theorem operates_xsgetn (count : Nat) {ch : UdpChannel} (howned : ch.buf.Owned key)
    (hsingle : ch.socket.SingleBytes)
    (hrefills : RefillsFrom key ch.buf.gbufferSize ch.socket.inbox
      (count - ch.buf.getArea.length)) : Operates key ch (xsgetn count ch).2 := by
  induction count generalizing ch with
  | zero => exact Operates.refl key ch
  | succ count ih =>
      cases harea : ch.buf.getArea with
      | cons sent rest =>
          -- a byte of the get area
          have hfirst := operates_deliver harea key
          have howned' : (ch.deliver sent rest).buf.Owned key :=
            Owned.deliver howned fun c hc => howned.getArea c (harea ▸ hc)
          have hneed : count + 1 - ch.buf.getArea.length = count - rest.length := by
            rw [harea, List.length_cons]
            omega
          rw [hneed] at hrefills
          simp only [xsgetn, uflow_available harea]
          exact hfirst.trans (ih howned' (hfirst.singleBytes hsingle) hrefills)
      | nil =>
          cases hinbox : ch.socket.inbox with
          | nil =>
              simp only [xsgetn, uflow_nothing harea hinbox]
              exact Operates.refl key ch
          | cons datagram rest =>
              -- the get area is empty, and the next datagram, of the peer, refills it
              obtain ⟨c, hdata⟩ := List.length_eq_one_iff.mp
                (hsingle datagram (hinbox ▸ List.mem_cons_self))
              rw [hinbox, harea, List.length_nil, Nat.sub_zero] at hrefills
              obtain ⟨hsender, hnone | hrest⟩ := hrefills.resolve_left (Nat.succ_ne_zero count)
              · exact absurd (hdata.symm.trans hnone) (List.cons_ne_nil c [])
              · have hsize := howned.size_pos
                have hreceived : datagram.bytes.take ch.buf.gbufferSize = [⟨c, key⟩] := by
                  rw [Datagram.bytes, hdata, hsender]
                  exact List.take_of_length_le hsize
                have hfirst := operates_refill harea hinbox hsender hdata
                have howned' : ((ch.recvfrom datagram rest).deliver ⟨c, key⟩ []).buf.Owned key :=
                  Owned.deliver (Owned.recvfrom howned hsender rest) fun sent hsent => by
                    rw [List.mem_singleton.mp hsent]
                have hneed : count + 1 - min ch.buf.gbufferSize datagram.data.length = count := by
                  rw [hdata, List.length_singleton]
                  omega
                rw [hneed] at hrest
                simp only [xsgetn, uflow_refill harea hinbox hreceived]
                exact hfirst.trans (ih howned' (hfirst.singleBytes hsingle) hrest)

/-! ### Output -/

theorem operates_overflow (ch : UdpChannel) (c : UInt8) (key : SockAddr) :
    Operates key ch (ch.overflow c).2 := by
  cases htaken : ch.socket.sendto.1 with
  | false =>
      simp only [overflow, htaken, Bool.false_eq_true, if_false]
      exact ⟨rfl, fun _ _ => rfl, List.suffix_rfl, List.prefix_rfl⟩
  | true =>
      simp only [overflow, htaken, if_true]
      exact ⟨rfl, fun _ _ => rfl, List.suffix_rfl, List.prefix_append _ _⟩

theorem operates_xsputn (src : List UInt8) (ch : UdpChannel) (key : SockAddr) :
    Operates key ch (xsputn src ch).2 :=
  xsputn_preserves (Operates key ch)
    (fun next c hnext => hnext.trans (operates_overflow next c key)) src (Operates.refl key ch)

end UdpChannel

/-! ## The server -/

namespace UdpServer

variable {server : UdpServer} {key : SockAddr}

/-- The stream under a key as `receiveOne` finds it, a new one if there is none. -/
def stream (server : UdpServer) (key : SockAddr) : IOStream UdpStreambuf :=
  (server.clientStreams.lookup key).getD { rdbuf := { addr := key } }

def through (server : UdpServer) (key : SockAddr) : List UInt8 :=
  UdpChannel.through ⟨(server.stream key).rdbuf, server.socket⟩ key

/-- What an event takes the place of in the get area of the stream. -/
def overwritten (server : UdpServer) (key : SockAddr) : UdpEvent → List UInt8
  | .receiveOne _ =>
      match server.socket.inbox with
      | [] => []
      | datagram :: _ => if datagram.sender = key then server.unread key else []
  | _ => []

/-- The server after an event that loses these bytes of a peer. -/
structure Advances (key : SockAddr) (server next : UdpServer) (lost : List UInt8) : Prop where
  through : ∃ front back, server.through key = front ++ (lost ++ back) ∧
    next.through key = front ++ back
  sent : (server.stream key).rdbuf.sent <+: (next.stream key).rdbuf.sent
  inbox : next.socket.inbox <:+ server.socket.inbox

theorem stream_insert (socket : UdpSocket) (io : IOStream UdpStreambuf) :
    UdpServer.stream ⟨socket, server.clientStreams.insert key io⟩ key = io := by
  rw [stream, Finmap.lookup_insert]
  rfl

theorem stream_insert_of_ne (socket : UdpSocket) {other : SockAddr} (hne : key ≠ other)
    (io : IOStream UdpStreambuf) :
    UdpServer.stream ⟨socket, server.clientStreams.insert other io⟩ key = server.stream key := by
  rw [stream, Finmap.lookup_insert_of_ne _ hne]
  rfl

theorem stream_of_lookup {io : IOStream UdpStreambuf}
    (hlookup : server.clientStreams.lookup key = some io) : server.stream key = io := by
  rw [stream, hlookup]
  rfl

theorem unread_eq (server : UdpServer) (key : SockAddr) :
    server.unread key = (server.stream key).rdbuf.getArea.map SentByte.byte := by
  rw [unread, stream]
  cases server.clientStreams.lookup key with
  | none => rfl
  | some io => rfl

theorem Advances.of_eq {next : UdpServer} (hthrough : next.through key = server.through key)
    (hsent : (server.stream key).rdbuf.sent <+: (next.stream key).rdbuf.sent)
    (hinbox : next.socket.inbox <:+ server.socket.inbox) : Advances key server next [] :=
  ⟨⟨server.through key, [], by rw [List.append_nil, List.append_nil], by
    rw [hthrough, List.append_nil]⟩, hsent, hinbox⟩

/-- An operation on one stream, seen from this stream or another. -/
theorem advances_onStream (key : SockAddr) {other : SockAddr}
    {operate : IOStream UdpChannel → IOStream UdpChannel}
    (hoperate : ∀ io, server.clientStreams.lookup other = some io →
      UdpChannel.Operates other ⟨io.rdbuf, server.socket⟩
        (operate (attach io server.socket)).rdbuf) :
    Advances key server (server.onStream other operate) [] := by
  unfold onStream
  cases hlookup : server.clientStreams.lookup other with
  | none => exact Advances.of_eq rfl List.prefix_rfl List.suffix_rfl
  | some io =>
      have hoperates := hoperate io hlookup
      by_cases hsame : key = other
      · -- the stream itself
        subst hsame
        have hold := stream_of_lookup hlookup
        have hnew : (server.setStream key (operate (attach io server.socket))).stream key =
            detach (operate (attach io server.socket)) := stream_insert _ _
        refine Advances.of_eq ?_ ?_ hoperates.inbox
        · rw [through, through, hnew, hold]
          exact hoperates.through_eq
        · rw [hnew, hold]
          exact hoperates.sent
      · -- another stream only shares the socket with it
        have hnew : (server.setStream other (operate (attach io server.socket))).stream key =
            server.stream key := stream_insert_of_ne _ hsame _
        refine Advances.of_eq ?_ ?_ hoperates.inbox
        · rw [through, through, hnew]
          exact congrArg (_ ++ ·) (hoperates.waiting_eq key hsame)
        · rw [hnew]

/-! ### Receiving -/

theorem addReceivedData_received (buf : UdpStreambuf) {data : List SentByte}
    (hsize : data.length ≤ receiveSize) :
    ∃ buf', buf.addReceivedData data data.length = .ok buf' ∧ buf'.getArea = data ∧
      buf'.delivered = buf.delivered ∧ buf'.sent = buf.sent := by
  have hmax : ¬UdpStreambuf.maxSize < data.length := by
    have hlt : receiveSize < UdpStreambuf.maxSize := by decide
    omega
  unfold UdpStreambuf.addReceivedData UdpStreambuf.resize
  rw [if_neg hmax]
  split
  · exact ⟨_, rfl, List.take_length, rfl, rfl⟩
  · exact ⟨_, rfl, List.take_length, rfl, rfl⟩

theorem giveTo_ok {data : List SentByte} {size : Nat} {buf : UdpStreambuf}
    (hadd : (server.stream key).rdbuf.addReceivedData data size = .ok buf) :
    (server.giveTo key data size).2 = ⟨server.socket,
      server.clientStreams.insert key { server.stream key with rdbuf := buf }⟩ := by
  unfold stream at hadd
  rw [giveTo, hadd]
  rfl

/-- The stream of the sender holds the datagram instead of what was unread there. -/
theorem advances_receive {datagram : Datagram} {rest : List Datagram}
    (hinbox : server.socket.inbox = datagram :: rest) (hsingle : datagram.data.length = 1)
    (key uninitialized : SockAddr) :
    Advances key server (server.receiveOne uninitialized).2
      (server.overwritten key (.receiveOne uninitialized)) := by
  have hbytes : datagram.bytes.length = 1 := (List.length_map _).trans hsingle
  have hreceived : datagram.bytes.take receiveSize = datagram.bytes :=
    List.take_of_length_le (by rw [hbytes]; decide)
  have hsuffix : rest <:+ server.socket.inbox := hinbox ▸ List.suffix_cons datagram rest
  have hfits : datagram.bytes.length ≤ receiveSize := by
    rw [hbytes]
    decide
  obtain ⟨buf, hadd, harea, hdelivered, hsent⟩ := addReceivedData_received
    (server.stream datagram.sender).rdbuf hfits
  have hnext : (server.receiveOne uninitialized).2 =
      ⟨{ server.socket with inbox := rest }, server.clientStreams.insert datagram.sender
        { server.stream datagram.sender with rdbuf := buf }⟩ := by
    unfold receiveOne
    simp only [hinbox, hreceived]
    exact giveTo_ok hadd
  rw [hnext, overwritten, hinbox]
  by_cases hsender : datagram.sender = key
  · -- the datagram takes the place of the unread bytes in front of it
    subst hsender
    simp only [if_pos]
    refine ⟨⟨(server.stream datagram.sender).rdbuf.delivered.map SentByte.byte,
      waitingFrom datagram.sender (datagram :: rest), ?_, ?_⟩, ?_, hsuffix⟩
    · rw [through, UdpChannel.through, UdpStreambuf.taken, unread_eq, hinbox, List.map_append,
        List.append_assoc]
    · rw [through, UdpChannel.through, UdpStreambuf.taken, stream_insert, harea, hdelivered,
        List.map_append, List.append_assoc, waitingFrom_cons, if_pos rfl, Datagram.bytes,
        List.map_map]
      exact congrArg (_ ++ ·) (congrArg (· ++ _) (List.map_id _))
    · rw [stream_insert]
      exact hsent ▸ List.prefix_rfl
  · -- a datagram of another peer was not among those that wait for this one
    simp only [if_neg hsender]
    have hother : key ≠ datagram.sender := fun hsame => hsender hsame.symm
    refine Advances.of_eq ?_ ?_ hsuffix
    · rw [through, through, stream_insert_of_ne _ hother]
      refine congrArg (_ ++ ·) ?_
      rw [hinbox, waitingFrom_cons, if_neg hsender]
      rfl
    · rw [stream_insert_of_ne _ hother]

theorem advances_receiveOne (hallocated : server.Allocated) (hsingle : server.socket.SingleBytes)
    (key uninitialized : SockAddr) :
    Advances key server (server.receiveOne uninitialized).2
      (server.overwritten key (.receiveOne uninitialized)) := by
  cases hinbox : server.socket.inbox with
  | cons datagram rest =>
      exact advances_receive hinbox (hsingle datagram (hinbox ▸ List.mem_cons_self)) key _
  | nil =>
      -- all that is left of the call is the stream it found or created
      rw [receiveOne_failing hinbox, receiveFailing_eq hallocated, overwritten, hinbox]
      have hstream : UdpServer.stream ⟨server.socket, server.clientStreams.insert uninitialized
          (server.stream uninitialized)⟩ key = server.stream key := by
        by_cases hsame : key = uninitialized
        · subst hsame
          exact stream_insert _ _
        · exact stream_insert_of_ne _ hsame _
      refine Advances.of_eq ?_ ?_ List.suffix_rfl
      · exact congrArg (fun io => UdpChannel.through ⟨io.rdbuf, server.socket⟩ key) hstream
      · exact (congrArg (fun io => io.rdbuf.sent) hstream) ▸ List.prefix_rfl

/-- What the events of a program at the server do, reads from their own peers provided. -/
theorem advances_perform (howned : server.StreamsOwned) (hallocated : server.Allocated)
    (hsingle : server.socket.SingleBytes) {event : UdpEvent}
    (hinside : ∀ datagram, event ≠ .arrive datagram) (hrefills : server.RefillsOwn event)
    (key : SockAddr) :
    Advances key server (server.perform event) (server.overwritten key event) := by
  cases event with
  | arrive datagram => exact absurd rfl (hinside datagram)
  | receiveOne uninitialized => exact advances_receiveOne hallocated hsingle key uninitialized
  | read other count =>
      show Advances key server (server.read other count).2 []
      rw [read_eq]
      refine advances_onStream key fun io hlookup => ?_
      rw [rdbuf_read]
      split
      · next hgood =>
          exact UdpChannel.operates_xsgetn _ (howned other io hlookup) hsingle
            (hrefills io hlookup hgood)
      · exact UdpChannel.Operates.refl other _
  | write other src =>
      show Advances key server (server.onStream other fun io => io.write src) []
      refine advances_onStream key fun io _ => ?_
      rw [rdbuf_write]
      split
      · exact UdpChannel.operates_xsputn src _ other
      · exact UdpChannel.Operates.refl other _
  | flush other =>
      show Advances key server (server.onStream other IOStream.flush) []
      refine advances_onStream key fun io _ => ?_
      rw [rdbuf_flush]
      exact UdpChannel.Operates.refl other _
  | clear other =>
      show Advances key server (server.onStream other IOStream.clear) []
      exact advances_onStream key fun io _ => UdpChannel.Operates.refl other _

end UdpServer

end Iostreams
