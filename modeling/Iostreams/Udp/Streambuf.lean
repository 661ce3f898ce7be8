import Iostreams.Foundation.StandardStream

/-!
# The stream buffer of a UDP peer

All peers of a server share its socket.  A `UdpStreambuf` is filled by the server with
the datagram it received, and when that is used up it fills itself with `recvfrom`,
which stores the sender in `addr`, the address every output is sent to.

Each byte that was received carries the peer that sent it (`SentByte`), and a buffer
keeps what it delivered and where it sent its output, so that both can be spoken of.
Nothing of the code reads these.

The buffer never has a put area: `overflow` sends each character in a datagram of its
own.  `recvfrom` fails when no datagram is there, as it does on a socket with a
time-out.
-/

namespace Iostreams

open Foundation

/-- `sin_addr.s_addr` and `sin_port` -/
structure SockAddr where
  addr : UInt32
  port : UInt16
  deriving DecidableEq, Repr

/-- A byte and the peer that sent it. -/
structure SentByte where
  byte : UInt8
  sender : SockAddr
  deriving DecidableEq, Repr

structure Datagram where
  sender : SockAddr
  data : List UInt8
  deriving DecidableEq, Repr

/-- The bytes of a datagram. -/
def Datagram.bytes (datagram : Datagram) : List SentByte :=
  datagram.data.map fun byte => ⟨byte, datagram.sender⟩

theorem Datagram.sender_of_mem {datagram : Datagram} {sent : SentByte}
    (hsent : sent ∈ datagram.bytes) : sent.sender = datagram.sender := by
  obtain ⟨byte, -, rfl⟩ := List.mem_map.mp hsent
  rfl

/-- The server's socket: what arrived and was not received, and which calls of `sendto`
fail, by their number. -/
structure UdpSocket where
  inbox : List Datagram := []
  refuses : Nat → Bool
  sends : Nat := 0

/-- `sendto`: whether it succeeds. -/
def UdpSocket.sendto (socket : UdpSocket) : Bool × UdpSocket :=
  (!socket.refuses socket.sends, { socket with sends := socket.sends + 1 })

structure UdpStreambuf where
  addr : SockAddr
  /-- `gbuffer.size()` -/
  gbufferSize : Nat := 4096
  /-- The get area, from `gptr()` to `egptr()`. -/
  getArea : List SentByte := []
  delivered : List SentByte := []
  sent : List (SockAddr × UInt8) := []

namespace UdpStreambuf

/-- `gbuffer.max_size()` -/
def maxSize : Nat := 2 ^ 63 - 1

/-- `gbuffer.resize(size)`, where that is more than the size. -/
def resize (buf : UdpStreambuf) (size : Nat) : Except String UdpStreambuf :=
  if maxSize < size then .error "vector::_M_default_append"
  else .ok { buf with gbufferSize := size }

/-- `add_received_data(data, size)`; `data` is as long as `size` unless `resize` throws. -/
def addReceivedData (buf : UdpStreambuf) (data : List SentByte) (size : Nat) :
    Except String UdpStreambuf := do
  let buf ← if buf.gbufferSize < size then buf.resize size else .ok buf
  .ok { buf with getArea := data.take size }

end UdpStreambuf

/-- A stream buffer together with the socket it shares. -/
structure UdpChannel where
  buf : UdpStreambuf
  socket : UdpSocket

namespace UdpChannel

/-- `recvfrom` of the first datagram: the sender is stored, whatever was received. -/
def recvfrom (ch : UdpChannel) (datagram : Datagram) (rest : List Datagram) : UdpChannel :=
  { buf := { ch.buf with addr := datagram.sender }, socket := { ch.socket with inbox := rest } }

/-- `setg` over what was received. -/
def setg (ch : UdpChannel) (received : List SentByte) : UdpChannel :=
  { ch with buf := { ch.buf with getArea := received } }

/-- `underflow()`: whether there is a character at `gptr()` afterwards. -/
def underflow (ch : UdpChannel) : Bool × UdpChannel :=
  match ch.buf.getArea, ch.socket.inbox with
  | _ :: _, _ => (true, ch)
  | [], [] => (false, ch)
  | [], datagram :: rest =>
      -- what does not fit into `gbuffer` is lost
      let received := datagram.bytes.take ch.buf.gbufferSize
      if 0 < received.length then (true, (ch.recvfrom datagram rest).setg received)
      else (false, ch.recvfrom datagram rest)

/-- `gbump(1)` over a character that is delivered. -/
def deliver (ch : UdpChannel) (sent : SentByte) (rest : List SentByte) : UdpChannel :=
  { ch with buf := { ch.buf with getArea := rest, delivered := ch.buf.delivered ++ [sent] } }

/-- `uflow()`: the character at `gptr()`, which moves behind it. -/
def uflow (ch : UdpChannel) : Option SentByte × UdpChannel :=
  let (available, ch) := ch.underflow
  match available, ch.buf.getArea with
  | true, sent :: rest => (some sent, ch.deliver sent rest)
  | _, _ => (none, ch)

/-- The default `xsgetn`: characters until `count` are there or `uflow` returns `eof`. -/
def xsgetn : Nat → UdpChannel → List SentByte × UdpChannel
  | 0, ch => ([], ch)
  | count + 1, ch =>
      match ch.uflow with
      | (none, ch) => ([], ch)
      | (some sent, ch) =>
          let (others, ch) := xsgetn count ch
          (sent :: others, ch)

/-- `overflow(c)` for a character: whether it was sent. -/
def overflow (ch : UdpChannel) (c : UInt8) : Bool × UdpChannel :=
  let (taken, socket) := ch.socket.sendto
  if taken then
    (true, { buf := { ch.buf with sent := ch.buf.sent ++ [(ch.buf.addr, c)] }, socket })
  else
    (false, { ch with socket })

/-- The default `xsputn`: characters until one is not taken. -/
def xsputn : List UInt8 → UdpChannel → Nat × UdpChannel
  | [], ch => (0, ch)
  | c :: rest, ch =>
      match ch.overflow c with
      | (false, ch) => (0, ch)
      | (true, ch) =>
          let (taken, ch) := xsputn rest ch
          (taken + 1, ch)

/-- Without a put area `sync` sends nothing; the positions are those of the base class. -/
instance : Streambuf UdpChannel where
  sgetn ch count :=
    let (bytes, ch) := xsgetn count.toNat ch
    (bytes.map SentByte.byte, ch)
  inAvail ch := ch.buf.getArea.length
  sputn ch src :=
    let (taken, ch) := xsputn src ch
    (taken, ch)
  tellIn _ := -1
  seekIn ch _ := (-1, ch)
  tellOut _ := -1
  seekOut ch _ := (-1, ch)
  sync ch := some ch

/-! ## One character -/

theorem uflow_available {ch : UdpChannel} {sent : SentByte} {rest : List SentByte}
    (harea : ch.buf.getArea = sent :: rest) : ch.uflow = (some sent, ch.deliver sent rest) := by
  simp only [uflow, underflow, harea]

theorem uflow_nothing {ch : UdpChannel} (harea : ch.buf.getArea = [])
    (hinbox : ch.socket.inbox = []) : ch.uflow = (none, ch) := by
  simp only [uflow, underflow, harea, hinbox]

theorem uflow_empty {ch : UdpChannel} {datagram : Datagram} {rest : List Datagram}
    (harea : ch.buf.getArea = []) (hinbox : ch.socket.inbox = datagram :: rest)
    (hdata : datagram.data = []) : ch.uflow = (none, ch.recvfrom datagram rest) := by
  simp [uflow, underflow, harea, hinbox, Datagram.bytes, hdata]

theorem uflow_refill {ch : UdpChannel} {datagram : Datagram} {rest : List Datagram}
    {sent : SentByte} {others : List SentByte} (harea : ch.buf.getArea = [])
    (hinbox : ch.socket.inbox = datagram :: rest)
    (hreceived : datagram.bytes.take ch.buf.gbufferSize = sent :: others) :
    ch.uflow = (some sent, (ch.recvfrom datagram rest).deliver sent others) := by
  simp [uflow, underflow, harea, hinbox, hreceived, setg, deliver, recvfrom]

/-- The log of what was delivered grows by what a request returns. -/
theorem delivered_xsgetn (count : Nat) (ch : UdpChannel) :
    (xsgetn count ch).2.buf.delivered = ch.buf.delivered ++ (xsgetn count ch).1 := by
  induction count generalizing ch with
  | zero => exact (List.append_nil _).symm
  | succ count ih =>
      -- wherever the character came from, the rest of the request goes on behind it
      have hdeliver : ∀ ch' sent, ch.uflow = (some sent, ch') →
          ch'.buf.delivered = ch.buf.delivered ++ [sent] →
          (xsgetn (count + 1) ch).2.buf.delivered =
            ch.buf.delivered ++ (xsgetn (count + 1) ch).1 := by
        intro ch' sent huflow hdelivered
        simp only [xsgetn, huflow, ih ch', hdelivered, List.append_assoc, List.singleton_append]
      cases harea : ch.buf.getArea with
      | cons sent rest => exact hdeliver _ _ (uflow_available harea) rfl
      | nil =>
          cases hinbox : ch.socket.inbox with
          | nil => simp [xsgetn, uflow_nothing harea hinbox]
          | cons datagram rest =>
              cases hreceived : datagram.bytes.take ch.buf.gbufferSize with
              | nil => simp [xsgetn, uflow, underflow, harea, hinbox, hreceived, recvfrom]
              | cons sent others =>
                  exact hdeliver _ _ (uflow_refill harea hinbox hreceived) rfl

end UdpChannel

/-! ## What belongs to a peer -/

/-- What the buffer holds, has delivered and has sent is between the server and this peer, and
so is what it will send. -/
structure UdpStreambuf.Owned (buf : UdpStreambuf) (key : SockAddr) : Prop where
  addr : buf.addr = key
  size_pos : 0 < buf.gbufferSize
  getArea : ∀ sent ∈ buf.getArea, sent.sender = key
  delivered : ∀ sent ∈ buf.delivered, sent.sender = key
  sent : ∀ output ∈ buf.sent, output.1 = key

theorem UdpStreambuf.Owned.addReceivedData {buf buf' : UdpStreambuf} {key : SockAddr}
    (howned : buf.Owned key) {data : List SentByte} (hdata : ∀ sent ∈ data, sent.sender = key)
    {size : Nat} (hadd : buf.addReceivedData data size = .ok buf') : buf'.Owned key := by
  have harea : ∀ sent ∈ data.take size, sent.sender = key := fun sent hsent =>
    hdata sent (List.mem_of_mem_take hsent)
  unfold UdpStreambuf.addReceivedData at hadd
  by_cases hgrow : buf.gbufferSize < size
  · rw [if_pos hgrow, resize] at hadd
    split at hadd
    · cases hadd
    · cases hadd
      exact ⟨howned.addr, Nat.zero_lt_of_lt hgrow, harea, howned.delivered, howned.sent⟩
  · rw [if_neg hgrow] at hadd
    cases hadd
    exact ⟨howned.addr, howned.size_pos, harea, howned.delivered, howned.sent⟩

/-- The datagrams that a request for `need` more bytes takes from the socket are all from
one peer: it takes another as long as bytes are missing, up to an empty one. -/
def RefillsFrom (key : SockAddr) (size : Nat) : List Datagram → (need : Nat) → Prop
  | [], _ => True
  | datagram :: rest, need => need = 0 ∨ (datagram.sender = key ∧
      (datagram.data = [] ∨ RefillsFrom key size rest (need - min size datagram.data.length)))

theorem refillsFrom_zero (key : SockAddr) (size : Nat) (inbox : List Datagram) :
    RefillsFrom key size inbox 0 := by
  cases inbox with
  | nil => trivial
  | cons datagram rest => exact Or.inl rfl

namespace UdpChannel

theorem Owned.recvfrom {ch : UdpChannel} {key : SockAddr} (howned : ch.buf.Owned key)
    {datagram : Datagram} (hsender : datagram.sender = key) (rest : List Datagram) :
    (ch.recvfrom datagram rest).buf.Owned key :=
  ⟨hsender, howned.size_pos, howned.getArea, howned.delivered, howned.sent⟩

theorem Owned.deliver {ch : UdpChannel} {key : SockAddr} (howned : ch.buf.Owned key)
    {sent : SentByte} {rest : List SentByte} (hsent : ∀ c ∈ sent :: rest, c.sender = key) :
    (ch.deliver sent rest).buf.Owned key := by
  refine ⟨howned.addr, howned.size_pos, fun c hc => hsent c (List.mem_cons_of_mem _ hc), ?_,
    howned.sent⟩
  intro c hc
  rcases List.mem_append.mp hc with hold | hnew
  · exact howned.delivered c hold
  · obtain rfl := List.mem_singleton.mp hnew
    exact hsent c List.mem_cons_self

theorem exists_received {datagram : Datagram} {size : Nat} (hsize : 0 < size)
    (hdata : datagram.data ≠ []) : ∃ sent others, datagram.bytes.take size = sent :: others := by
  apply List.exists_cons_of_ne_nil
  intro hnone
  have hlength := congrArg List.length hnone
  have hpos := List.length_pos_iff.mpr hdata
  rw [List.length_take, Datagram.bytes, List.length_map, List.length_nil] at hlength
  omega

/-- A request keeps a buffer with its peer exactly if it refills it with nothing else. -/
theorem xsgetn_owned_iff {ch : UdpChannel} {key : SockAddr} (howned : ch.buf.Owned key)
    (count : Nat) :
    (xsgetn count ch).2.buf.Owned key ↔
      RefillsFrom key ch.buf.gbufferSize ch.socket.inbox (count - ch.buf.getArea.length) := by
  induction count generalizing ch with
  | zero =>
      rw [Nat.zero_sub]
      exact iff_of_true howned (refillsFrom_zero _ _ _)
  | succ count ih =>
      cases harea : ch.buf.getArea with
      | cons sent rest =>
          -- a character of the get area; what is missing for the request stays the same
          have hsent : ∀ c ∈ sent :: rest, c.sender = key := fun c hc =>
            howned.getArea c (harea ▸ hc)
          have hrest := ih (Owned.deliver howned hsent)
          have hcount : count + 1 - (sent :: rest).length = count - rest.length := by
            rw [List.length_cons]
            omega
          simp only [xsgetn, uflow_available harea, hcount]
          exact hrest
      | nil =>
          rw [List.length_nil, Nat.sub_zero]
          cases hinbox : ch.socket.inbox with
          | nil =>
              simp only [xsgetn, uflow_nothing harea hinbox]
              exact iff_of_true howned trivial
          | cons datagram rest =>
              have hneed : ¬count + 1 = 0 := Nat.succ_ne_zero count
              simp only [RefillsFrom, hneed, false_or]
              by_cases hdata : datagram.data = []
              · -- an empty datagram ends the request, and its sender stays
                simp only [xsgetn, uflow_empty harea hinbox hdata, hdata, true_or, and_true]
                exact ⟨fun hnext => hnext.addr, fun hsender => Owned.recvfrom howned hsender rest⟩
              · obtain ⟨sent, others, hreceived⟩ := exists_received howned.size_pos hdata
                have hfrom : ∀ c ∈ sent :: others, c.sender = datagram.sender := fun c hc =>
                  Datagram.sender_of_mem (List.mem_of_mem_take (hreceived ▸ hc))
                by_cases hsender : datagram.sender = key
                · have hreceive := Owned.deliver (Owned.recvfrom howned hsender rest)
                    (fun c hc => (hfrom c hc).trans hsender)
                  have hlength := congrArg List.length hreceived
                  rw [List.length_take, Datagram.bytes, List.length_map, List.length_cons]
                    at hlength
                  have hmissing : count + 1 - min ch.buf.gbufferSize datagram.data.length =
                      count - others.length := by
                    omega
                  simp only [xsgetn, uflow_refill harea hinbox hreceived, hsender, hdata, hmissing,
                    true_and, false_or]
                  exact ih hreceive
                · -- the first byte it delivers is from someone else
                  refine iff_of_false (fun hnext => hsender ?_) (fun hrefills => hsender hrefills.1)
                  have hfirst : sent ∈ (xsgetn (count + 1) ch).2.buf.delivered := by
                    rw [delivered_xsgetn]
                    simp [xsgetn, uflow_refill harea hinbox hreceived]
                  rw [← hfrom sent List.mem_cons_self]
                  exact hnext.delivered sent hfirst

/-! ## Output -/

/-- What each `overflow` preserves, a whole request does. -/
theorem xsputn_preserves (holds : UdpChannel → Prop)
    (hoverflow : ∀ ch c, holds ch → holds (ch.overflow c).2) (src : List UInt8) {ch : UdpChannel}
    (hstart : holds ch) : holds (xsputn src ch).2 := by
  induction src generalizing ch with
  | nil => exact hstart
  | cons c rest ih =>
      have hnext := hoverflow ch c hstart
      rw [xsputn]
      rcases hresult : ch.overflow c with ⟨taken, next⟩
      rw [hresult] at hnext
      cases taken with
      | false => exact hnext
      | true => exact ih hnext

theorem overflow_owned {ch : UdpChannel} {key : SockAddr} (howned : ch.buf.Owned key) (c : UInt8) :
    (ch.overflow c).2.buf.Owned key := by
  cases htaken : ch.socket.sendto.1 with
  | false =>
      simp only [overflow, htaken, Bool.false_eq_true, if_false]
      exact howned
  | true =>
      simp only [overflow, htaken, if_true]
      refine ⟨howned.addr, howned.size_pos, howned.getArea, howned.delivered, ?_⟩
      intro output houtput
      rcases List.mem_append.mp houtput with hold | hnew
      · exact howned.sent output hold
      · obtain rfl := List.mem_singleton.mp hnew
        exact howned.addr

theorem xsputn_owned {ch : UdpChannel} {key : SockAddr} (howned : ch.buf.Owned key)
    (src : List UInt8) : (xsputn src ch).2.buf.Owned key :=
  xsputn_preserves (fun next => next.buf.Owned key) (fun _ c hnext => overflow_owned hnext c) src
    howned

end UdpChannel
end Iostreams
