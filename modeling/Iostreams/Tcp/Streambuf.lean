import Iostreams.Foundation.StandardStream

/-!
# The stream buffer of a TCP connection

`TcpStreambuf` has the counters of `tcp_streambuf` and, for the socket behind
it, the bytes the peer has sent that were not received yet.  The kernel chooses
how many of them one `recv` hands over: `segments` is that choice, one positive
number for each call.  `wait_readable` reports pending data at once, and when
nothing is pending it reports the end of the connection or times out.

Only the plain socket is modelled, not the path through `SSL_read`.  The
peer takes every byte that is sent to it.
-/

namespace Iostreams

open Foundation

structure TcpStreambuf where
  /-- Sent by the peer and not received yet. -/
  incoming : List UInt8
  /-- The most bytes each `recv` hands over, by the number of the call. -/
  segments : Nat → { count : Nat // 0 < count }
  recvs : Nat := 0
  peerClosed : Bool
  outgoing : List UInt8 := []
  connectionClosed : Bool := false
  streamEmpty : Bool := true
  writePos : Int := 0
  readPos : Int := 0
  writeLength : Int := 0
  readLength : Int := 0

namespace TcpStreambuf

/-- A connection on which the peer sends `data`. -/
def connected (data : List UInt8) (segments : Nat → { count : Nat // 0 < count })
    (peerClosed : Bool) : TcpStreambuf :=
  { incoming := data, segments, peerClosed }

def waitReadable (buf : TcpStreambuf) : Bool := !buf.incoming.isEmpty || buf.peerClosed

/-- `recv(fd, s, length, 0)`: the bytes it hands over. -/
def recv (buf : TcpStreambuf) (length : Nat) : List UInt8 × TcpStreambuf :=
  let bytes := buf.incoming.take (min length (buf.segments buf.recvs).val)
  (bytes, { buf with incoming := buf.incoming.drop bytes.length, recvs := buf.recvs + 1 })

/-- The length `recv` is called with: `static_cast<int>(n)` as a `size_t`. -/
def recvLength (n : Int) : Nat := toSizeT (toInt32 n)

/-- What `xsgetn` records about a `recv` that returned `count`. -/
def noteReceived (buf : TcpStreambuf) (count : Nat) : TcpStreambuf :=
  if 0 < count then
    { buf with
      streamEmpty := false
      readPos := toInt64 (buf.readPos + count)
      readLength := toInt64 (buf.readLength + count) }
  else
    { buf with connectionClosed := true }

def xsgetn (buf : TcpStreambuf) (n : Int) : List UInt8 × TcpStreambuf :=
  if n ≤ 0 then ([], buf)
  else if !buf.waitReadable then ([], buf)
  else
    let (bytes, buf) := buf.recv (recvLength n)
    (bytes, buf.noteReceived bytes.length)

def xsputn (buf : TcpStreambuf) (src : List UInt8) : Int × TcpStreambuf :=
  (src.length, { buf with
    outgoing := buf.outgoing ++ src
    writePos := toInt64 (buf.writePos + src.length)
    writeLength := toInt64 (buf.writeLength + src.length) })

/-- `seekpos(position, out)` -/
def seekOut (buf : TcpStreambuf) (position : Int) : Int × TcpStreambuf :=
  (position, { buf with
    writePos := position
    writeLength := max buf.writeLength position })

/-- `in_avail` is the default `showmanyc`, `sync` the default of the base class. -/
instance : Streambuf TcpStreambuf where
  sgetn := xsgetn
  inAvail _ := 0
  sputn := xsputn
  tellIn buf := buf.readPos
  seekIn buf position := (position, { buf with readPos := position })
  tellOut buf := buf.writePos
  seekOut := seekOut
  sync buf := some buf

/-! ## What a request obtains -/

/-- The number of bytes a request of positive size obtains from `recv`, of the
`left` bytes that were sent and not received. -/
def handed (segments : Nat → { count : Nat // 0 < count }) (call left : Nat) (size : Int) : Nat :=
  min (recvLength size) (min (segments call).val left)

@[simp] theorem incoming_noteReceived (buf : TcpStreambuf) (count : Nat) :
    (buf.noteReceived count).incoming = buf.incoming := by
  unfold noteReceived
  split <;> rfl

@[simp] theorem segments_noteReceived (buf : TcpStreambuf) (count : Nat) :
    (buf.noteReceived count).segments = buf.segments := by
  unfold noteReceived
  split <;> rfl

@[simp] theorem recvs_noteReceived (buf : TcpStreambuf) (count : Nat) :
    (buf.noteReceived count).recvs = buf.recvs := by
  unfold noteReceived
  split <;> rfl

/-- While data is pending, a request is one `recv`. -/
theorem xsgetn_pending {buf : TcpStreambuf} (hpending : buf.incoming ≠ []) {n : Int}
    (hn : 0 < n) :
    let count := handed buf.segments buf.recvs buf.incoming.length n
    (buf.xsgetn n).1 = buf.incoming.take count ∧
      (buf.xsgetn n).2.incoming = buf.incoming.drop count ∧
      (buf.xsgetn n).2.segments = buf.segments ∧ (buf.xsgetn n).2.recvs = buf.recvs + 1 := by
  intro count
  have hcount : (buf.incoming.take (min (recvLength n) (buf.segments buf.recvs).val)).length =
      count := by
    rw [List.length_take, Nat.min_assoc]
    rfl
  have htake : buf.incoming.take (min (recvLength n) (buf.segments buf.recvs).val) =
      buf.incoming.take count := by
    rw [List.take_eq_take_min, ← List.length_take, hcount]
  have hready : buf.waitReadable = true := by simp [waitReadable, hpending]
  have hget : buf.xsgetn n = (buf.incoming.take count,
      TcpStreambuf.noteReceived { buf with
        incoming := buf.incoming.drop count, recvs := buf.recvs + 1 } count) := by
    rw [xsgetn, if_neg (by omega), hready]
    simp only [Bool.not_true, Bool.false_eq_true, if_false, recv, hcount]
    rw [htake]
  simp [hget]

/-- Every `recv` hands over a single byte that is there. -/
theorem handed_one (segments : Nat → { count : Nat // 0 < count }) (call : Nat) {left : Nat}
    (hleft : 0 < left) : handed segments call left 1 = 1 := by
  have hlength : recvLength 1 = 1 := by decide
  have hsegment := (segments call).property
  rw [handed, hlength]
  omega

/-- With no data pending a request obtains nothing. -/
theorem xsgetn_empty {buf : TcpStreambuf} (hempty : buf.incoming = []) (n : Int) :
    (buf.xsgetn n).1 = [] ∧ (buf.xsgetn n).2.incoming = [] := by
  by_cases hn : n ≤ 0 <;> by_cases hclosed : buf.peerClosed = true <;>
    simp [xsgetn, waitReadable, recv, hn, hempty, hclosed]

/-- One byte at a time, the input is the bytes the peer sent. -/
instance : CharSource TcpStreambuf where
  pending := incoming
  get_one buf := by
    by_cases hempty : buf.incoming = []
    · simp [Streambuf.sgetn, xsgetn_empty hempty, hempty]
    · have hget := xsgetn_pending hempty Int.one_pos
      rw [handed_one _ _ (List.length_pos_iff.mpr hempty)] at hget
      exact hget.1
  pending_one buf := by
    by_cases hempty : buf.incoming = []
    · simp [Streambuf.sgetn, xsgetn_empty hempty, hempty]
    · have hget := xsgetn_pending hempty Int.one_pos
      rw [handed_one _ _ (List.length_pos_iff.mpr hempty)] at hget
      exact hget.2.1
  get_nonpos buf count hcount := if_pos hcount

end TcpStreambuf
end Iostreams
