import Iostreams.CApi.TcpWrites
import Iostreams.Tcp.Streambuf

/-!
# The positions of a TCP connection

`tcp_streambuf` counts what it has sent in `write_pos` and `write_length`, and what it has received
in `read_pos` and `read_length`.  `xsgetn` keeps the result of a transfer in a signed variable and
looks whether it is positive.  `xsputn` keeps it in a `size_t`: there a failure is a number of bytes
like any other, and it is added to the counters.
-/

namespace Iostreams

open Foundation

/-! ## The input side of `tcp_streambuf` -/

/-- What the socket does when `xsgetn` turns to it. -/
structure ReceiveOutcome where
  /-- On a plain socket, the wait does not time out. -/
  readable : Bool
  /-- On TLS, the results of waiting after each `SSL_read` that has to be repeated. -/
  waits : List Bool := []
  /-- What `recv`, or the last `SSL_read`, hands over at most; nothing where it fails. -/
  hands : Option (List UInt8)
  /-- Where `recv` fails, `errno` is `EAGAIN` or `EWOULDBLOCK`. -/
  wouldBlock : Bool := false
  /-- Where `SSL_read` returns 0, the error is `SSL_ERROR_ZERO_RETURN`. -/
  zeroReturn : Bool := false

/-- The counters and flags of `tcp_streambuf` for its input, and what the socket has delivered. -/
structure TcpInput where
  ssl : Bool
  delivered : List UInt8 := []
  readPos : Int := 0
  readLength : Int := 0
  connectionClosed : Bool := false
  streamEmpty : Bool := true

namespace TcpInput

/-- The length that `recv` and `SSL_read` are called with; that of `SSL_read` is an `int`. -/
def receiveLength (ssl : Bool) (n : Int) : Nat :=
  if ssl then (toInt32 n).toNat else TcpStreambuf.recvLength n

/-- `recv(fd, s, static_cast<int>(n), 0)`, or `SSL_read` -/
def receive (buf : TcpInput) (outcome : ReceiveOutcome) (n : Int) : Int × TcpInput :=
  match outcome.hands with
  | none => (-1, buf)
  | some bytes =>
      let bytes := bytes.take (receiveLength buf.ssl n)
      (bytes.length, { buf with delivered := buf.delivered ++ bytes })

/-- What is noted about a transfer that delivered something. -/
def noteRead (buf : TcpInput) (bytesRead : Int) : TcpInput :=
  { buf with
    streamEmpty := false
    readPos := toInt64 (buf.readPos + bytesRead)
    readLength := toInt64 (buf.readLength + bytesRead) }

def xsgetn (buf : TcpInput) (outcome : ReceiveOutcome) (n : Int) : Int × TcpInput :=
  if n ≤ 0 then (0, buf)
  else if buf.ssl then
    if outcome.waits.contains false then (0, buf)
    else
      let (bytesRead, buf) := buf.receive outcome n
      if bytesRead > 0 then (bytesRead, buf.noteRead bytesRead)
      else if bytesRead = 0 ∧ outcome.zeroReturn then (0, { buf with connectionClosed := true })
      else (0, { buf with streamEmpty := true })
  else if !outcome.readable then (0, buf)
  else
    let (bytesRead, buf) := buf.receive outcome n
    if bytesRead > 0 then (bytesRead, buf.noteRead bytesRead)
    else if bytesRead = 0 then (0, { buf with connectionClosed := true })
    else if outcome.wouldBlock then (0, { buf with streamEmpty := true })
    else (0, { buf with connectionClosed := true })

/-- The call gets to the transfer: no wait times out before. -/
def Reaches (buf : TcpInput) (outcome : ReceiveOutcome) (n : Int) : Prop :=
  0 < n ∧ (buf.ssl = true → false ∉ outcome.waits) ∧ (buf.ssl = false → outcome.readable = true)

/-- How many bytes the transfer delivers. -/
def offered (buf : TcpInput) (outcome : ReceiveOutcome) (n : Int) : Nat :=
  match outcome.hands with
  | none => 0
  | some bytes => min (receiveLength buf.ssl n) bytes.length

/-- Both counters are what was delivered. -/
def Counted (buf : TcpInput) : Prop :=
  buf.readPos = buf.delivered.length ∧ buf.readLength = buf.delivered.length

end TcpInput

namespace TcpOutput

/-- The call gets to the transfer: no wait times out before. -/
def Reaches (buf : TcpOutput) (outcome : SocketOutcome) (n : Int) : Prop :=
  0 < n ∧ outcome.writable = true ∧ (buf.ssl = true → false ∉ outcome.waits)

/-- Both counters are what was accepted. -/
def Counted (buf : TcpOutput) : Prop :=
  buf.writePos = buf.accepted.length ∧ buf.writeLength = buf.accepted.length

end TcpOutput

/-! ## Runs -/

/-- The counters of a connection. -/
structure TcpPositions where
  output : TcpOutput
  input : TcpInput

/-- A call of the stream buffer, with what the socket does. -/
inductive TcpCall where
  | sputn (outcome : SocketOutcome) (s : List UInt8) (n : Int) (size : n ≤ s.length ∧ n < 2 ^ 63)
  | sgetn (outcome : ReceiveOutcome) (n : Int)

namespace TcpPositions

/-- A new stream buffer. -/
def opened (ssl : Bool) : TcpPositions := ⟨{ ssl }, { ssl }⟩

def perform (state : TcpPositions) : TcpCall → TcpPositions
  | .sputn outcome s n _ => { state with output := (state.output.xsputn outcome s n).2 }
  | .sgetn outcome n => { state with input := (state.input.xsgetn outcome n).2 }

/-- The positions and lengths are the bytes accepted and delivered. -/
def Counted (state : TcpPositions) : Prop := state.output.Counted ∧ state.input.Counted

/-- `send` or `SSL_write` does not fail if the call gets to it, and the total stays in the range of
`streamoff`. -/
def Countable (state : TcpPositions) : TcpCall → Prop
  | .sputn outcome s n _ => state.output.Reaches outcome n → ∃ count, outcome.takes = some count ∧
      state.output.accepted.length +
        min (min count (TcpOutput.sendLength state.output.ssl n)) s.length < 2 ^ 63
  | .sgetn outcome n => state.input.Reaches outcome n →
      state.input.delivered.length + state.input.offered outcome n < 2 ^ 63

/-- A positive result of `sputn` counts bytes that were accepted, from the start of the data. -/
def Truthful (state : TcpPositions) : TcpCall → Prop
  | .sputn outcome s n _ => 0 < (state.output.xsputn outcome s n).1 →
      ∃ bytes, bytes <+: s ∧ (bytes.length : Int) = (state.output.xsputn outcome s n).1 ∧
        (state.output.xsputn outcome s n).2.accepted = state.output.accepted ++ bytes
  | .sgetn _ _ => True

/-- The counters have 64 bits. -/
def InRange (state : TcpPositions) : Prop :=
  state.output.writePos < 2 ^ 63 ∧ state.input.readPos < 2 ^ 63

end TcpPositions

/-! ## Output -/

/-- A counter that counts what there is goes on to do so as long as it is in the range. -/
theorem counts_iff {counter : Int} {before more : Nat} (hcounter : counter = before)
    (hlt : counter < 2 ^ 63) :
    (if more ≤ 0 then counter else toInt64 (counter + more)) = ((before + more : Nat) : Int) ↔
      before + more < 2 ^ 63 := by
  subst hcounter
  split
  · omega
  · rw [toInt64, Int.bmod_def]
    omega

namespace TcpOutput

variable {buf : TcpOutput} {outcome : SocketOutcome} {s : List UInt8} {n : Int}

theorem xsputn_waits (hreach : ¬buf.Reaches outcome n) :
    buf.xsputn outcome s n = (0, buf) := by
  unfold xsputn
  by_cases hpos : n ≤ 0
  · rw [if_pos hpos]
  · rw [if_neg hpos]
    by_cases hwritable : outcome.writable = true
    · have hwait : buf.ssl = true ∧ false ∈ outcome.waits := by
        by_contra hnone
        exact hreach ⟨by omega, hwritable, fun hssl hmem => hnone ⟨hssl, hmem⟩⟩
      rw [if_neg (by simp [hwritable]), if_pos (by simpa using hwait)]
    · rw [if_pos (by simpa using hwritable)]

theorem xsputn_reaches (hreach : buf.Reaches outcome n) :
    buf.xsputn outcome s n =
      if (buf.send outcome s n).1 ≤ 0 then (-1, (buf.send outcome s n).2)
      else (toInt64 (buf.send outcome s n).1, { (buf.send outcome s n).2 with
        writePos := toInt64 ((buf.send outcome s n).2.writePos + (buf.send outcome s n).1)
        writeLength :=
          toInt64 ((buf.send outcome s n).2.writeLength + (buf.send outcome s n).1) }) := by
  obtain ⟨hpos, hwritable, hwaits⟩ := hreach
  have hwait : ¬(buf.ssl && outcome.waits.contains false) = true := by simpa using hwaits
  rw [xsputn, if_neg (by omega), if_neg (by simp [hwritable]), if_neg hwait]

/-- A failure moves both counters back by one. -/
theorem xsputn_fails (hreach : buf.Reaches outcome n) (hfails : outcome.takes = none) :
    buf.xsputn outcome s n = (-1, { buf with
      writePos := toInt64 (buf.writePos - 1)
      writeLength := toInt64 (buf.writeLength - 1) }) := by
  have hback : ∀ counter : Int, toInt64 (counter + toSizeT (-1)) = toInt64 (counter - 1) := by
    intro counter
    have hsum : counter + toSizeT (-1) = counter - 1 + 2 ^ 64 := by
      rw [show toSizeT (-1) = 2 ^ 64 - 1 from rfl]
      omega
    rw [hsum, toInt64, toInt64]
    exact Int.add_bmod_right _ _
  rw [xsputn_reaches hreach]
  simp only [send, hfails, hback]
  rfl

/-- What is accepted is counted. -/
theorem xsputn_takes (hreach : buf.Reaches outcome n) {count : Nat}
    (htakes : outcome.takes = some count) :
    let bytes := s.take (min count (sendLength buf.ssl n))
    (buf.xsputn outcome s n).2.accepted = buf.accepted ++ bytes ∧
      (buf.xsputn outcome s n).1 = (if bytes.length ≤ 0 then -1 else toInt64 bytes.length) ∧
      ((buf.xsputn outcome s n).2.writePos =
        if bytes.length ≤ 0 then buf.writePos else toInt64 (buf.writePos + bytes.length)) ∧
      ((buf.xsputn outcome s n).2.writeLength =
        if bytes.length ≤ 0 then buf.writeLength
        else toInt64 (buf.writeLength + bytes.length)) := by
  intro bytes
  have hsend : buf.send outcome s n =
      (bytes.length, { buf with accepted := buf.accepted ++ bytes }) := by
    simp only [send, htakes]
    rfl
  rw [xsputn_reaches hreach, hsend]
  by_cases hnone : bytes.length ≤ 0
  · simp only [if_pos hnone]
    exact ⟨trivial, trivial, trivial, trivial⟩
  · simp only [if_neg hnone]
    exact ⟨trivial, trivial, trivial, trivial⟩

theorem length_sent (buf : TcpOutput) (s : List UInt8) (count : Nat) :
    (s.take (min count (sendLength buf.ssl n))).length =
      min (min count (sendLength buf.ssl n)) s.length := List.length_take

/-- The output stays counted unless a transfer fails or the range is left. -/
theorem counted_xsputn (hcounted : buf.Counted) (hlt : buf.writePos < 2 ^ 63) :
    (buf.xsputn outcome s n).2.Counted ↔
      (buf.Reaches outcome n → ∃ count, outcome.takes = some count ∧
        buf.accepted.length + min (min count (sendLength buf.ssl n)) s.length < 2 ^ 63) := by
  obtain ⟨hpos, hlength⟩ := hcounted
  by_cases hreach : buf.Reaches outcome n
  · rw [imp_iff_right hreach]
    cases htakes : outcome.takes with
    | none =>
        rw [xsputn_fails hreach htakes]
        refine iff_of_false ?_ nofun
        rintro ⟨hcount, -⟩
        have hback : toInt64 (buf.writePos - 1) = buf.accepted.length := hcount
        rw [← hpos, toInt64, Int.bmod_def] at hback
        omega
    | some count =>
        obtain ⟨haccepted, -, hwritePos, hwriteLength⟩ :=
          @xsputn_takes buf outcome s n hreach _ htakes
        rw [Counted, haccepted, hwritePos, hwriteLength, List.length_append,
          counts_iff hpos hlt, counts_iff hlength (by omega), and_self, length_sent]
        simp only [Option.some.injEq, exists_eq_left']
  · rw [xsputn_waits hreach]
    exact iff_of_true ⟨hpos, hlength⟩ fun hreaches => absurd hreaches hreach

theorem writePos_xsputn_lt (hlt : buf.writePos < 2 ^ 63) :
    (buf.xsputn outcome s n).2.writePos < 2 ^ 63 := by
  by_cases hreach : buf.Reaches outcome n
  · cases htakes : outcome.takes with
    | none =>
        rw [xsputn_fails hreach htakes]
        exact toInt64_lt _
    | some count =>
        rw [(xsputn_takes hreach htakes).2.2.1]
        split
        · exact hlt
        · exact toInt64_lt _
  · rw [xsputn_waits hreach]
    exact hlt

/-- A positive result is the number of bytes accepted. -/
theorem xsputn_positive (hlt : n < 2 ^ 63) (hresult : 0 < (buf.xsputn outcome s n).1) :
    ∃ bytes, bytes <+: s ∧ (bytes.length : Int) = (buf.xsputn outcome s n).1 ∧
      (buf.xsputn outcome s n).2.accepted = buf.accepted ++ bytes := by
  by_cases hreach : buf.Reaches outcome n
  · cases htakes : outcome.takes with
    | none =>
        rw [xsputn_fails hreach htakes] at hresult
        have hminus : (0 : Int) < -1 := hresult
        exact absurd hminus (by decide)
    | some count =>
        obtain ⟨haccepted, hcount, -, -⟩ := @xsputn_takes buf outcome s n hreach _ htakes
        have hsend : (sendLength buf.ssl n : Int) ≤ n := sendLength_le hreach.1
        have hlength := @length_sent n buf s count
        refine ⟨_, List.take_prefix _ s, ?_, haccepted⟩
        rw [hcount] at hresult ⊢
        split at hresult
        · exact absurd hresult (by decide)
        · next hsome =>
            rw [if_neg hsome, toInt64_natCast (by omega)]
  · rw [xsputn_waits hreach] at hresult
    exact absurd hresult (Int.lt_irrefl 0)

end TcpOutput

/-! ## Input -/

namespace TcpInput

variable {buf : TcpInput} {outcome : ReceiveOutcome} {n : Int}

theorem xsgetn_waits (hreach : ¬buf.Reaches outcome n) : buf.xsgetn outcome n = (0, buf) := by
  unfold xsgetn
  by_cases hpos : n ≤ 0
  · rw [if_pos hpos]
  · rw [if_neg hpos]
    by_cases hssl : buf.ssl = true
    · have hwait : false ∈ outcome.waits := by
        by_contra hnone
        exact hreach ⟨by omega, fun _ => hnone, fun hplain => by rw [hssl] at hplain; cases hplain⟩
      rw [if_pos hssl, if_pos (by simpa using hwait)]
    · have hwait : ¬outcome.readable = true := fun hreadable =>
        hreach ⟨by omega, fun htls => absurd htls hssl, fun _ => hreadable⟩
      rw [if_neg hssl, if_pos (by simpa using hwait)]

/-- A transfer that delivers nothing sets a flag. -/
theorem xsgetn_reaches (hreach : buf.Reaches outcome n) :
    ∃ flagged : TcpInput, flagged.delivered = (buf.receive outcome n).2.delivered ∧
      flagged.readPos = (buf.receive outcome n).2.readPos ∧
      flagged.readLength = (buf.receive outcome n).2.readLength ∧
      buf.xsgetn outcome n =
        if (buf.receive outcome n).1 > 0 then
          ((buf.receive outcome n).1,
            (buf.receive outcome n).2.noteRead (buf.receive outcome n).1)
        else (0, flagged) := by
  obtain ⟨hpos, hwaits, hreadable⟩ := hreach
  let received := (buf.receive outcome n).2
  unfold xsgetn
  rw [if_neg (by omega)]
  by_cases hssl : buf.ssl = true
  · have hwait : ¬outcome.waits.contains false = true := by simpa using hwaits hssl
    rw [if_pos hssl, if_neg hwait]
    by_cases hclosed : (buf.receive outcome n).1 = 0 ∧ outcome.zeroReturn = true
    · exact ⟨{ received with connectionClosed := true }, rfl, rfl, rfl,
        by simp only [if_pos hclosed]; rfl⟩
    · exact ⟨{ received with streamEmpty := true }, rfl, rfl, rfl,
        by simp only [if_neg hclosed]; rfl⟩
  · have hwait : ¬(!outcome.readable) = true := by simp [hreadable (eq_false_of_ne_true hssl)]
    rw [if_neg hssl, if_neg hwait]
    by_cases hclosed : (buf.receive outcome n).1 = 0
    · exact ⟨{ received with connectionClosed := true }, rfl, rfl, rfl,
        by simp only [if_pos hclosed]; rfl⟩
    · by_cases hempty : outcome.wouldBlock = true
      · exact ⟨{ received with streamEmpty := true }, rfl, rfl, rfl,
          by simp only [if_neg hclosed, if_pos hempty]; rfl⟩
      · exact ⟨{ received with connectionClosed := true }, rfl, rfl, rfl,
          by simp only [if_neg hclosed, if_neg hempty]; rfl⟩

/-- A transfer counts what it delivers. -/
theorem xsgetn_counts (hreach : buf.Reaches outcome n) :
    ∃ bytes, bytes.length = buf.offered outcome n ∧
      (buf.xsgetn outcome n).2.delivered = buf.delivered ++ bytes ∧
      ((buf.xsgetn outcome n).2.readPos =
        if bytes.length ≤ 0 then buf.readPos else toInt64 (buf.readPos + bytes.length)) ∧
      ((buf.xsgetn outcome n).2.readLength =
        if bytes.length ≤ 0 then buf.readLength
        else toInt64 (buf.readLength + bytes.length)) := by
  obtain ⟨flagged, hdelivered, hreadPos, hreadLength, hget⟩ := xsgetn_reaches hreach
  rw [hget]
  cases hhands : outcome.hands with
  | none =>
      have hreceive : buf.receive outcome n = (-1, buf) := by simp only [receive, hhands]
      rw [hreceive] at hdelivered hreadPos hreadLength ⊢
      refine ⟨[], by rw [offered, hhands]; rfl, ?_⟩
      have hminus : ¬(-1 : Int) > 0 := by decide
      rw [if_neg hminus, List.append_nil]
      exact ⟨hdelivered, hreadPos, hreadLength⟩
  | some bytes =>
      let taken := bytes.take (receiveLength buf.ssl n)
      have hreceive : buf.receive outcome n =
          ((taken.length : Int), { buf with delivered := buf.delivered ++ taken }) := by
        simp only [receive, hhands]
        rfl
      rw [hreceive] at hdelivered hreadPos hreadLength ⊢
      refine ⟨taken, by rw [offered, hhands, List.length_take], ?_⟩
      by_cases hnone : taken.length ≤ 0
      · rw [if_neg (by simpa using hnone), if_pos hnone, if_pos hnone]
        exact ⟨hdelivered, hreadPos, hreadLength⟩
      · rw [if_pos (by simpa using Nat.lt_of_not_le hnone), if_neg hnone, if_neg hnone]
        exact ⟨rfl, rfl, rfl⟩

/-- The input stays counted unless the range is left. -/
theorem counted_xsgetn (hcounted : buf.Counted) (hlt : buf.readPos < 2 ^ 63) :
    (buf.xsgetn outcome n).2.Counted ↔
      (buf.Reaches outcome n → buf.delivered.length + buf.offered outcome n < 2 ^ 63) := by
  obtain ⟨hpos, hlength⟩ := hcounted
  by_cases hreach : buf.Reaches outcome n
  · obtain ⟨bytes, hoffered, hdelivered, hreadPos, hreadLength⟩ := xsgetn_counts hreach
    rw [imp_iff_right hreach, Counted, hdelivered, hreadPos, hreadLength, List.length_append,
      counts_iff hpos hlt, counts_iff hlength (by omega), and_self, hoffered]
  · rw [xsgetn_waits hreach]
    exact iff_of_true ⟨hpos, hlength⟩ fun hreaches => absurd hreaches hreach

theorem readPos_xsgetn_lt (hlt : buf.readPos < 2 ^ 63) :
    (buf.xsgetn outcome n).2.readPos < 2 ^ 63 := by
  by_cases hreach : buf.Reaches outcome n
  · obtain ⟨bytes, -, -, hreadPos, -⟩ := xsgetn_counts hreach
    rw [hreadPos]
    split
    · exact hlt
    · exact toInt64_lt _
  · rw [xsgetn_waits hreach]
    exact hlt

/-! A plain connection on which no `recv` fails is a `TcpStreambuf`. -/

/-- Its counters and flags. -/
def ofStreambuf (buf : TcpStreambuf) (delivered : List UInt8) : TcpInput where
  ssl := false
  delivered
  readPos := buf.readPos
  readLength := buf.readLength
  connectionClosed := buf.connectionClosed
  streamEmpty := buf.streamEmpty

/-- What its kernel does for the next request. -/
def nextReceive (buf : TcpStreambuf) : ReceiveOutcome where
  readable := buf.waitReadable
  hands := some (buf.incoming.take (buf.segments buf.recvs).val)

/-- The two agree about a request: its result, the counters and the flags. -/
theorem xsgetn_ofStreambuf (buf : TcpStreambuf) (delivered : List UInt8) (n : Int) :
    (ofStreambuf buf delivered).xsgetn (nextReceive buf) n =
      (((buf.xsgetn n).1.length : Int),
        ofStreambuf (buf.xsgetn n).2 (delivered ++ (buf.xsgetn n).1)) := by
  unfold xsgetn TcpStreambuf.xsgetn
  by_cases hpos : n ≤ 0
  · rw [if_pos hpos, if_pos hpos, List.append_nil]
    rfl
  rw [if_neg hpos, if_neg hpos, if_neg (show ¬(ofStreambuf buf delivered).ssl = true from nofun)]
  by_cases hwait : (!buf.waitReadable) = true
  · rw [if_pos hwait, if_pos (show (!(nextReceive buf).readable) = true from hwait),
      List.append_nil]
    rfl
  rw [if_neg hwait, if_neg (show ¬(!(nextReceive buf).readable) = true from hwait)]
  have htaken : (buf.incoming.take (buf.segments buf.recvs).val).take
      (receiveLength false n) = (buf.recv (TcpStreambuf.recvLength n)).1 := List.take_take
  have hreceive : (ofStreambuf buf delivered).receive (nextReceive buf) n =
      (((buf.recv (TcpStreambuf.recvLength n)).1.length : Int),
        { ofStreambuf buf delivered with
          delivered := delivered ++ (buf.recv (TcpStreambuf.recvLength n)).1 }) := by
    rw [← htaken]
    rfl
  rw [hreceive]
  simp only [TcpStreambuf.noteReceived]
  by_cases hsome : 0 < (buf.recv (TcpStreambuf.recvLength n)).1.length
  · rw [if_pos (Int.natCast_pos.mpr hsome), if_pos hsome]
    rfl
  · rw [if_neg (fun hcount => hsome (Int.natCast_pos.mp hcount)), if_neg hsome,
      if_pos (by omega), Nat.eq_zero_of_not_pos hsome]
    rfl

end TcpInput

/-! ## Both sides -/

namespace TcpPositions

/-- One call. -/
theorem counted_perform {state : TcpPositions} (hrange : state.InRange)
    (hcounted : state.Counted) (call : TcpCall) :
    (state.perform call).Counted ↔ state.Countable call := by
  cases call with
  | sputn outcome s n size =>
      exact (and_iff_left hcounted.2).trans (TcpOutput.counted_xsputn hcounted.1 hrange.1)
  | sgetn outcome n =>
      exact (and_iff_right hcounted.1).trans (TcpInput.counted_xsgetn hcounted.2 hrange.2)

theorem inRange_perform {state : TcpPositions} (hrange : state.InRange) (call : TcpCall) :
    (state.perform call).InRange := by
  cases call with
  | sputn outcome s n size => exact ⟨TcpOutput.writePos_xsputn_lt hrange.1, hrange.2⟩
  | sgetn outcome n => exact ⟨hrange.1, TcpInput.readPos_xsgetn_lt hrange.2⟩

/-- **Positions.**  In a run the positions and lengths are the bytes accepted and delivered at
every moment exactly if no transfer of `sputn` fails and the totals stay in range.  A positive
result of `sputn` is a number of accepted bytes in any case. -/
theorem counted_throughout_iff (ssl : Bool) (calls : List TcpCall) :
    (Throughout perform Counted (opened ssl) calls ↔
      EachAllowed perform Countable (opened ssl) calls) ∧
    ∀ (state : TcpPositions) (call : TcpCall), state.Truthful call := by
  constructor
  · exact throughout_iff InRange (fun _ call hrange => inRange_perform hrange call)
      (fun _ call hrange hcounted => counted_perform hrange hcounted call)
      ⟨Int.pow_pos (by decide), Int.pow_pos (by decide)⟩ ⟨⟨rfl, rfl⟩, rfl, rfl⟩
  · intro state call
    cases call with
    | sputn outcome s n size => exact TcpOutput.xsputn_positive size.2
    | sgetn outcome n => trivial

/-- One `send` that fails: both counters are -1. -/
theorem not_counted :
    let call := .sputn { writable := true, takes := none } [97] 1 (by decide)
    ((opened false).perform call).output.writePos = -1 ∧
      ((opened false).perform call).output.writeLength = -1 ∧
      ((opened false).perform call).output.accepted = [] ∧
      ¬Throughout perform Counted (opened false) [call] := by
  refine ⟨by decide, by decide, by decide, fun hall => ?_⟩
  have hcounted := hall _ (List.prefix_refl _)
  exact absurd hcounted.1.1 (by decide)

end TcpPositions
end Iostreams
