import Iostreams.Serial.BufferBounds
import Iostreams.Serial.Operators

/-!
# Reports of short reads

The stream part of `readBytes` sets the size mismatch flag and the count of bytes after every
transfer; the buffer part sets neither, nor does a read without a read stream.  In every state
that is reached outside bit-stream mode a short read on a stream is reported, and one on a buffer
only if an earlier mismatch was never fetched and no stream has delivered anything.
-/

namespace Iostreams

open Foundation

namespace Serial

variable {β γ : Type}

/-- The public operations that change a `Serial`, and a change of the stream behind it. -/
inductive SerialCall (β γ : Type) where
  | readBytes (dest : List UInt8) (size : UInt64)
  | readBytesWithBuffer (dest : List UInt8) (size : UInt64) (buffer : Serial γ)
  | readBit
  | readByte
  | writeBytes (src : List UInt8)
  | writeBit (bit : Bool)
  | writeByte (byte : UInt8)
  | synchronize
  | didNotReadWholeSize
  | clearRead
  | getReadPosition
  | setReadPosition (index : UInt64)
  | setWritePosition (index : UInt64)
  | pushByteReadBuffer
  | pushReadBytes (data : List UInt8) (expectedSize : UInt64)
  | popByteReadBuffer
  | changeStream (io : IOStream β)

section Calls

variable [Streambuf β] [Streambuf γ]

def SerialCall.perform (depth : Nat) (s : Serial β) : SerialCall β γ → Except Halt (Serial β)
  | .readBytes dest size => do
      let (_, _, s) ← Serial.readBytes depth s dest size.toNat
      .ok s
  | .readBytesWithBuffer dest size buffer => do
      let (_, _, s, _) ← Serial.readBytesWithBuffer depth s buffer dest size.toNat
      .ok s
  | .readBit => do
      let (_, s) ← Serial.readBit depth s
      .ok s
  | .readByte => do
      let (_, s) ← Serial.readByte depth s
      .ok s
  | .writeBytes src => do
      let (_, s) ← Serial.writeBytes depth s src
      .ok s
  | .writeBit bit => Serial.writeBit depth s bit
  | .writeByte byte => Serial.writeByte depth s byte
  | .synchronize => Serial.synchronize depth s
  | .didNotReadWholeSize => .ok s.didNotReadWholeSize.2
  | .clearRead => .ok s.clearRead
  | .getReadPosition => .ok s.getReadPosition.2
  | .setReadPosition index => .ok (s.setReadPosition index.toNat)
  | .setWritePosition index => .ok (s.setWritePosition index.toNat)
  | .pushByteReadBuffer => .ok s.pushByteReadBuffer
  | .pushReadBytes data expectedSize => .ok (s.pushReadBytes data expectedSize.toNat)
  | .popByteReadBuffer => .ok s.popByteReadBuffer
  | .changeStream io => .ok (s.setStream io)

/-- The states that are reached from a `Serial` over a buffer or over streams which is no bit
stream. -/
inductive ReachedPlain (γ : Type) [Streambuf γ] (depth : Nat) : Serial β → Prop where
  | buffer (memory : Object) : ReachedPlain γ depth (ofBuffer memory.val false)
  | stream (io : IOStream β) (writable readable : Bool) :
      ReachedPlain γ depth
        { stream := some io, writeStreamPointer := writable, readStreamPointer := readable }
  | call {s s' : Serial β} (call : SerialCall β γ) (hreached : ReachedPlain γ depth s)
      (hcall : call.perform depth s = .ok s') : ReachedPlain γ depth s'

/-- How many bytes `readBytes` stores at its destination outside bit-stream mode. -/
def delivered (s : Serial β) (size : Nat) : Nat :=
  if s.isBufferSerial then
    if PassesTest s.bufferReadIndex s.bufferSize size then size else 0
  else
    match s.readStream with
    | some io => (io.read (toInt64 size)).1.length
    | none => 0

/-- If the read is short, the next `did_not_read_whole_size()` returns true, and
`get_last_bytes_read()` is what was delivered.  Nothing follows a read whose copy leaves the
buffer. -/
def ReportsShort (depth : Nat) (s : Serial β) (dest : List UInt8) (size : Nat) : Prop :=
  readBytes depth s dest size = .error .fault ∨
    ∃ count dest' s', readBytes depth s dest size = .ok (count, dest', s') ∧
      count = toInt64 (s.delivered size) ∧
      (s.delivered size < size →
        s'.didNotReadWholeSize.1 = true ∧ s'.lastBytesRead = s.delivered size)

end Calls

/-! ## What every call keeps -/

/-- A `Serial` outside bit-stream mode which reads from a stream or from a buffer. -/
structure Attached (s : Serial β) : Prop where
  notCount : s.isCountSerial = false
  notPassthrough : s.passthroughPtr = none
  plain : s.bitStream = false
  notBuffer : s.readStreamPointer = true → s.isBufferSerial = false
  connected : s.readStreamPointer = true → s.stream.isSome = true

/-- Between two calls no offset is left for the read stream. -/
structure Idle (s : Serial β) : Prop extends Attached s where
  noOffset : s.readStreamPointer = true → s.nextReadOffset = 0

theorem Attached.readStream_eq {s : Serial β} (hattached : s.Attached)
    (hpointer : s.readStreamPointer = true) : ∃ io, s.readStream = some io := by
  obtain ⟨io, hio⟩ := Option.isSome_iff_exists.mp (hattached.connected hpointer)
  exact ⟨io, by rw [Serial.readStream, if_pos hpointer, hio]⟩

theorem Attached.readStream_none {s : Serial β} (hpointer : ¬s.readStreamPointer = true) :
    s.readStream = none := if_neg hpointer

/-- Another stream. -/
theorem Attached.setStream {s : Serial β} (hattached : s.Attached) (io : IOStream β) :
    (s.setStream io).Attached :=
  ⟨hattached.notCount, hattached.notPassthrough, hattached.plain, hattached.notBuffer, fun _ => rfl⟩

theorem Idle.setStream {s : Serial β} (hidle : s.Idle) (io : IOStream β) :
    (s.setStream io).Idle :=
  ⟨hidle.toAttached.setStream io, hidle.noOffset⟩

section Reading

variable [Streambuf β] [Streambuf γ]

theorem Attached.getReadPosition {s : Serial β} (hattached : s.Attached) :
    s.getReadPosition.2.Attached ∧ s.getReadPosition.2.nextReadOffset = s.nextReadOffset ∧
      s.getReadPosition.2.readStreamPointer = s.readStreamPointer := by
  unfold Serial.getReadPosition
  rw [if_neg (by simp [hattached.notCount])]
  split
  · exact ⟨hattached, rfl, rfl⟩
  · cases s.readStream with
    | none => exact ⟨hattached, rfl, rfl⟩
    | some io => exact ⟨hattached.setStream _, rfl, rfl⟩

theorem Idle.getReadPosition {s : Serial β} (hidle : s.Idle) : s.getReadPosition.2.Idle := by
  obtain ⟨hattached, hoffset, hpointer⟩ := hidle.toAttached.getReadPosition
  exact ⟨hattached, fun hset => hoffset.trans (hidle.noOffset (hpointer.symm.trans hset))⟩

/-- A block read on a stream. -/
theorem Attached.readBytes_stream {s : Serial β} (hattached : s.Attached)
    (hpointer : s.readStreamPointer = true) {io : IOStream β} (hstream : s.readStream = some io)
    (depth : Nat) (dest : List UInt8) (size : Nat) :
    readBytes (depth + 1) s dest size = .ok (s.readStreamBytes io dest size) := by
  simp only [Serial.readBytes, hattached.notCount, hattached.notBuffer hpointer,
    hattached.notPassthrough, hstream, hattached.plain, Bool.false_eq_true, if_false]

/-- A block read without a read stream. -/
theorem Attached.readBytes_disconnected {s : Serial β} (hattached : s.Attached)
    (hpointer : ¬s.readStreamPointer = true) (hbuffer : s.isBufferSerial = false)
    (depth : Nat) (dest : List UInt8) (size : Nat) :
    readBytes (depth + 1) s dest size = .ok (0, dest, s) := by
  simp only [Serial.readBytes, hattached.notCount, hbuffer, hattached.notPassthrough,
    Attached.readStream_none hpointer, Bool.false_eq_true, if_false]

omit [Streambuf β] in
theorem state_of_ok {result : Int × List UInt8 × Serial β} {count : Int} {dest : List UInt8}
    {s : Serial β}
    (hresult : (Except.ok result : Except Halt _) = .ok (count, dest, s)) : result.2.2 = s := by
  cases hresult
  rfl

/-- Whatever offset was left before a block read, none is left after it. -/
theorem Attached.readBytes {s s' : Serial β} (hattached : s.Attached) {depth : Nat}
    {dest dest' : List UInt8} {size : Nat} {count : Int}
    (hread : readBytes depth s dest size = .ok (count, dest', s')) : s'.Idle := by
  cases depth with
  | zero => cases hread
  | succ depth =>
      by_cases hpointer : s.readStreamPointer = true
      · obtain ⟨io, hstream⟩ := hattached.readStream_eq hpointer
        rw [hattached.readBytes_stream hpointer hstream] at hread
        rw [← state_of_ok hread]
        exact ⟨⟨hattached.notCount, hattached.notPassthrough, hattached.plain, hattached.notBuffer,
          fun _ => rfl⟩, fun _ => rfl⟩
      · have hidle : s.Idle := ⟨hattached, fun hset => absurd hset hpointer⟩
        by_cases hbuffer : s.isBufferSerial = true
        · by_cases hpasses : PassesTest s.bufferReadIndex s.bufferSize size
          · by_cases hwithin : (Memcpy.mk s.bufferReadIndex size).Within s.bufferSize
            · rw [readBytes_copied hattached.notCount hbuffer hpasses hwithin] at hread
              rw [← state_of_ok hread]
              exact ⟨⟨hattached.notCount, hattached.notPassthrough, hattached.plain,
                hattached.notBuffer, hattached.connected⟩, hidle.noOffset⟩
            · rw [readBytes_fault hattached.notCount hbuffer hpasses hwithin] at hread
              cases hread
          · rw [readBytes_tested hattached.notCount hbuffer, if_neg hpasses] at hread
            rw [← state_of_ok hread]
            exact hidle
        · rw [hattached.readBytes_disconnected hpointer (by simpa using hbuffer)] at hread
          rw [← state_of_ok hread]
          exact hidle

omit [Streambuf β] in
theorem Idle.refilled {s : Serial β} (hidle : s.Idle) (dest : List UInt8) :
    (s.refilled dest).Idle :=
  ⟨⟨hidle.notCount, hidle.notPassthrough, hidle.plain, hidle.notBuffer, hidle.connected⟩,
    hidle.noOffset⟩

omit [Streambuf β] in
theorem Idle.takeReadBit {s : Serial β} (hidle : s.Idle) : s.takeReadBit.2.Idle :=
  ⟨⟨hidle.notCount, hidle.notPassthrough, hidle.plain, hidle.notBuffer, hidle.connected⟩,
    hidle.noOffset⟩

theorem Idle.readBit {s s' : Serial β} (hidle : s.Idle) {depth : Nat} {bit : Bool}
    (hread : readBit depth s = .ok (bit, s')) : s'.Idle := by
  cases depth with
  | zero => cases hread
  | succ depth =>
      rw [Serial.readBit] at hread
      have hneeds : s.needsReadByte.2.Idle := by
        unfold needsReadByte
        split
        · exact hidle
        · exact hidle.getReadPosition
      split at hread
      · generalize s.needsReadByte = needs at hread hneeds
        obtain ⟨needed, s₁⟩ := needs
        simp only at hread hneeds
        split at hread
        · cases hbytes : readBytes depth s₁ [s₁.currentReadByte] 1 with
          | error halt =>
              rw [hbytes] at hread
              cases hread
          | ok result =>
              obtain ⟨count, dest, s₂⟩ := result
              rw [hbytes] at hread
              have hbit := (hneeds.toAttached.readBytes hbytes).refilled dest |>.takeReadBit
              rw [Except.ok.inj hread] at hbit
              exact hbit
        · have hbit := hneeds.takeReadBit
          rw [Except.ok.inj hread] at hbit
          exact hbit
      · have hbit := hidle.takeReadBit
        rw [Except.ok.inj hread] at hbit
        exact hbit

theorem Idle.readByte {s s' : Serial β} (hidle : s.Idle) {depth : Nat} {byte : UInt8}
    (hread : readByte depth s = .ok (byte, s')) : s'.Idle := by
  cases depth with
  | zero => cases hread
  | succ depth =>
      rw [Serial.readByte, if_neg (by simp [hidle.plain])] at hread
      cases hbytes : readBytes depth s [s.currentReadByte] 1 with
      | error halt =>
          rw [hbytes] at hread
          cases hread
      | ok result =>
          obtain ⟨count, dest, s₁⟩ := result
          rw [hbytes] at hread
          have hbyte := (hidle.toAttached.readBytes hbytes).refilled dest
          rw [(Prod.mk.inj (Except.ok.inj hread)).2] at hbyte
          exact hbyte

theorem Attached.startAfter {s : Serial β} (hattached : s.Attached) (bufferRead : Int) :
    (s.startAfter bufferRead).pushByteReadBuffer.Attached := by
  have hstart : (s.startAfter bufferRead).Attached := by
    unfold Serial.startAfter
    split
    · have hposition := hattached.getReadPosition.1
      exact ⟨hposition.notCount, hposition.notPassthrough, hposition.plain, hposition.notBuffer,
        hposition.connected⟩
    · exact hattached
  exact ⟨hstart.notCount, hstart.notPassthrough, hstart.plain, hstart.notBuffer,
    hstart.connected⟩

omit [Streambuf β] in
theorem Idle.popByteReadBuffer {s : Serial β} (hidle : s.Idle) : s.popByteReadBuffer.Idle := by
  unfold Serial.popByteReadBuffer
  split
  · exact ⟨⟨hidle.notCount, hidle.notPassthrough, hidle.plain, hidle.notBuffer, hidle.connected⟩,
      hidle.noOffset⟩
  · exact hidle

/-- The offset that is left for the read stream is used up by the read that follows. -/
theorem Idle.readBytesAfterReplay {s s' : Serial β} (hidle : s.Idle) {depth : Nat}
    {buffer buffer' : Serial γ} {dest dest' : List UInt8} {size : Nat}
    {beginPos bufferRead count : Int}
    (hread : readBytesAfterReplay depth s buffer dest size beginPos bufferRead =
      .ok (count, dest', s', buffer')) : s'.Idle := by
  unfold Serial.readBytesAfterReplay at hread
  split at hread
  · have hmain := (Prod.mk.inj (Prod.mk.inj (Prod.mk.inj (Except.ok.inj hread)).2).2).1
    rw [← hmain]
    exact ⟨⟨hidle.notCount, hidle.notPassthrough, hidle.plain, hidle.notBuffer, hidle.connected⟩,
      hidle.noOffset⟩
  · cases hbytes : readBytes depth (s.startAfter bufferRead).pushByteReadBuffer dest size with
    | error halt =>
        simp only [hbytes] at hread
        cases hread
    | ok result =>
        obtain ⟨mainReadBytes, dest₁, s₁⟩ := result
        have hmain := ((hidle.toAttached.startAfter bufferRead).readBytes hbytes).popByteReadBuffer
        simp only [hbytes, ok_bind] at hread
        cases hpeek : s₁.peekByteReadBuffer with
        | error halt =>
            simp only [hpeek] at hread
            cases hread
        | ok popped =>
            simp only [hpeek, ok_bind] at hread
            cases hkeep : keepReplay depth buffer popped
                (toSizeT (beginPos + bufferRead + popped.length)) with
            | error halt =>
                simp only [hkeep] at hread
                cases hread
            | ok kept =>
                simp only [hkeep, ok_bind] at hread
                rw [← (Prod.mk.inj (Prod.mk.inj (Prod.mk.inj (Except.ok.inj hread)).2).2).1]
                exact hmain

theorem Idle.readBytesWithBuffer {s s' : Serial β} (hidle : s.Idle) {depth : Nat}
    {buffer buffer' : Serial γ} {dest dest' : List UInt8} {size : Nat} {count : Int}
    (hread : readBytesWithBuffer depth s buffer dest size = .ok (count, dest', s', buffer')) :
    s'.Idle := by
  unfold Serial.readBytesWithBuffer at hread
  generalize buffer.getReadPosition = begun at hread
  obtain ⟨beginPos, buffer₁⟩ := begun
  cases hreplay : readBytes depth buffer₁ dest size with
  | error halt =>
      simp only [hreplay] at hread
      cases hread
  | ok result =>
      obtain ⟨bufferRead, dest₁, buffer₂⟩ := result
      simp only [hreplay, ok_bind] at hread
      exact hidle.readBytesAfterReplay hread

end Reading

section Writing

variable [Streambuf β]

theorem Idle.writeBytes {s s' : Serial β} (hidle : s.Idle) {depth : Nat} {src : List UInt8}
    {count : Int} (hwrite : writeBytes depth s src = .ok (count, s')) : s'.Idle := by
  cases depth with
  | zero => cases hwrite
  | succ depth =>
      by_cases hbuffer : s.isBufferSerial = true
      · rw [writeBytes_tested hidle.notCount hbuffer] at hwrite
        split at hwrite
        · rw [← (Prod.mk.inj (Except.ok.inj hwrite)).2]
          exact ⟨⟨hidle.notCount, hidle.notPassthrough, hidle.plain, hidle.notBuffer,
            hidle.connected⟩, hidle.noOffset⟩
        · rw [← (Prod.mk.inj (Except.ok.inj hwrite)).2]
          exact hidle
      · cases hstream : s.writeStream with
        | none =>
            simp only [Serial.writeBytes, hidle.notCount, hbuffer, hidle.notPassthrough, hstream,
              Bool.false_eq_true, if_false] at hwrite
            rw [← (Prod.mk.inj (Except.ok.inj hwrite)).2]
            exact hidle
        | some io =>
            simp only [Serial.writeBytes, hidle.notCount, hbuffer, hidle.notPassthrough, hstream,
              hidle.plain, Bool.false_eq_true, if_false] at hwrite
            rw [← (Prod.mk.inj (Except.ok.inj hwrite)).2]
            exact hidle.setStream _

theorem Idle.writeByte {s s' : Serial β} (hidle : s.Idle) {depth : Nat} {byte : UInt8}
    (hwrite : writeByte depth s byte = .ok s') : s'.Idle := by
  cases depth with
  | zero => cases hwrite
  | succ depth =>
      rw [Serial.writeByte, if_neg (by simp [hidle.plain])] at hwrite
      cases hbytes : Serial.writeBytes depth s [byte] with
      | error halt =>
          rw [hbytes] at hwrite
          cases hwrite
      | ok result =>
          obtain ⟨count, s₁⟩ := result
          have hnext := hidle.writeBytes hbytes
          rw [hbytes] at hwrite
          rw [← Except.ok.inj hwrite]
          exact ⟨⟨hnext.notCount, hnext.notPassthrough, hnext.plain, hnext.notBuffer,
            hnext.connected⟩, hnext.noOffset⟩

omit [Streambuf β] in
/-- The accumulator of bits may change. -/
theorem Idle.withWriteBits {s : Serial β} (hidle : s.Idle) (byte : UInt8) (count : Nat) :
    (s.withWriteBits byte count).Idle :=
  ⟨⟨hidle.notCount, hidle.notPassthrough, hidle.plain, hidle.notBuffer, hidle.connected⟩,
    hidle.noOffset⟩

theorem Idle.writeBit {s s' : Serial β} (hidle : s.Idle) {depth : Nat} {bit : Bool}
    (hwrite : writeBit depth s bit = .ok s') : s'.Idle := by
  cases depth with
  | zero => cases hwrite
  | succ depth =>
      have hput : (s.putWriteBit bit).Idle := hidle.withWriteBits _ _
      rw [Serial.writeBit] at hwrite
      split at hwrite
      · exact hput.writeByte hwrite
      · rw [← Except.ok.inj hwrite]
        exact hput

omit [Streambuf β] in
/-- An operation on a stream that the `Serial` may have. -/
theorem Idle.onStream {s : Serial β} (hidle : s.Idle) (stream : Option (IOStream β))
    (operation : IOStream β → IOStream β) :
    (match stream with
      | some io => s.setStream (operation io)
      | none => s).Idle := by
  cases stream with
  | none => exact hidle
  | some io => exact hidle.setStream _

theorem Idle.synchronize {s s' : Serial β} (hidle : s.Idle) {depth : Nat}
    (hsync : synchronize depth s = .ok s') : s'.Idle := by
  unfold Serial.synchronize at hsync
  by_cases hpending : 0 < s.bitsWrittenWriteByte ∧ s.bitsWrittenWriteByte < 8
  · simp only [if_pos hpending] at hsync
    cases hbyte : Serial.writeByte depth { s with bitsWrittenWriteByte := 8 }
        s.currentWriteByte with
    | error halt =>
        rw [hbyte] at hsync
        cases hsync
    | ok written =>
        have hwritten := (hidle.withWriteBits s.currentWriteByte 8).writeByte hbyte
        rw [hbyte] at hsync
        rw [← Except.ok.inj hsync]
        exact (hwritten.onStream written.writeStream IOStream.flush).onStream _ IOStream.sync
  · simp only [if_neg hpending] at hsync
    rw [← Except.ok.inj hsync]
    exact (hidle.onStream s.writeStream IOStream.flush).onStream _ IOStream.sync

end Writing

section Reports

variable [Streambuf β] [Streambuf γ]

omit [Streambuf β] in
theorem Idle.clearRead {s : Serial β} (hidle : s.Idle) : s.clearRead.Idle := by
  have hcleared : ∀ t : Serial β, t.Idle →
      Idle { t with lastSizeMismatchFlag := false, sizeMismatchFlag := false } := fun t ht =>
    ⟨⟨ht.notCount, ht.notPassthrough, ht.plain, ht.notBuffer, ht.connected⟩, ht.noOffset⟩
  unfold Serial.clearRead
  cases s.readStream with
  | none => exact hcleared s hidle
  | some io => exact hcleared _ (hidle.setStream _)

theorem Idle.setReadPosition {s : Serial β} (hidle : s.Idle) (index : Nat) :
    (s.setReadPosition index).Idle := by
  unfold Serial.setReadPosition
  rw [if_neg (by simp [hidle.notCount])]
  split
  · exact ⟨⟨hidle.notCount, hidle.notPassthrough, hidle.plain, hidle.notBuffer, hidle.connected⟩,
      hidle.noOffset⟩
  · cases s.readStream with
    | none => exact hidle
    | some io => exact hidle.setStream _

theorem Idle.setWritePosition {s : Serial β} (hidle : s.Idle) (index : Nat) :
    (s.setWritePosition index).Idle := by
  unfold Serial.setWritePosition
  rw [if_neg (by simp [hidle.notCount])]
  split
  · exact ⟨⟨hidle.notCount, hidle.notPassthrough, hidle.plain, hidle.notBuffer, hidle.connected⟩,
      hidle.noOffset⟩
  · cases s.writeStream with
    | none => exact hidle
    | some io => exact hidle.setStream _

/-- The state a call leaves is the one its function leaves. -/
theorem ok_of_state {α ω : Type} {result : Except Halt α} {state : α → ω} {final : ω}
    (hresult : (result >>= fun value => .ok (state value)) = .ok final) :
    ∃ value, result = .ok value ∧ state value = final := by
  cases result with
  | error halt => cases hresult
  | ok value => exact ⟨value, rfl, Except.ok.inj hresult⟩

theorem Idle.perform {s s' : Serial β} (hidle : s.Idle) {depth : Nat} (call : SerialCall β γ)
    (hcall : call.perform depth s = .ok s') : s'.Idle := by
  cases call with
  | readBytes dest size =>
      obtain ⟨⟨count, dest', s₁⟩, hread, rfl⟩ := ok_of_state hcall
      exact hidle.toAttached.readBytes hread
  | readBytesWithBuffer dest size buffer =>
      obtain ⟨⟨count, dest', s₁, buffer'⟩, hread, rfl⟩ := ok_of_state hcall
      exact hidle.readBytesWithBuffer hread
  | readBit =>
      obtain ⟨⟨bit, s₁⟩, hread, rfl⟩ := ok_of_state hcall
      exact hidle.readBit hread
  | readByte =>
      obtain ⟨⟨byte, s₁⟩, hread, rfl⟩ := ok_of_state hcall
      exact hidle.readByte hread
  | writeBytes src =>
      obtain ⟨⟨count, s₁⟩, hwrite, rfl⟩ := ok_of_state hcall
      exact hidle.writeBytes hwrite
  | writeBit bit => exact hidle.writeBit hcall
  | writeByte byte => exact hidle.writeByte hcall
  | synchronize => exact hidle.synchronize hcall
  | didNotReadWholeSize =>
      cases hcall
      exact ⟨⟨hidle.notCount, hidle.notPassthrough, hidle.plain, hidle.notBuffer,
        hidle.connected⟩, hidle.noOffset⟩
  | clearRead =>
      cases hcall
      exact hidle.clearRead
  | getReadPosition =>
      cases hcall
      exact hidle.getReadPosition
  | setReadPosition index =>
      cases hcall
      exact hidle.setReadPosition _
  | setWritePosition index =>
      cases hcall
      exact hidle.setWritePosition _
  | pushByteReadBuffer =>
      cases hcall
      exact ⟨⟨hidle.notCount, hidle.notPassthrough, hidle.plain, hidle.notBuffer,
        hidle.connected⟩, hidle.noOffset⟩
  | pushReadBytes data expectedSize =>
      cases hcall
      exact ⟨⟨hidle.notCount, hidle.notPassthrough, hidle.plain, hidle.notBuffer,
        hidle.connected⟩, hidle.noOffset⟩
  | popByteReadBuffer =>
      cases hcall
      exact hidle.popByteReadBuffer
  | changeStream io =>
      cases hcall
      exact hidle.setStream io

theorem ReachedPlain.idle {depth : Nat} {s : Serial β} (hreached : ReachedPlain γ depth s) :
    s.Idle := by
  induction hreached with
  | buffer memory => exact ⟨⟨rfl, rfl, rfl, (nomatch ·), (nomatch ·)⟩, (nomatch ·)⟩
  | stream io writable readable => exact ⟨⟨rfl, rfl, rfl, fun _ => rfl, fun _ => rfl⟩, fun _ => rfl⟩
  | call call hreached hcall ih => exact ih.perform call hcall

/-- Whatever a stream delivers, less than was asked for is flagged and counted. -/
theorem Idle.reportsShort_stream {s : Serial β} (hidle : s.Idle)
    (hpointer : s.readStreamPointer = true) (depth : Nat) (dest : List UInt8) {size : Nat}
    (hsize : size < 2 ^ 64) : ReportsShort (depth + 1) s dest size := by
  obtain ⟨io, hstream⟩ := hidle.readStream_eq hpointer
  have hbuffer := hidle.notBuffer hpointer
  have hoffset := hidle.noOffset hpointer
  have hreading : toSizeT ((size : Int) - s.nextReadOffset) = size := by
    rw [hoffset, Int.sub_zero]
    exact toSizeT_natCast hsize
  have hdelivered : s.delivered size = (io.read (toInt64 size)).1.length := by
    simp only [delivered, hbuffer, hstream, Bool.false_eq_true, if_false]
  have hcount := io.gcount_read (toInt64 size)
  refine Or.inr ⟨_, _, _, hidle.readBytes_stream hpointer hstream depth dest size, ?_,
    fun hshort => ?_⟩
  · show toInt64 (toSizeT (io.read (toInt64 (toSizeT (size - s.nextReadOffset)))).2.gcount) = _
    rw [hreading, hdelivered, toInt64_toSizeT, hcount]
  · rw [hdelivered] at hshort ⊢
    have hread : toSizeT (io.read (toInt64 size)).2.gcount = (io.read (toInt64 size)).1.length := by
      rw [hcount]
      exact toSizeT_natCast (by omega)
    constructor
    · show (s.sizeMismatchFlag ||
        toSizeT (io.read (toInt64 (toSizeT (size - s.nextReadOffset)))).2.gcount !=
          toSizeT (size - s.nextReadOffset) ||
        (io.read (toInt64 (toSizeT (size - s.nextReadOffset)))).1.length !=
          toSizeT (size - s.nextReadOffset)) = true
      rw [hreading]
      simp [Nat.ne_of_lt hshort]
    · show toSizeT (io.read (toInt64 (toSizeT (size - s.nextReadOffset)))).2.gcount = _
      rw [hreading, hread]

/-- Otherwise everything is delivered or nothing, and the state is the same. -/
theorem Idle.reportsShort_buffer {s : Serial β} (hidle : s.Idle)
    (hpointer : ¬s.readStreamPointer = true) (depth : Nat) (dest : List UInt8) (size : Nat) :
    ReportsShort (depth + 1) s dest size ↔
      (s.isBufferSerial = true ∧ PassesTest s.bufferReadIndex s.bufferSize size) ∨
        size = 0 ∨ (s.sizeMismatchFlag = true ∧ s.lastBytesRead = 0) := by
  by_cases hpasses : s.isBufferSerial = true ∧ PassesTest s.bufferReadIndex s.bufferSize size
  · have hdelivered : s.delivered size = size := by
      simp only [delivered, hpasses.1, hpasses.2, if_true]
    refine iff_of_true ?_ (Or.inl hpasses)
    by_cases hwithin : (Memcpy.mk s.bufferReadIndex size).Within s.bufferSize
    · have hread := readBytes_copied hidle.notCount hpasses.1 hpasses.2 hwithin depth dest
      refine Or.inr ⟨_, _, _, hread, by rw [hdelivered], fun hshort => ?_⟩
      rw [hdelivered] at hshort
      exact absurd hshort (Nat.lt_irrefl size)
    · exact Or.inl (readBytes_fault hidle.notCount hpasses.1 hpasses.2 hwithin depth dest)
  · have hread : readBytes (depth + 1) s dest size = .ok (0, dest, s) := by
      by_cases hbuffer : s.isBufferSerial = true
      · rw [readBytes_tested hidle.notCount hbuffer,
          if_neg fun htest => hpasses ⟨hbuffer, htest⟩]
      · exact hidle.readBytes_disconnected hpointer (by simpa using hbuffer) depth dest size
    have hdelivered : s.delivered size = 0 := by
      unfold delivered
      by_cases hbuffer : s.isBufferSerial = true
      · rw [if_pos hbuffer, if_neg fun htest => hpasses ⟨hbuffer, htest⟩]
      · rw [if_neg hbuffer, Attached.readStream_none hpointer]
    constructor
    · rintro (hfault | ⟨count, dest', s', hread', -, hreport⟩)
      · rw [hread] at hfault
        cases hfault
      rw [hread] at hread'
      rw [← state_of_ok hread', hdelivered] at hreport
      by_cases hsize : size = 0
      · exact Or.inr (Or.inl hsize)
      · exact Or.inr (Or.inr (hreport (by omega)))
    · rintro (hpassed | hzero | hstale)
      · exact absurd hpassed hpasses
      · exact Or.inr ⟨_, _, _, hread, by rw [hdelivered]; rfl, fun hshort => by omega⟩
      · refine Or.inr ⟨_, _, _, hread, by rw [hdelivered]; rfl, fun _ => ?_⟩
        rw [hdelivered]
        exact hstale

/-- **Short reads.**  In every state that is reached a short read is reported exactly if the
`Serial` reads from a stream, or the read is not short, or the mismatch of an earlier call still
stands for it. -/
theorem shortReads_reported_iff (depth : Nat) {s : Serial β}
    (hreached : ReachedPlain γ depth s) (dest : List UInt8) (size : UInt64) :
    ReportsShort (depth + 1) s dest size.toNat ↔
      s.readStreamPointer = true ∨
        (s.isBufferSerial = true ∧ PassesTest s.bufferReadIndex s.bufferSize size.toNat) ∨
        size = 0 ∨ (s.sizeMismatchFlag = true ∧ s.lastBytesRead = 0) := by
  have hidle := hreached.idle
  have hzero : size.toNat = 0 ↔ size = 0 := by
    rw [← UInt64.toNat_inj]
    rfl
  by_cases hpointer : s.readStreamPointer = true
  · exact iff_of_true
      (hidle.reportsShort_stream hpointer depth dest (UInt64.toNat_lt_size size))
      (Or.inl hpointer)
  · rw [hidle.reportsShort_buffer hpointer, hzero]
    simp only [hpointer, Bool.false_eq_true, false_or]

/-- A stream with two bytes left. -/
theorem shortReads_reported_stream :
    ReportsShort 1 (ofStream { rdbuf := Stringbuf.ofString [1, 2] } false) [0, 0, 0, 0] 4 :=
  (shortReads_reported_iff (γ := Stringbuf) 0 (ReachedPlain.stream _ true true) _ 4).mpr
    (Or.inl rfl)

/-- A buffer of two bytes delivers none of four, and reports nothing. -/
theorem not_shortReads_reported :
    ReachedPlain Stringbuf 1 (ofBuffer [1, 2] false : Serial Stringbuf) ∧
      readBytes 1 (ofBuffer [1, 2] false : Serial Stringbuf) [0, 0, 0, 0] 4 =
        .ok (0, [0, 0, 0, 0], ofBuffer [1, 2] false) ∧
      (ofBuffer [1, 2] false : Serial Stringbuf).didNotReadWholeSize.1 = false ∧
      ¬ReportsShort 1 (ofBuffer [1, 2] false : Serial Stringbuf) [0, 0, 0, 0] 4 := by
  have hreached : ReachedPlain Stringbuf 1 (ofBuffer [1, 2] false : Serial Stringbuf) :=
    ReachedPlain.buffer ⟨[1, 2], by decide⟩
  refine ⟨hreached, rfl, rfl, ?_⟩
  rintro (hfault | ⟨count, dest, s', hread, -, hreport⟩)
  · cases hfault
  rw [← state_of_ok hread] at hreport
  exact absurd (hreport (by decide)).1 (by decide)

end Reports

end Serial
end Iostreams
