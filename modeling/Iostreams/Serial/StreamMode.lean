import Iostreams.Serial.Transfer

/-!
# Transfers on a stream

A `Serial` over a stream that is not a bit stream hands a block transfer to
`istream::read` once and then records what came back (`Serial.received`).
The lemmas here describe that record field by field and say what a request on
a good stream returns, whatever part of it the buffer delivers.
-/

namespace Iostreams

open Foundation

namespace Serial

variable {β : Type}

/-- A plain `Serial` whose reads go to the stream `io`. -/
structure StreamMode (s : Serial β) (io : IOStream β) : Prop where
  notCount : s.isCountSerial = false
  notBuffer : s.isBufferSerial = false
  notPassthrough : s.passthroughPtr = none
  plain : s.bitStream = false
  connected : s.readStreamPointer = true
  stream : s.stream = some io

theorem streamMode_ofStream (io : IOStream β) : (ofStream io false).StreamMode io :=
  ⟨rfl, rfl, rfl, rfl, rfl, rfl⟩

theorem StreamMode.readStream {s : Serial β} {io : IOStream β} (hmode : s.StreamMode io) :
    s.readStream = some io := by
  rw [Serial.readStream, hmode.connected, hmode.stream]
  rfl

theorem StreamMode.setStream {s : Serial β} {io : IOStream β} (hmode : s.StreamMode io)
    (io' : IOStream β) : (s.setStream io').StreamMode io' :=
  ⟨hmode.notCount, hmode.notBuffer, hmode.notPassthrough, hmode.plain, hmode.connected, rfl⟩

variable [Streambuf β]

theorem readBytes_stream {s : Serial β} {io : IOStream β} (hmode : s.StreamMode io)
    (depth : Nat) (dest : List UInt8) (size : Nat) :
    readBytes (depth + 1) s dest size = .ok (s.readStreamBytes io dest size) := by
  simp [readBytes, hmode.notCount, hmode.notBuffer, hmode.notPassthrough, hmode.plain,
    hmode.readStream]

/-- On a good stream `tellg` changes nothing. -/
theorem getReadPosition_stream {s : Serial β} {io : IOStream β} (hmode : s.StreamMode io)
    (hgood : io.good = true) : s.getReadPosition = (Streambuf.tellIn io.rdbuf, s) := by
  have htell : io.tellg = (Streambuf.tellIn io.rdbuf, io) := if_pos hgood
  have hself : s.setStream io = s := by rw [Serial.setStream, ← hmode.stream]
  simp only [getReadPosition, hmode.notCount, hmode.notBuffer, hmode.readStream, htell, hself,
    Bool.false_eq_true, if_false]

theorem setReadPosition_stream {s : Serial β} {io : IOStream β} (hmode : s.StreamMode io)
    (index : Nat) :
    s.setReadPosition index = s.setStream (io.seekg (toInt64 index)) := by
  simp only [setReadPosition, hmode.notCount, hmode.notBuffer, hmode.readStream,
    Bool.false_eq_true, if_false]

omit [Streambuf β] in
theorem clearRead_stream {s : Serial β} {io : IOStream β} (hmode : s.StreamMode io) :
    s.clearRead =
      { s.setStream io.clear with lastSizeMismatchFlag := false, sizeMismatchFlag := false } := by
  rw [clearRead, hmode.readStream]

omit [Streambuf β] in
theorem StreamMode.clearRead {s : Serial β} {io : IOStream β} (hmode : s.StreamMode io) :
    s.clearRead.StreamMode io.clear := by
  obtain ⟨hcount, hbuffer, hpassthrough, hplain, hconnected, hstream⟩ := hmode.setStream io.clear
  rw [clearRead_stream hmode]
  exact ⟨hcount, hbuffer, hpassthrough, hplain, hconnected, hstream⟩

theorem writeBytes_stream {s : Serial β} {io : IOStream β} (hmode : s.StreamMode io)
    (hwritable : s.writeStreamPointer = true) (depth : Nat) (src : List UInt8) :
    writeBytes (depth + 1) s src = .ok (toInt64 src.length, s.setStream (io.write src)) := by
  have hstream : s.writeStream = some io := by
    rw [writeStream, hwritable, hmode.stream]
    rfl
  simp only [writeBytes, hmode.notCount, hmode.notBuffer, hmode.notPassthrough, hmode.plain,
    hstream, Bool.false_eq_true, if_false]

/-- No block read returns a size from `2 ^ 63` on. -/
theorem readStreamBytes_lt (s : Serial β) (io : IOStream β) (dest : List UInt8) (size : Nat) :
    (s.readStreamBytes io dest size).1 < 2 ^ 63 := by
  simp only [readStreamBytes]
  exact toInt64_lt _

/-! ## The record of a transfer -/

section Received

variable (s : Serial β) (io : IOStream β) (bytes : List UInt8) (bytesRead readingBytes : Nat)

@[simp] theorem nextReadOffset_received :
    (s.received io bytes bytesRead readingBytes).nextReadOffset = 0 := rfl

@[simp] theorem pushedReadBuffer_received :
    (s.received io bytes bytesRead readingBytes).pushedReadBuffer = s.pushedReadBuffer := rfl

@[simp] theorem lastSizeMismatchFlag_received :
    (s.received io bytes bytesRead readingBytes).lastSizeMismatchFlag =
      s.lastSizeMismatchFlag := rfl

@[simp] theorem writeStreamPointer_received :
    (s.received io bytes bytesRead readingBytes).writeStreamPointer = s.writeStreamPointer := rfl

/-- A transfer of everything requested clears the status flags, unless it was
an empty one with nothing left. -/
theorem flags_received_full (hfull : bytesRead = readingBytes)
    (hpos : 0 < bytesRead ∨ Streambuf.inAvail io.rdbuf ≠ 0) :
    (s.received io bytes bytesRead readingBytes).readEmpty = false ∧
      (s.received io bytes bytesRead readingBytes).readEof = false := by
  subst hfull
  have hnot : ¬(bytesRead = 0 ∧ Streambuf.inAvail io.rdbuf = 0) := by omega
  simp [received, noteAvailability, pushReadBytes, hnot]

/-- A transfer that left nothing behind and was short or empty is noted. -/
theorem readEmpty_received (hnone : bytesRead = 0 ∨ bytesRead ≠ readingBytes)
    (havail : Streambuf.inAvail io.rdbuf = 0) :
    (s.received io bytes bytesRead readingBytes).readEmpty = true := by
  simp [received, noteAvailability, hnone, havail]

theorem currentReadBuffer_received (hpushed : s.pushedReadBuffer = true) :
    (s.received io bytes bytesRead readingBytes).currentReadBuffer =
      s.currentReadBuffer ++ bytes :=
  if_pos hpushed

/-- A transfer changes the state of the stream only. -/
theorem StreamMode.received {s : Serial β} {io : IOStream β} (hmode : s.StreamMode io)
    (io' : IOStream β) : (s.received io' bytes bytesRead readingBytes).StreamMode io' :=
  ⟨hmode.notCount, hmode.notBuffer, hmode.notPassthrough, hmode.plain, hmode.connected, rfl⟩

end Received

/-- A request on a good stream returns what the buffer delivered, behind the
part of the destination that is already filled. -/
theorem readBytes_good {s : Serial β} {io : IOStream β} (hmode : s.StreamMode io)
    (hgood : io.good = true) {offset size : Nat} (hoffset : s.nextReadOffset = offset)
    (hle : offset ≤ size) (hsize : size < 2 ^ 63) {bytes : List UInt8} {rdbuf : β}
    (hget : Streambuf.sgetn io.rdbuf (size - offset : Nat) = (bytes, rdbuf))
    (hbytes : bytes.length < 2 ^ 64) (depth : Nat) (dest : List UInt8) :
    readBytes (depth + 1) s dest size =
      .ok (toInt64 bytes.length, overwrite dest offset bytes,
        s.received (io.afterRead rdbuf bytes (size - offset : Nat)) bytes bytes.length
          (size - offset)) := by
  have hreading : toSizeT ((size : Int) - (offset : Int)) = size - offset := by
    rw [← Int.ofNat_sub hle]
    exact toSizeT_natCast (by omega)
  have hcount : toInt64 ((size - offset : Nat) : Int) = (size - offset : Nat) :=
    toInt64_natCast (by omega)
  have hread := IOStream.read_of_good hgood hget
  rw [readBytes_stream hmode]
  simp only [readStreamBytes, hoffset, hreading, hcount, hread, IOStream.gcount_afterRead,
    toSizeT_natCast hbytes, Int.toNat_natCast]

/-- On a stream that is not good a request returns nothing. -/
theorem readBytes_not_good {s : Serial β} {io : IOStream β} (hmode : s.StreamMode io)
    (hgood : io.good = false) (depth : Nat) (dest : List UInt8) (size : Nat) :
    readBytes (depth + 1) s dest size =
      .ok (0, dest, s.received { io with gcount := 0, failbit := true } [] 0
        (toSizeT (size - s.nextReadOffset))) := by
  have hread := IOStream.read_of_not_good hgood
  have hzero : toSizeT 0 = 0 := rfl
  rw [readBytes_stream hmode]
  simp only [readStreamBytes, hread, overwrite_nil, hzero, Nat.cast_zero, toInt64_zero]

end Serial
end Iostreams
