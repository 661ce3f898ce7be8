import Iostreams.Serial.State
import Iostreams.Foundation.BitPacking

/-!
# Bit, byte and block transfers

`readBit`, `readByte` and `readBytes` call each other, and so do `writeBit`,
`writeByte` and `writeBytes`: a block transfer on a bit stream is a loop of
byte transfers, an unaligned byte transfer a loop of bit transfers, and a bit
transfer refills or flushes the current byte through a block transfer of one
byte.  Each call spends one unit of the depth it is given.  On the counter and
buffer backends a block transfer calls nothing, so that a small depth suffices
there.

`readBytes` returns the source's return value together with the contents of
the destination after the call.  On a buffer it copies whatever its test lets
through; a copy that leaves the buffer is a fault.
-/

namespace Iostreams

open Foundation

namespace Serial

variable {β : Type}

/-! ## Pieces of the read functions -/

/-- `currentReadByte & (1 << (bitsReadReadByte++))`, on the sign-extended byte. -/
def takeReadBit (s : Serial β) : Bool × Serial β :=
  (s.currentReadByte.toNat.testBit (min s.bitsReadReadByte 7),
    { s with bitsReadReadByte := s.bitsReadReadByte + 1 })

/-- Store the byte a refill delivered. -/
def refilled (s : Serial β) (dest : List UInt8) : Serial β :=
  { s with currentReadByte := dest.headD 0, bitsReadReadByte := 0 }

/-- `for (e = 8 - count; e < 8; e++) byte |= readBit() << e` -/
def readByteBits (readBit : Serial β → Except Halt (Bool × Serial β)) :
    Nat → UInt8 → Serial β → Except Halt (UInt8 × Serial β)
  | 0, byte, s => .ok (byte, s)
  | count + 1, byte, s => do
      let (bit, s) ← readBit s
      readByteBits readBit count (byte ||| UInt8.ofNat (bit.toNat <<< (8 - (count + 1)))) s

/-- `count` calls of `readByte`, in order. -/
def readByteTimes (readByte : Serial β → Except Halt (UInt8 × Serial β)) :
    Nat → Serial β → Except Halt (List UInt8 × Serial β)
  | 0, s => .ok ([], s)
  | count + 1, s => do
      let (byte, s) ← readByte s
      let (bytes, s) ← readByteTimes readByte count s
      .ok (byte :: bytes, s)

section Reading

variable [Streambuf β]

/-- `!next_read_offset || start_read_offset_position + next_read_offset > getReadPosition()` -/
def needsReadByte (s : Serial β) : Bool × Serial β :=
  if s.nextReadOffset = 0 then (true, s)
  else
    let (position, s) := s.getReadPosition
    (decide (position < s.startReadOffsetPosition + s.nextReadOffset), s)

/-- The two status flags `readBytes` derives from a stream transfer: a short
transfer sets one of them, an empty one only the second. -/
def noteAvailability (s : Serial β) (bytesRead readingBytes : Nat) (avail : Int) : Serial β :=
  let atEof := bytesRead ≠ readingBytes ∧ avail = -1
  let atEmpty := (bytesRead = 0 ∨ bytesRead ≠ readingBytes) ∧ avail = 0
  { s with
    readEof := if atEof then true else if atEmpty then s.readEof else false
    readEmpty := if atEof then s.readEmpty else decide atEmpty }

/-- What `readBytes` records once the stream has delivered `bytes`. -/
def received (s : Serial β) (io : IOStream β) (bytes : List UInt8)
    (bytesRead readingBytes : Nat) : Serial β :=
  let s := { s with
    stream := some io
    sizeMismatchFlag := s.sizeMismatchFlag || bytesRead != readingBytes }
  let s := s.pushReadBytes bytes readingBytes
  let s := s.noteAvailability bytesRead readingBytes (Streambuf.inAvail io.rdbuf)
  { s with
    nextReadOffset := 0
    startReadOffsetPosition := if s.nextReadOffset ≠ 0 then 0 else s.startReadOffsetPosition
    lastBytesRead := bytesRead }

/-- The stream part of `readBytes` outside bit-stream mode. -/
def readStreamBytes (s : Serial β) (io : IOStream β) (dest : List UInt8) (size : Nat) :
    Int × List UInt8 × Serial β :=
  let readingBytes := toSizeT (size - s.nextReadOffset)
  let (bytes, io) := io.read (toInt64 readingBytes)
  let bytesRead := toSizeT io.gcount
  (toInt64 bytesRead, overwrite dest s.nextReadOffset.toNat bytes,
    s.received io bytes bytesRead readingBytes)

mutual

def readBit : Nat → Serial β → Except Halt (Bool × Serial β)
  | 0, _ => .error .outOfFuel
  | depth + 1, s =>
      if s.bitsReadReadByte = 0 ∨ s.bitsReadReadByte = 8 then
        let (needed, s) := s.needsReadByte
        if needed then do
          let (_, dest, s) ← readBytes depth s [s.currentReadByte] 1
          .ok (s.refilled dest).takeReadBit
        else
          .ok s.takeReadBit
      else
        .ok s.takeReadBit

def readByte : Nat → Serial β → Except Halt (UInt8 × Serial β)
  | 0, _ => .error .outOfFuel
  | depth + 1, s =>
      if s.bitStream ∧ 0 < s.bitsReadReadByte ∧ s.bitsReadReadByte < 8 then
        readByteBits (readBit depth) 8 0 s
      else do
        let (_, dest, s) ← readBytes depth s [s.currentReadByte] 1
        let s := s.refilled dest
        .ok (s.currentReadByte, s)

def readBytes : Nat → Serial β → List UInt8 → Nat → Except Halt (Int × List UInt8 × Serial β)
  | 0, _, _, _ => .error .outOfFuel
  | depth + 1, s, dest, size =>
      if s.isCountSerial then
        .ok (toInt64 size, dest, { s with countReadIndex := toSizeT (s.countReadIndex + size) })
      else if s.isBufferSerial then
        if s.bufferReadIndex ≤ toInt64 (s.bufferSize - toInt64 size) then
          -- memcpy(dest, buffer_pointer + buffer_read_index, size)
          if (Memcpy.mk s.bufferReadIndex size).Within s.bufferSize then
            .ok (toInt64 size,
              overwrite dest 0 (slice s.bufferPointer s.bufferReadIndex.toNat size),
              { s with bufferReadIndex := toInt64 (s.bufferReadIndex + size) })
          else
            .error .fault
        else
          .ok (0, dest, s)
      else
        match s.passthroughPtr with
        | some passthrough =>
            let (result, dest) := passthrough.read dest size
            .ok (result, dest, s)
        | none =>
            match s.readStream with
            | none => .ok (0, dest, s)
            | some io =>
                if s.bitStream then do
                  let (bytes, s) ← readByteTimes (readByte depth) size s
                  .ok (toInt64 size, overwrite dest 0 bytes, { s with lastBytesRead := size })
                else
                  .ok (s.readStreamBytes io dest size)

end

end Reading

/-! ## Pieces of the write functions -/

/-- `currentWriteByte |= bit << (bitsWrittenWriteByte++)` -/
def putWriteBit (s : Serial β) (bit : Bool) : Serial β :=
  { s with
    currentWriteByte :=
      s.currentWriteByte ||| UInt8.ofNat (bit.toNat <<< s.bitsWrittenWriteByte)
    bitsWrittenWriteByte := s.bitsWrittenWriteByte + 1 }

/-- Call `write` on each item, in order. -/
def writeEach {α : Type} (write : Serial β → α → Except Halt (Serial β)) :
    List α → Serial β → Except Halt (Serial β)
  | [], s => .ok s
  | item :: rest, s => do
      let s ← write s item
      writeEach write rest s

section Writing

variable [Streambuf β]

mutual

def writeBit : Nat → Serial β → Bool → Except Halt (Serial β)
  | 0, _, _ => .error .outOfFuel
  | depth + 1, s, bit =>
      let s := s.putWriteBit bit
      if s.bitsWrittenWriteByte = 8 then writeByte depth s s.currentWriteByte else .ok s

def writeByte : Nat → Serial β → UInt8 → Except Halt (Serial β)
  | 0, _, _ => .error .outOfFuel
  | depth + 1, s, byte =>
      if s.bitStream ∧ 0 < s.bitsWrittenWriteByte ∧ s.bitsWrittenWriteByte < 8 then
        -- for (e = 0; e < 8; e++) writeBit(byte & (1 << e))
        writeEach (writeBit depth) (byteBits byte) s
      else do
        let (_, s) ← writeBytes depth s [byte]
        .ok { s with currentWriteByte := 0, bitsWrittenWriteByte := 0 }

def writeBytes : Nat → Serial β → List UInt8 → Except Halt (Int × Serial β)
  | 0, _, _ => .error .outOfFuel
  | depth + 1, s, src =>
      if s.isCountSerial then
        .ok (toInt64 src.length,
          { s with
            countWrite := toSizeT (s.countWrite + src.length)
            countWriteIndex := toSizeT (s.countWriteIndex + src.length) })
      else if s.isBufferSerial then
        if s.bufferWriteIndex ≤ toInt64 (s.bufferSize - toInt64 src.length) then
          .ok (toInt64 src.length,
            { s with
              bufferPointer := overwrite s.bufferPointer s.bufferWriteIndex.toNat src
              bufferWriteIndex := toInt64 (s.bufferWriteIndex + src.length) })
        else
          .ok (toInt64 src.length, s)
      else
        match s.passthroughPtr with
        | some passthrough => .ok (passthrough.write src, s)
        | none =>
            match s.writeStream with
            | none => .ok (0, s)
            | some io =>
                if s.bitStream then do
                  let s ← writeEach (writeByte depth) src s
                  .ok (0, s)
                else
                  .ok (toInt64 src.length, s.setStream (io.write src))

end

/-- Flush the pending bits, then the streams. -/
def synchronize (depth : Nat) (s : Serial β) : Except Halt (Serial β) := do
  let s ←
    if 0 < s.bitsWrittenWriteByte ∧ s.bitsWrittenWriteByte < 8 then
      writeByte depth { s with bitsWrittenWriteByte := 8 } s.currentWriteByte
    else
      .ok s
  let s := match s.writeStream with
    | some io => s.setStream io.flush
    | none => s
  let s := match s.readStream with
    | some io => s.setStream io.sync
    | none => s
  .ok s

end Writing

end Serial
end Iostreams
