import Iostreams.Foundation.Pipe
import Iostreams.Serial.WireValues

/-!
# A `Serial` over a pipe

`Channel s bytes room` says that `s` reads and writes one good stream whose buffer is a pipe that
holds `bytes`, and that nothing of an earlier transfer is left in the flags that a transfer looks
at.  A block that is written goes behind the bytes (`written`), and one that comes first is read
(`taken`).  `pipeBytes` is the wire over such a stream, and carries values of every type.
-/

namespace Iostreams

open Foundation

namespace Serial

variable {β γ : Type} [Pipe β]

/-- A plain `Serial` on one good stream whose buffer holds these bytes. -/
structure Channel (s : Serial β) (bytes : List UInt8) (room : Nat) : Prop where
  stream : ∃ io, s.StreamMode io ∧ io.good = true ∧ Pipe.Holding io.rdbuf bytes room
  writable : s.writeStreamPointer = true
  noOffset : s.nextReadOffset = 0
  noMismatch : s.lastSizeMismatchFlag = false

theorem channel_ofStream {io : IOStream β} (hgood : io.good = true) {bytes : List UInt8}
    {room : Nat} (hholding : Pipe.Holding io.rdbuf bytes room) :
    (ofStream io false).Channel bytes room :=
  ⟨⟨io, streamMode_ofStream io, hgood, hholding⟩, rfl, rfl, rfl⟩

namespace Channel

variable {s : Serial β} {bytes front back : List UInt8} {room : Nat}

theorem length_lt (hchannel : s.Channel bytes room) : bytes.length < 2 ^ 63 := by
  obtain ⟨io, -, -, hholding⟩ := hchannel.stream
  have hsize := Pipe.size_lt hholding
  omega

/-- The state after a block was written, whatever becomes of the accumulator. -/
theorem written (hchannel : s.Channel bytes room) {io : IOStream β} (hio : s.stream = some io)
    {src : List UInt8} (hroom : src.length ≤ room) (byte : UInt8) (count : Nat) :
    ((s.setStream (io.write src)).withWriteBits byte count).Channel (bytes ++ src)
      (room - src.length) := by
  obtain ⟨⟨io', hmode, hgood, hholding⟩, hwritable, hoffset, hmismatch⟩ := hchannel
  cases hio.symm.trans hmode.stream
  obtain ⟨hstill, hnext⟩ := Pipe.good_write hgood hholding hroom
  obtain ⟨hcount, hbuffer, hpassthrough, hplain, hconnected, hstream⟩ :=
    hmode.setStream (io.write src)
  exact ⟨⟨io.write src, ⟨hcount, hbuffer, hpassthrough, hplain, hconnected, hstream⟩, hstill,
    hnext⟩, hwritable, hoffset, hmismatch⟩

/-- The state after a block was read, whatever becomes of the accumulator. -/
theorem taken (hchannel : s.Channel (front ++ back) room) {io : IOStream β}
    (hio : s.stream = some io) {next : β}
    (hget : Streambuf.sgetn io.rdbuf front.length = (front, next)) (byte : UInt8) (count : Nat) :
    ((s.received (io.afterRead next front front.length) front front.length
      front.length).withReadBits byte count).Channel back
        (room + Pipe.regained β front.length) := by
  obtain ⟨⟨io', hmode, hgood, hholding⟩, hwritable, -, hmismatch⟩ := hchannel
  cases hio.symm.trans hmode.stream
  obtain ⟨next', hget', hnext⟩ := Pipe.get hholding
  cases hget.symm.trans hget'
  have hstill : (io.afterRead next front front.length).good = true := by
    rw [IOStream.good_afterRead hgood]
    exact decide_eq_true rfl
  obtain ⟨hcount, hbuffer, hpassthrough, hplain, hconnected, hstream⟩ :=
    hmode.received front front.length front.length (io.afterRead next front front.length)
  refine ⟨⟨_, ⟨hcount, hbuffer, hpassthrough, hplain, hconnected, hstream⟩, hstill, ?_⟩, hwritable,
    rfl, hmismatch⟩
  rw [IOStream.rdbuf_afterRead]
  exact hnext

theorem writeBytes (hchannel : s.Channel bytes room) (src : List UInt8) (depth : Nat) :
    ∃ s', Serial.writeBytes (depth + 1) s src = .ok (toInt64 src.length, s') ∧
      ∀ bytes room, s.Channel bytes room → src.length ≤ room → ∀ byte count,
        (s'.withWriteBits byte count).Channel (bytes ++ src) (room - src.length) := by
  obtain ⟨io, hmode, -, -⟩ := hchannel.stream
  refine ⟨_, writeBytes_stream hmode hchannel.writable depth src, ?_⟩
  intro bytes room hchannel hroom byte count
  exact hchannel.written hmode.stream hroom byte count

theorem readBytes (hchannel : s.Channel (front ++ back) room) (depth : Nat)
    (dest : List UInt8) :
    ∃ s', Serial.readBytes (depth + 1) s dest front.length =
        .ok ((front.length : Int), overwrite dest 0 front, s') ∧
      ∀ back room, s.Channel (front ++ back) room → ∀ byte count,
        (s'.withReadBits byte count).Channel back (room + Pipe.regained β front.length) := by
  have hsize := hchannel.length_lt
  rw [List.length_append] at hsize
  obtain ⟨io, hmode, hgood, hholding⟩ := hchannel.stream
  obtain ⟨next, hget, -⟩ := Pipe.get hholding
  have hread := readBytes_good hmode hgood (show s.nextReadOffset = (0 : Nat) from
    hchannel.noOffset) (Nat.zero_le _) (by omega) hget (by omega) depth dest
  rw [toInt64_natCast (by omega), Nat.sub_zero] at hread
  refine ⟨_, hread, ?_⟩
  intro back room hchannel byte count
  exact hchannel.taken hmode.stream hget byte count

end Channel

/-! ## The wire -/

variable (β γ) in
/-- Bytes through a pipe. -/
def pipeBytes : Wire β γ UInt8 where
  Ready s code := ∃ bytes room, s.Channel bytes room ∧ code.length ≤ room
  Wrote s code s' := ∀ bytes room, s.Channel bytes room → code.length ≤ room →
    s'.Channel (bytes ++ code) (room - code.length)
  Before r code := r.readBuffer = none ∧ ∃ rest room, r.serial.Channel (code ++ rest) room
  Consumed r code r' := r'.readBuffer = none ∧ ∀ rest room, r.serial.Channel (code ++ rest) room →
    r'.serial.Channel rest (room + Pipe.regained β code.length)
  flag := Ty.encodeBool
  string := Ty.encodeString

theorem pipeBytes_continues (front : List UInt8) :
    (pipeBytes β γ).Continues (pipeBytes β γ) front where
  ready_left := by
    rintro s back ⟨bytes, room, hchannel, hroom⟩
    rw [List.length_append] at hroom
    exact ⟨bytes, room, hchannel, by omega⟩
  ready_right := by
    rintro s back s' ⟨bytes, room, hchannel, hroom⟩ hwrote
    rw [List.length_append] at hroom
    exact ⟨_, _, hwrote bytes room hchannel (by omega), by omega⟩
  wrote_append := by
    rintro s back s' s'' - hfront hback bytes room hchannel hroom
    rw [List.length_append] at hroom ⊢
    have hnext := hback _ _ (hfront bytes room hchannel (by omega)) (by omega)
    rw [List.append_assoc, Nat.sub_sub] at hnext
    exact hnext
  before_left := by
    rintro r back ⟨hnone, rest, room, hchannel⟩
    rw [List.append_assoc] at hchannel
    exact ⟨hnone, back ++ rest, room, hchannel⟩
  before_right := by
    rintro r back r' ⟨-, rest, room, hchannel⟩ ⟨hnone, htaken⟩
    rw [List.append_assoc] at hchannel
    exact ⟨hnone, rest, _, htaken _ _ hchannel⟩
  consumed_append := by
    rintro r back r' r'' - ⟨-, hfront⟩ ⟨hnone, hback⟩
    refine ⟨hnone, ?_⟩
    intro rest room hchannel
    rw [List.append_assoc] at hchannel
    have hnext := hback _ _ (hfront _ _ hchannel)
    rw [Nat.add_assoc, ← Pipe.regained_add, ← List.length_append] at hnext
    exact hnext

theorem pipeBytes_lawful : (pipeBytes β γ).Lawful where
  continues := pipeBytes_continues
  noMismatch := by
    rintro r code ⟨-, rest, room, hchannel⟩
    exact hchannel.noMismatch

theorem pipeBytes_blocks [Streambuf γ] (depth : Nat) : (pipeBytes β γ).Blocks (depth + 2) where
  toLawful := pipeBytes_lawful
  wrote_nil := by
    rintro s - bytes room hchannel -
    rw [List.append_nil]
    exact hchannel
  consumed_nil := by
    rintro r ⟨hnone, -⟩
    refine ⟨hnone, ?_⟩
    intro rest room hchannel
    rw [List.length_nil, Pipe.regained_zero]
    exact hchannel
  length_lt := by
    rintro r code ⟨-, rest, room, hchannel⟩
    have hsize := hchannel.length_lt
    rw [List.length_append] at hsize
    omega
  puts_flag := by
    rintro flag s ⟨bytes, room, hchannel, -⟩
    -- a flag is a byte of its own
    obtain ⟨io, hmode, -, -⟩ := hchannel.stream
    obtain ⟨s', hwrite, hwritten⟩ := hchannel.writeBytes (Ty.encodeBool flag) depth
    refine ⟨s'.withWriteBits 0 0, ?_, fun bytes room hchannel hroom =>
      hwritten bytes room hchannel hroom 0 0⟩
    unfold Ty.encodeBool at hwrite
    simp [putBool, writeByte, hmode.plain, hwrite, withWriteBits]
  gets_flag := by
    rintro flag ⟨s, readBuffer⟩ ⟨rfl, rest, room, hchannel⟩
    obtain ⟨io, hmode, -, -⟩ := hchannel.stream
    obtain ⟨s', hread, htaken⟩ := hchannel.readBytes depth [s.currentReadByte]
    have hplain : s.bitStream = false := hmode.plain
    have hvalue : (UInt8.ofNat flag.toNat != 0) = flag := by cases flag <;> rfl
    -- the byte replaces the one that was read last
    have hdest : overwrite [s.currentReadByte] 0 (Ty.encodeBool flag) = Ty.encodeBool flag :=
      overwrite_all rfl
    rw [hdest] at hread
    simp only [Ty.encodeBool, List.length_singleton] at hread htaken
    refine ⟨⟨s'.refilled [UInt8.ofNat flag.toNat], none⟩, ?_, rfl, fun rest room hchannel =>
      htaken rest room hchannel _ 0⟩
    simp [Reader.getBool, readByte, hplain, hread, refilled, hvalue]
  puts_block := by
    rintro src s ⟨bytes, room, hchannel, -⟩
    obtain ⟨s', hwrite, hwritten⟩ := hchannel.writeBytes src (depth + 1)
    exact ⟨s', by rw [putBytes, hwrite, ok_bind], fun bytes room hchannel hroom =>
      hwritten bytes room hchannel hroom s'.currentWriteByte s'.bitsWrittenWriteByte⟩
  gets_block := by
    rintro old bytes hlength ⟨s, readBuffer⟩ ⟨rfl, rest, room, hchannel⟩
    obtain ⟨s', hread, htaken⟩ := hchannel.readBytes (depth + 1) old
    refine ⟨⟨s', none⟩, ?_, rfl, fun rest room hchannel =>
      htaken rest room hchannel s'.currentReadByte s'.bitsReadReadByte⟩
    simp only [Reader.getBytes, Reader.readInto, hlength, hread, ok_bind]
    rw [overwrite_all hlength.symm]

end Serial
end Iostreams
