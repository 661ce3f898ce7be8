import Iostreams.Foundation.Extents
import Iostreams.Serial.BufferMode
import Iostreams.Serial.ShortReads

/-!
# The bytes left to a `Serial`

What a `Serial` that is no bit stream has left to read: the rest of its buffer, or what its stream
still has while it is good.  A request that the bytes cover is delivered whole and takes them.  A
longer one delivers nothing of a buffer and all of a stream, which is not good from then on.
-/

namespace Iostreams

open Foundation

namespace Serial

variable {β γ : Type}

def bytesLeft [CharSource β] (s : Serial β) : List UInt8 :=
  if s.isBufferSerial then s.bufferPointer.drop s.bufferReadIndex.toNat
  else
    match s.readStream with
    | some io => if io.good then CharSource.pending io.rdbuf else []
    | none => []

/-- A `Serial` outside bit-stream mode which reads from a buffer or from a stream. -/
structure Feeding [CharSource β] (s : Serial β) : Prop extends Idle s where
  buffer : s.isBufferSerial = true →
    s.bufferSize = s.bufferPointer.length ∧ s.bufferPointer.length < 2 ^ 63 ∧
      0 ≤ s.bufferReadIndex
  stream : s.isBufferSerial = false → s.readStreamPointer = true
  left_lt : s.bytesLeft.length < 2 ^ 63

/-- After a read of `s` that has left `rest`. -/
structure Leaves [CharSource β] (s : Serial β) (rest : List UInt8) (s' : Serial β) : Prop where
  feeding : s'.Feeding
  left : s'.bytesLeft = rest
  buffer : s'.isBufferSerial = s.isBufferSerial
  flag : s'.lastSizeMismatchFlag = s.lastSizeMismatchFlag

section Sources

variable [CharSource β]

theorem feeding_ofBuffer {memory : List UInt8} (hsize : memory.length < 2 ^ 63) :
    (ofBuffer memory false : Serial β).Feeding :=
  ⟨⟨⟨rfl, rfl, rfl, (nomatch ·), (nomatch ·)⟩, (nomatch ·)⟩, fun _ => ⟨rfl, hsize, Int.le_refl 0⟩,
    (nomatch ·), hsize⟩

theorem feeding_ofStream {io : IOStream β} (hgood : io.good = true)
    (hsize : (CharSource.pending io.rdbuf).length < 2 ^ 63) : (ofStream io false).Feeding :=
  ⟨⟨⟨rfl, rfl, rfl, fun _ => rfl, fun _ => rfl⟩, fun _ => rfl⟩, (nomatch ·), fun _ => rfl, by
    show (if io.good then CharSource.pending io.rdbuf else []).length < 2 ^ 63
    rw [if_pos hgood]
    exact hsize⟩

theorem bytesLeft_buffer {s : Serial β} (hbuffer : s.isBufferSerial = true) :
    s.bytesLeft = s.bufferPointer.drop s.bufferReadIndex.toNat := if_pos hbuffer

theorem Feeding.streamMode {s : Serial β} (hfeeding : s.Feeding)
    (hbuffer : s.isBufferSerial = false) :
    ∃ io, s.StreamMode io := by
  obtain ⟨io, hstream⟩ := Option.isSome_iff_exists.mp
    (hfeeding.connected (hfeeding.stream hbuffer))
  exact ⟨io, hfeeding.notCount, hbuffer, hfeeding.notPassthrough, hfeeding.plain,
    hfeeding.stream hbuffer, hstream⟩

theorem StreamMode.bytesLeft_eq {s : Serial β} {io : IOStream β} (hmode : s.StreamMode io) :
    s.bytesLeft = if io.good then CharSource.pending io.rdbuf else [] := by
  rw [bytesLeft, if_neg (by simp [hmode.notBuffer]), hmode.readStream]

/-- Between two calls on a stream. -/
theorem StreamMode.feeding {s : Serial β} {io : IOStream β} (hmode : s.StreamMode io)
    (hoffset : s.nextReadOffset = 0) (hlt : s.bytesLeft.length < 2 ^ 63) : s.Feeding :=
  ⟨⟨⟨hmode.notCount, hmode.notPassthrough, hmode.plain, fun _ => hmode.notBuffer,
      fun _ => by rw [hmode.stream]; rfl⟩, fun _ => hoffset⟩,
    fun hbuffer => by simp [hmode.notBuffer] at hbuffer, fun _ => hmode.connected, hlt⟩

theorem Leaves.trans {s s' s'' : Serial β} {between rest : List UInt8}
    (hfirst : s.Leaves between s') (hsecond : s'.Leaves rest s'') : s.Leaves rest s'' :=
  ⟨hsecond.feeding, hsecond.left, hsecond.buffer.trans hfirst.buffer,
    hsecond.flag.trans hfirst.flag⟩

theorem Feeding.leaves_self {s : Serial β} (hfeeding : s.Feeding) : s.Leaves s.bytesLeft s :=
  ⟨hfeeding, rfl, rfl, rfl⟩

/-- The accumulator of bits may change. -/
theorem Leaves.withReadBits {s s' : Serial β} {rest : List UInt8} (hleaves : s.Leaves rest s')
    (byte : UInt8) (bits : Nat) : s.Leaves rest (s'.withReadBits byte bits) := by
  obtain ⟨⟨⟨⟨hcount, hpassthrough, hplain, hnotBuffer, hconnected⟩, hoffset⟩, hbuffer, hstream,
    hlt⟩, hleft, hsame, hflag⟩ := hleaves
  exact ⟨⟨⟨⟨hcount, hpassthrough, hplain, hnotBuffer, hconnected⟩, hoffset⟩, hbuffer, hstream, hlt⟩,
    hleft, hsame, hflag⟩

end Sources

/-! ## Requests -/

section Requests

variable [ArrivalSource β]

/-- The index of a buffer moves inside it. -/
theorem Feeding.leaves_advanced {s : Serial β} (hfeeding : s.Feeding)
    (hbuffer : s.isBufferSerial = true) (size : Nat) :
    s.Leaves (s.bytesLeft.drop size) (s.advanced size) := by
  obtain ⟨hlength, hlt, hindex⟩ := hfeeding.buffer hbuffer
  have hleft : (s.advanced size).bytesLeft = s.bytesLeft.drop size := by
    have hadvanced : (s.advanced size).isBufferSerial = true := hbuffer
    have hnat : (s.bufferReadIndex + size).toNat = s.bufferReadIndex.toNat + size := by omega
    rw [bytesLeft_buffer hbuffer, bytesLeft_buffer hadvanced, List.drop_drop]
    exact congrArg (s.bufferPointer.drop ·) hnat
  refine ⟨⟨⟨⟨hfeeding.notCount, hfeeding.notPassthrough, hfeeding.plain, hfeeding.notBuffer,
    hfeeding.connected⟩, hfeeding.noOffset⟩, fun _ => ⟨hlength, hlt, ?_⟩, hfeeding.stream, ?_⟩,
    hleft, rfl, rfl⟩
  · show 0 ≤ s.bufferReadIndex + size
    omega
  · have hless := hfeeding.left_lt
    rw [hleft, List.length_drop]
    omega

/-- A buffer has the request. -/
theorem Feeding.readBytes_buffer {s : Serial β} (hfeeding : s.Feeding)
    (hbuffer : s.isBufferSerial = true) {size : Nat} (hcovered : size ≤ s.bytesLeft.length)
    (depth : Nat) (dest : List UInt8) :
    ∃ count s', readBytes (depth + 1) s dest size =
        .ok (count, overwrite dest 0 (s.bytesLeft.take size), s') ∧
      s.Leaves (s.bytesLeft.drop size) s' := by
  obtain ⟨hlength, hlt, hindex⟩ := hfeeding.buffer hbuffer
  have hleaves := hfeeding.leaves_advanced hbuffer size
  have htest := @passesTest_iff s.bufferReadIndex s.bufferSize size (by omega) (by omega)
    (Nat.lt_of_le_of_lt hcovered hfeeding.left_lt)
  rw [bytesLeft_buffer hbuffer] at hcovered hleaves ⊢
  rw [List.length_drop] at hcovered
  by_cases hpasses : PassesTest s.bufferReadIndex s.bufferSize size
  · have hfits := htest.mp hpasses
    have hnext : toInt64 (s.bufferReadIndex + size) = s.bufferReadIndex + size :=
      toInt64_of_bounds (by omega) (by omega)
    have hread := readBytes_copied hfeeding.notCount hbuffer hpasses
      (Memcpy.within_iff.mpr (Or.inr ⟨hindex, hfits⟩)) depth dest
    rw [hnext] at hread
    exact ⟨_, _, hread, hleaves⟩
  · -- only an empty request is covered and refused, behind the end
    have hbehind := mt htest.mpr hpasses
    obtain rfl : size = 0 := by omega
    rw [advanced_zero] at hleaves
    refine ⟨0, _, ?_, hleaves⟩
    rw [readBytes_tested hfeeding.notCount hbuffer, if_neg hpasses, List.take_zero, overwrite_nil]

/-- A buffer has less than the request, and keeps it. -/
theorem Feeding.readBytes_short {s : Serial β} (hfeeding : s.Feeding)
    (hbuffer : s.isBufferSerial = true) {size : Nat} (hsize : size < 2 ^ 63)
    (hshort : s.bytesLeft.length < size) (depth : Nat) (dest : List UInt8) :
    readBytes (depth + 1) s dest size = .ok (0, dest, s) := by
  obtain ⟨hlength, hlt, hindex⟩ := hfeeding.buffer hbuffer
  have hnot : ¬PassesTest s.bufferReadIndex s.bufferSize size := by
    rw [bytesLeft_buffer hbuffer, List.length_drop] at hshort
    rw [passesTest_iff (by omega) (by omega) hsize]
    omega
  rw [readBytes_tested hfeeding.notCount hbuffer, if_neg hnot]

/-- A good stream delivers what is there of the request; a short count leaves nothing. -/
theorem Feeding.readBytes_good {s : Serial β} (hfeeding : s.Feeding) {io : IOStream β}
    (hmode : s.StreamMode io) (hgood : io.good = true) {size : Nat} (hsize : size < 2 ^ 63)
    (depth : Nat) (dest : List UInt8) :
    ∃ count s', readBytes (depth + 1) s dest size =
        .ok (count, overwrite dest 0 (s.bytesLeft.take size), s') ∧
      s.Leaves (s.bytesLeft.drop size) s' := by
  have hoffset : s.nextReadOffset = (0 : Nat) := hfeeding.noOffset hmode.connected
  have hless := hfeeding.left_lt
  have hleft : s.bytesLeft = CharSource.pending io.rdbuf := by
    rw [hmode.bytesLeft_eq, if_pos hgood]
  have hget : Streambuf.sgetn io.rdbuf ((size - 0 : Nat) : Int) =
      (s.bytesLeft.take size, (Streambuf.sgetn io.rdbuf size).2) := by
    rw [hleft, ← ArrivalSource.get_arrived io.rdbuf size]
    rfl
  have hlength : (s.bytesLeft.take size).length < 2 ^ 64 := by
    rw [List.length_take]
    omega
  have hread := Serial.readBytes_good hmode hgood hoffset (Nat.zero_le size) hsize hget hlength
    depth dest
  let io' := io.afterRead (Streambuf.sgetn io.rdbuf size).2 (s.bytesLeft.take size)
    (size - 0 : Nat)
  have hmode' := hmode.received (s.bytesLeft.take size) (s.bytesLeft.take size).length (size - 0)
    io'
  have hafter : (s.received io' (s.bytesLeft.take size) (s.bytesLeft.take size).length
      (size - 0)).bytesLeft = s.bytesLeft.drop size := by
    rw [hmode'.bytesLeft_eq, IOStream.good_afterRead hgood, IOStream.rdbuf_afterRead,
      ArrivalSource.pending_arrived io.rdbuf size, ← hleft]
    by_cases hfull : ((s.bytesLeft.take size).length : Int) = (size - 0 : Nat)
    · rw [if_pos (decide_eq_true hfull)]
    · rw [if_neg (by simpa using hfull)]
      rw [List.length_take] at hfull
      exact (List.drop_eq_nil_of_le (by omega)).symm
  refine ⟨_, _, hread, ⟨hmode'.feeding rfl ?_, hafter, rfl, rfl⟩⟩
  rw [hafter, List.length_drop]
  omega

/-- A stream that is not good delivers nothing. -/
theorem StreamMode.readBytes_failed {s : Serial β} {io : IOStream β} (hmode : s.StreamMode io)
    (hgood : ¬io.good = true) (size depth : Nat) (dest : List UInt8) :
    ∃ count s', readBytes (depth + 1) s dest size =
        .ok (count, overwrite dest 0 (s.bytesLeft.take size), s') ∧
      s.Leaves (s.bytesLeft.drop size) s' := by
  have hleft : s.bytesLeft = [] := by
    rw [hmode.bytesLeft_eq, if_neg hgood]
  have hread := readBytes_not_good hmode (by simpa using hgood) depth dest size
  have hmode' := hmode.received [] 0 (toSizeT (size - s.nextReadOffset))
    { io with gcount := 0, failbit := true }
  have hafter : (s.received { io with gcount := 0, failbit := true } [] 0
      (toSizeT (size - s.nextReadOffset))).bytesLeft = [] := by
    rw [hmode'.bytesLeft_eq]
    exact if_neg (by simp [IOStream.good])
  rw [hleft, List.take_nil, overwrite_nil]
  refine ⟨_, _, hread, ⟨hmode'.feeding rfl ?_, ?_, rfl, rfl⟩⟩
  · rw [hafter]
    exact Nat.two_pow_pos 63
  · rw [hafter, List.drop_nil]

/-- A stream delivers what is there of the request. -/
theorem Feeding.readBytes_stream {s : Serial β} (hfeeding : s.Feeding)
    (hbuffer : s.isBufferSerial = false) {size : Nat} (hsize : size < 2 ^ 63) (depth : Nat)
    (dest : List UInt8) :
    ∃ count s', readBytes (depth + 1) s dest size =
        .ok (count, overwrite dest 0 (s.bytesLeft.take size), s') ∧
      s.Leaves (s.bytesLeft.drop size) s' := by
  obtain ⟨io, hmode⟩ := hfeeding.streamMode hbuffer
  by_cases hgood : io.good = true
  · exact hfeeding.readBytes_good hmode hgood hsize depth dest
  · exact hmode.readBytes_failed hgood size depth dest

/-- A request returns, and takes what is there of it, or of a short buffer nothing. -/
theorem Feeding.readBytes {s : Serial β} (hfeeding : s.Feeding) {size : Nat}
    (hsize : size < 2 ^ 63) (depth : Nat) (dest : List UInt8) :
    ∃ count dest' s' rest, readBytes (depth + 1) s dest size = .ok (count, dest', s') ∧
      Extent.taken s.isBufferSerial size s.bytesLeft = some rest ∧ s.Leaves rest s' := by
  unfold Extent.taken
  by_cases hshort : s.isBufferSerial = true ∧ s.bytesLeft.length < size
  · rw [if_pos hshort]
    exact ⟨_, _, s, _, hfeeding.readBytes_short hshort.1 hsize hshort.2 depth dest, rfl,
      hfeeding.leaves_self⟩
  · rw [if_neg hshort]
    cases hbuffer : s.isBufferSerial with
    | false =>
        obtain ⟨count, s', hread, hleaves⟩ := hfeeding.readBytes_stream hbuffer hsize depth dest
        exact ⟨_, _, s', _, hread, rfl, hleaves⟩
    | true =>
        rw [hbuffer, eq_self, true_and, Nat.not_lt] at hshort
        obtain ⟨count, s', hread, hleaves⟩ := hfeeding.readBytes_buffer hbuffer hshort depth dest
        exact ⟨_, _, s', _, hread, rfl, hleaves⟩

/-- A length over no bytes, after some of it was read. -/
theorem leValue_overwrite_zeros {bytes : List UInt8} {count : Nat} (hle : bytes.length ≤ count) :
    leValue (overwrite (leBytes count 0) 0 bytes) = leValue bytes := by
  have hfits : 0 + bytes.length ≤ (leBytes count 0).length := by
    rw [leBytes_length]
    omega
  rw [overwrite_eq hfits, List.take_zero, List.nil_append, leValue_append, leBytes_zero,
    List.drop_replicate, leValue_replicate_zero, Nat.mul_zero, Nat.add_zero]

/-- The value that `size_t size = 0; serial >> size;` leaves in `size`. -/
def announced (s : Serial β) : Nat :=
  if s.isBufferSerial ∧ s.bytesLeft.length < 8 then 0 else leValue (s.bytesLeft.take 8)

/-- What is left behind that number. -/
def behindCount (s : Serial β) : List UInt8 :=
  if s.isBufferSerial ∧ s.bytesLeft.length < 8 then s.bytesLeft else s.bytesLeft.drop 8

theorem behindCount_of_announced {s : Serial β} (hannounced : s.announced ≠ 0) :
    s.behindCount = s.bytesLeft.drop 8 :=
  if_neg fun hshort => hannounced (if_pos hshort)

theorem behindCount_length_le (s : Serial β) : s.behindCount.length ≤ s.bytesLeft.length := by
  unfold behindCount
  split
  · exact Nat.le_refl _
  · rw [List.length_drop]
    exact Nat.sub_le _ _

/-- The number and what is behind it are those of an encoding with a prefix. -/
theorem prefixed_eq (s : Serial β) (body : Nat → Extent UInt8) :
    Extent.prefixed s.isBufferSerial 8 leValue body s.bytesLeft =
      body s.announced s.behindCount := by
  unfold Extent.prefixed announced behindCount
  split <;> rfl

theorem Feeding.getSize [Streambuf γ] {s : Serial β} (hfeeding : s.Feeding) (depth : Nat) :
    ∃ s' : Serial β, Reader.getSize (depth + 1) 0 (⟨s, none⟩ : Reader β γ) =
        .ok (s.announced, ⟨s', none⟩) ∧ s.Leaves s.behindCount s' := by
  by_cases hshort : s.isBufferSerial = true ∧ s.bytesLeft.length < 8
  · -- the buffer delivers nothing
    have hannounced : s.announced = 0 := if_pos hshort
    have hbehind : s.behindCount = s.bytesLeft := if_pos hshort
    have hread := hfeeding.readBytes_short hshort.1 (by omega) hshort.2 depth (leBytes 8 0)
    refine ⟨s, ?_, hbehind ▸ hfeeding.leaves_self⟩
    simp only [Reader.getSize, Reader.getBytes, Reader.readInto, leBytes_length, hread, ok_bind,
      hannounced]
    rw [leBytes_zero, leValue_replicate_zero]
  · have hread : ∃ count s', Serial.readBytes (depth + 1) s (leBytes 8 0) 8 =
        .ok (count, overwrite (leBytes 8 0) 0 (s.bytesLeft.take 8), s') ∧
        s.Leaves (s.bytesLeft.drop 8) s' := by
      cases hbuffer : s.isBufferSerial with
      | false => exact hfeeding.readBytes_stream hbuffer (by omega) depth _
      | true =>
          rw [hbuffer, eq_self, true_and, Nat.not_lt] at hshort
          exact hfeeding.readBytes_buffer hbuffer hshort depth _
    have hannounced : s.announced = leValue (s.bytesLeft.take 8) := if_neg hshort
    have hbehind : s.behindCount = s.bytesLeft.drop 8 := if_neg hshort
    obtain ⟨count, s', hread, hleaves⟩ := hread
    refine ⟨s', ?_, hbehind ▸ hleaves⟩
    simp only [Reader.getSize, Reader.getBytes, Reader.readInto, leBytes_length, hread, ok_bind,
      hannounced]
    rw [leValue_overwrite_zeros (List.length_take_le 8 s.bytesLeft)]

end Requests

end Serial
end Iostreams
