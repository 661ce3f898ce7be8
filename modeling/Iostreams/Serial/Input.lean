import Iostreams.Serial.BufferMode
import Iostreams.Serial.StreamMode

/-!
# The input left to a `Serial`

A decoder that reads one character at a time and then a block of known size
works the same way over a buffer and over a stream.  `HasInput s bytes` says
that `bytes` are what is left to read; afterwards a transfer delivers nothing
and leaves its destination alone.  Single characters need only a stream buffer
that delivers them one by one, a block one that delivers it at once.  On a buffer
a block of more than `2 ^ 63` bytes may pass the test; then the copy faults.
-/

namespace Iostreams

open Foundation

namespace Serial

variable {β : Type}

/-- `bytes` are left to read, up to the end of the buffer or stream. -/
def HasInput [CharSource β] (s : Serial β) (bytes : List UInt8) : Prop :=
  (s.BufferMode ∧ s.Holds bytes ∧ s.bufferReadIndex + bytes.length = s.bufferPointer.length) ∨
    ∃ io, s.StreamMode io ∧ s.nextReadOffset = 0 ∧
      if io.good then CharSource.pending io.rdbuf = bytes else bytes = []

/-- The size of the buffer below, where there is one. -/
def backing (s : Serial β) : Option Int := if s.isBufferSerial then some s.bufferSize else none

/-- The test of the buffer below lets a block of `size` bytes through, by its cast, although the
buffer is smaller. -/
def Overruns (s : Serial β) (size : Nat) : Prop := ∃ limit ∈ s.backing, limit + 2 ^ 63 < size

theorem Overruns.congr {s s' : Serial β} (hbacking : s'.backing = s.backing) {size : Nat} :
    s'.Overruns size ↔ s.Overruns size := by
  rw [Overruns, Overruns, hbacking]

theorem BufferMode.overruns_iff {s : Serial β} (hmode : s.BufferMode) {size : Nat} :
    s.Overruns size ↔ s.bufferSize + 2 ^ 63 < size := by
  rw [Overruns, backing, if_pos hmode.isBuffer]
  simp

theorem StreamMode.not_overruns {s : Serial β} {io : IOStream β} (hmode : s.StreamMode io)
    (size : Nat) : ¬s.Overruns size := by
  rw [Overruns, backing, hmode.notBuffer]
  simp

/-- `bytes` are left to read, over a buffer of the given size or over none. -/
def HasInputOn [CharSource β] (s : Serial β) (limit : Option Int) (bytes : List UInt8) : Prop :=
  s.HasInput bytes ∧ s.backing = limit

theorem hasInput_ofBuffer [CharSource β] {memory : List UInt8} (hsize : memory.length < 2 ^ 63)
    (bitStream : Bool) : (ofBuffer memory bitStream : Serial β).HasInput memory := by
  refine Or.inl ⟨bufferMode_ofBuffer hsize bitStream, ⟨Int.le_refl 0, ?_, ?_⟩, ?_⟩
  · simp [ofBuffer]
  · simp [ofBuffer, slice]
  · simp [ofBuffer]

theorem hasInput_ofStream [CharSource β] {io : IOStream β} (hgood : io.good = true) :
    (ofStream io false).HasInput (CharSource.pending io.rdbuf) :=
  Or.inr ⟨io, streamMode_ofStream io, rfl, by rw [if_pos hgood]⟩

/-- On a stream a transfer records what the buffer delivered. -/
theorem HasInput.received [CharSource β] {s : Serial β} {io : IOStream β}
    (hmode : s.StreamMode io) {io' : IOStream β} {rest : List UInt8}
    (hrest : if io'.good then CharSource.pending io'.rdbuf = rest else rest = [])
    (bytes : List UInt8) (bytesRead readingBytes : Nat) :
    (s.received io' bytes bytesRead readingBytes).HasInput rest :=
  Or.inr ⟨io', hmode.received bytes bytesRead readingBytes io', rfl, hrest⟩

theorem HasInput.stream_block [CharSource β] {s : Serial β} {io : IOStream β}
    (hmode : s.StreamMode io) (hoffset : s.nextReadOffset = 0) (hgood : io.good = true)
    {bytes rest : List UInt8} (hsize : bytes.length < 2 ^ 63) {rdbuf : β}
    (hget : Streambuf.sgetn io.rdbuf bytes.length = (bytes, rdbuf))
    (hrest : CharSource.pending rdbuf = rest) (depth : Nat) (dest : List UInt8) :
    ∃ count s', readBytes (depth + 1) s dest bytes.length =
        .ok (count, overwrite dest 0 bytes, s') ∧
      s'.HasInput rest ∧ s'.backing = s.backing := by
  have hzero : s.nextReadOffset = (0 : Nat) := hoffset
  have hread := readBytes_good hmode hgood hzero (Nat.zero_le _) hsize hget (by omega) depth dest
  refine ⟨_, _, hread, HasInput.received hmode ?_ _ _ _, rfl⟩
  have hstill : (io.afterRead rdbuf bytes (bytes.length : Int)).good = true := by
    rw [IOStream.good_afterRead hgood]
    exact decide_eq_true rfl
  rw [Nat.sub_zero, if_pos hstill, IOStream.rdbuf_afterRead, hrest]

/-- A transfer that does not overrun a buffer returns, and leaves the size of its destination
alone. -/
theorem HasInput.returns [CharSource β] {s : Serial β} {bytes : List UInt8}
    (hinput : s.HasInput bytes) {size : Nat} (hsize : size < 2 ^ 64) (hfits : ¬s.Overruns size)
    (depth : Nat) (dest : List UInt8) :
    ∃ count dest' s', readBytes (depth + 1) s dest size = .ok (count, dest', s') ∧
      dest'.length = dest.length := by
  rcases hinput with ⟨hmode, ⟨hindex, hend, -⟩, -⟩ | ⟨io, hmode, -, -⟩
  · have heq := hmode.size_eq
    have hlt := hmode.size_lt
    by_cases hpasses : PassesTest s.bufferReadIndex s.bufferSize size
    · have hwithin : (Memcpy.mk s.bufferReadIndex size).Within s.bufferSize := by
        rw [hmode.overruns_iff] at hfits
        have hsmall : size < 2 ^ 63 := by
          by_contra hlarge
          exact hfits ((passesTest_large hindex (by omega) (by omega) (by omega) hsize).mp hpasses)
        have hblock := (hmode.passesTest_iff hsmall).mp hpasses
        rw [← heq] at hblock
        exact Memcpy.within_iff.mpr (Or.inr ⟨hindex, hblock⟩)
      rw [readBytes_copied hmode.notCount hmode.isBuffer hpasses hwithin]
      exact ⟨_, _, _, rfl, overwrite_length _ _ _⟩
    · rw [readBytes_tested hmode.notCount hmode.isBuffer, if_neg hpasses]
      exact ⟨_, _, _, rfl, rfl⟩
  · exact ⟨_, _, _, readBytes_stream hmode depth dest size, overwrite_length _ _ _⟩

theorem HasInput.fault [CharSource β] {s : Serial β} {bytes : List UInt8}
    (hinput : s.HasInput bytes) {size : Nat} (hsize : size < 2 ^ 64) (hover : s.Overruns size)
    (depth : Nat) (dest : List UInt8) : readBytes (depth + 1) s dest size = .error .fault := by
  rcases hinput with ⟨hmode, ⟨hindex, hend, -⟩, -⟩ | ⟨io, hmode, -, -⟩
  · have heq := hmode.size_eq
    have hlt := hmode.size_lt
    rw [hmode.overruns_iff] at hover
    have hpasses :=
      (passesTest_large hindex (by omega) (by omega) (by omega) hsize).mpr hover
    refine readBytes_fault hmode.notCount hmode.isBuffer hpasses (fun hwithin => ?_) depth dest
    rcases Memcpy.within_iff.mp hwithin with hempty | ⟨-, hfits⟩
    · have hzero : size = 0 := hempty
      omega
    · have hblock : s.bufferReadIndex + size ≤ s.bufferSize := hfits
      omega
  · exact absurd hover (hmode.not_overruns size)

/-- One character: the next one, or none at the end. -/
theorem HasInput.char [CharSource β] {s : Serial β} {bytes : List UInt8}
    (hinput : s.HasInput bytes) (depth : Nat) (before : UInt8) :
    ∃ count s', readBytes (depth + 1) s [before] 1 = .ok (count, [bytes.headD before], s') ∧
      s'.HasInput bytes.tail ∧ s'.backing = s.backing := by
  rcases hinput with ⟨hmode, hholds, hend⟩ | ⟨io, hmode, hoffset, hpending⟩
  · cases bytes with
    | nil =>
        rw [List.length_nil, Nat.cast_zero, add_zero] at hend
        refine ⟨0, s, readBytes_buffer_short hmode (by omega) (by omega) depth _, ?_⟩
        exact ⟨Or.inl ⟨hmode, hholds, by simpa using hend⟩, rfl⟩
    | cons byte rest =>
        have hsplit : s.Holds ([byte] ++ rest) := hholds
        refine ⟨_, _, readBytes_buffer hmode hsplit.left depth [before], ?_, rfl⟩
        refine Or.inl ⟨(Consumed.advanced s [byte]).bufferMode hmode, hsplit.right, ?_⟩
        simp only [Serial.advanced, List.length_cons, List.length_nil, List.tail_cons] at hend ⊢
        omega
  · by_cases hgood : io.good = true
    · rw [if_pos hgood] at hpending
      have hget := CharSource.get_one io.rdbuf
      have hrest := CharSource.pending_one io.rdbuf
      rw [hpending] at hget hrest
      cases bytes with
      | nil =>
          -- the read fails, and the stream is not good from then on
          have hzero : s.nextReadOffset = (0 : Nat) := hoffset
          have hnone : Streambuf.sgetn io.rdbuf (1 - 0 : Nat) =
              ([], (Streambuf.sgetn io.rdbuf 1).2) := Prod.ext hget rfl
          refine ⟨_, _, readBytes_good hmode hgood hzero (by omega) (by omega) hnone
            (by decide) depth [before], ?_, rfl⟩
          refine HasInput.received hmode ?_ _ _ _
          rw [IOStream.good_afterRead hgood, if_neg (by decide)]
          rfl
      | cons byte rest =>
          have hsize : [byte].length < 2 ^ 63 := by simp
          exact HasInput.stream_block hmode hoffset hgood hsize (Prod.ext hget rfl) hrest depth
            [before]
    · rw [if_neg hgood] at hpending
      subst hpending
      refine ⟨_, _, readBytes_not_good hmode (by simpa using hgood) depth [before] 1, ?_, rfl⟩
      refine HasInput.received hmode ?_ _ _ _
      simp [IOStream.good]

/-- A block that is there is delivered at once. -/
theorem HasInput.block [BlockSource β] {s : Serial β} {bytes rest : List UInt8}
    (hinput : s.HasInput (bytes ++ rest)) (hsize : bytes.length < 2 ^ 63) (depth : Nat)
    (dest : List UInt8) :
    ∃ count s', readBytes (depth + 1) s dest bytes.length =
        .ok (count, overwrite dest 0 bytes, s') ∧
      s'.HasInput rest := by
  rcases hinput with ⟨hmode, hholds, hend⟩ | ⟨io, hmode, hoffset, hpending⟩
  · refine ⟨_, _, readBytes_buffer hmode hholds.left depth dest, ?_⟩
    refine Or.inl ⟨(Consumed.advanced s bytes).bufferMode hmode, hholds.right, ?_⟩
    rw [List.length_append] at hend
    simp only [Serial.advanced]
    omega
  · by_cases hgood : io.good = true
    · rw [if_pos hgood] at hpending
      have hle : bytes.length ≤ (CharSource.pending io.rdbuf).length := by
        rw [hpending, List.length_append]
        omega
      have hget := BlockSource.get_block io.rdbuf bytes.length hle
      have hrest := BlockSource.pending_block io.rdbuf bytes.length hle
      rw [hpending, List.take_left] at hget
      rw [hpending, List.drop_left] at hrest
      obtain ⟨count, s', hread, hinput', -⟩ := HasInput.stream_block hmode hoffset hgood hsize
        (Prod.ext hget rfl) hrest depth dest
      exact ⟨count, s', hread, hinput'⟩
    · rw [if_neg hgood, List.append_eq_nil_iff] at hpending
      obtain ⟨rfl, rfl⟩ := hpending
      have hread := readBytes_not_good hmode (by simpa using hgood) depth dest 0
      rw [overwrite_nil]
      refine ⟨_, _, hread, HasInput.received hmode ?_ _ _ _⟩
      simp [IOStream.good]

end Serial
end Iostreams
