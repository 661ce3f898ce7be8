import Iostreams.Serial.BitStream
import Iostreams.Serial.RoundTrip

/-!
# Block transfers on a bit stream

On a bit stream over a buffer, a block is copied at the write index and from the
read index as it stands: the pending bits of the writer and the unread bits of the
reader's current byte are passed over.  Writing the bytes one by one places them
behind the pending bits, and reading them one by one starts with the unread ones.

The two ways agree exactly where those bits and the bits of the block can be
swapped (`Commutes`), which they can at a byte boundary.  Sequences of bit, byte
and block transfers that meet this condition throughout can be read back.
-/

namespace Iostreams

open Foundation

/-- The two sequences in either order are the same. -/
def Commutes (front back : List Bool) : Prop := front ++ back = back ++ front

instance decidableCommutes (front back : List Bool) : Decidable (Commutes front back) :=
  inferInstanceAs (Decidable (_ = _))

namespace Serial

variable {β : Type}

/-- The bits in the output accumulator. -/
def pendingBits (s : Serial β) : List Bool :=
  (byteBits s.currentWriteByte).take s.bitsWrittenWriteByte

/-- The unread bits of the current byte. -/
def currentBits (r : Serial β) : List Bool :=
  if r.bitsReadReadByte = 0 ∨ r.bitsReadReadByte = 8 then []
  else (byteBits r.currentReadByte).drop r.bitsReadReadByte

/-- A bit-stream writer over a buffer. -/
structure BitWriting (s : Serial β) : Prop where
  bufferMode : s.BufferMode
  bitStream : s.bitStream = true
  marker : s.bitsWrittenWriteByte < 8
  accumulator : s.currentWriteByte = ofBits s.pendingBits

/-- The same buffer, write index and pending bits. -/
def SameOutput (s s' : Serial β) : Prop :=
  s.bufferPointer = s'.bufferPointer ∧ s.bufferWriteIndex = s'.bufferWriteIndex ∧
    s.pendingBits = s'.pendingBits

/-- The same read index and unread bits. -/
def SameCursor (r r' : Serial β) : Prop :=
  r.bufferReadIndex = r'.bufferReadIndex ∧ r.currentBits = r'.currentBits

/-- Writing a block has the effect of writing its bytes. -/
def WriteAgrees [Streambuf β] (depth : Nat) (s : Serial β) (src : List UInt8) : Prop :=
  ∃ block each, putBytes depth src s = .ok block ∧ writeEach (writeByte depth) src s = .ok each ∧
    SameOutput block each

/-- Reading a block has the result of reading its bytes. -/
def ReadAgrees [Streambuf β] (depth : Nat) (r : Serial β) (count : Nat) : Prop :=
  ∃ dest block each,
    readBytes depth r (List.replicate count 0) count = .ok ((count : Int), dest, block) ∧
      readByteTimes (readByte depth) count r = .ok (dest, each) ∧ SameCursor block each

/-! ## Writing -/

theorem pendingBits_length {s : Serial β} (hmarker : s.bitsWrittenWriteByte < 8) :
    s.pendingBits.length = s.bitsWrittenWriteByte := by
  rw [pendingBits, List.length_take, byteBits_length]
  omega

theorem pendingBits_withWriteBits (s : Serial β) {pending : List Bool}
    (hpending : pending.length < 8) :
    (s.withWriteBits (ofBits pending) pending.length).pendingBits = pending := by
  simp only [pendingBits, withWriteBits]
  rw [byteBits_ofBits (by omega), List.take_left]

/-- A writer has taken its pending bits since its accumulator was empty. -/
theorem BitWriting.bitsWritten {s : Serial β} (hwriting : s.BitWriting) :
    BitsWritten (s.withWriteBits 0 0) s.pendingBits s := by
  have hlength := pendingBits_length hwriting.marker
  have hmarker := hwriting.marker
  refine ⟨[], s.pendingBits, rfl, Nat.dvd_zero 8, by omega, ?_⟩
  rw [pack_nil, stored_nil, hlength, ← hwriting.accumulator]
  rfl

theorem bufferMode_withWriteBits {s : Serial β} (hmode : s.BufferMode) (byte : UInt8)
    (count : Nat) : (s.withWriteBits byte count).BufferMode :=
  ⟨hmode.notCount, hmode.isBuffer, hmode.size_eq, hmode.size_lt, hmode.noMismatch,
    hmode.noLastMismatch⟩

theorem BitsWritten.bitWriting {s s' : Serial β} {bits : List Bool} (hmode : s.BufferMode)
    (hstream : s.bitStream = true) (hwritten : BitsWritten s bits s') : s'.BitWriting := by
  obtain ⟨whole, pending, rfl, -, hpending, rfl⟩ := hwritten
  have hkept := pendingBits_withWriteBits (s.stored (pack whole)) hpending
  refine ⟨Wrote.bufferMode ⟨_, _, rfl⟩ hmode, hstream, hpending, ?_⟩
  rw [hkept]
  rfl

section Writing

variable [Streambuf β]

/-- Bytes written one by one append their bits. -/
theorem writeEachByte_bitsWritten {s s' : Serial β} {bits : List Bool} (hmode : s.BufferMode)
    (hstream : s.bitStream = true) (src : List UInt8)
    (hroom : s.Room ((bits ++ unpack src).length / 8)) (hwritten : BitsWritten s bits s')
    (depth : Nat) :
    ∃ s'', writeEach (writeByte (depth + 4)) src s' = .ok s'' ∧
      BitsWritten s (bits ++ unpack src) s'' := by
  apply BitsWritten.writeEvery byteBits _ hroom hwritten
  intro byte s' bits hbyte hbefore
  exact writeByte_bitsWritten hmode hstream byte hbyte hbefore depth

/-- Bytes written one by one fill as many bytes of the buffer, starting with the pending
bits, and leave as many bits pending. -/
theorem writeEachByte_split {s : Serial β} (hwriting : s.BitWriting) (src : List UInt8)
    (hroom : s.Room src.length) (depth : Nat) :
    ∃ whole pending, s.pendingBits ++ unpack src = whole ++ pending ∧
      whole.length = (unpack src).length ∧ pending.length = s.bitsWrittenWriteByte ∧
      writeEach (writeByte (depth + 4)) src s =
        .ok ((s.stored (pack whole)).withWriteBits (ofBits pending) pending.length) := by
  have hlength := pendingBits_length hwriting.marker
  have hmarker := hwriting.marker
  have hfull : (s.pendingBits ++ unpack src).length / 8 = src.length := by
    rw [List.length_append, unpack_length]
    omega
  obtain ⟨s', heach, whole, pending, hsplit, hwhole, hpending, rfl⟩ :=
    writeEachByte_bitsWritten (bufferMode_withWriteBits hwriting.bufferMode 0 0)
      hwriting.bitStream src (by rw [hfull]; exact hroom) hwriting.bitsWritten depth
  have htotal := congrArg List.length hsplit
  rw [List.length_append, List.length_append, hlength, unpack_length] at htotal
  refine ⟨whole, pending, hsplit, ?_, by omega, heach⟩
  rw [unpack_length]
  omega

/-- Where pending bits and block can be swapped, both ways lead to the same state. -/
theorem writeEachByte_commutes {s : Serial β} (hwriting : s.BitWriting) {src : List UInt8}
    (hroom : s.Room src.length) (hcommutes : Commutes s.pendingBits (unpack src)) (depth : Nat) :
    writeEach (writeByte (depth + 4)) src s = .ok (s.stored src) := by
  obtain ⟨whole, pending, hsplit, hwhole, hpending, heach⟩ :=
    writeEachByte_split hwriting src hroom depth
  obtain ⟨rfl, rfl⟩ := List.append_inj (hcommutes.symm.trans hsplit) hwhole.symm
  rw [heach, pack_unpack, hpending, ← hwriting.accumulator]
  rfl

theorem writeAgrees_iff {s : Serial β} (hwriting : s.BitWriting) (src : List UInt8)
    (hroom : s.Room src.length) (depth : Nat) :
    WriteAgrees (depth + 4) s src ↔ Commutes s.pendingBits (unpack src) := by
  have hblock := putBytes_wrote (depth + 3) hwriting.bufferMode hroom
  constructor
  · rintro ⟨block, each, hput, heach, hbuffer, -, hbits⟩
    obtain ⟨whole, pending, hsplit, hwhole, hpending, hsame⟩ :=
      writeEachByte_split hwriting src hroom depth
    rw [hblock] at hput
    rw [hsame] at heach
    cases hput
    cases heach
    have hdvd : 8 ∣ whole.length := by
      rw [hwhole, unpack_length]
      exact Nat.dvd_mul_right 8 _
    -- the stored bytes are read back from both buffers
    have hcount : (pack whole).length = src.length := by
      rw [pack_length_of_dvd hdvd, hwhole, unpack_length]
      omega
    obtain ⟨hindex, hfits⟩ := hroom
    have hleft : slice (overwrite s.bufferPointer s.bufferWriteIndex.toNat src)
        s.bufferWriteIndex.toNat src.length = src := slice_overwrite (by omega)
    have hright : slice (overwrite s.bufferPointer s.bufferWriteIndex.toNat (pack whole))
        s.bufferWriteIndex.toNat (pack whole).length = pack whole := slice_overwrite (by omega)
    have hpacked : src = pack whole := by
      rw [← hleft, ← hright, hcount]
      exact congrArg (fun memory => slice memory s.bufferWriteIndex.toNat src.length) hbuffer
    have hshort : pending.length < 8 := by
      have hmarker := hwriting.marker
      omega
    rw [pendingBits_withWriteBits _ hshort] at hbits
    have hkept : s.pendingBits = pending := hbits
    rw [Commutes, hsplit, hkept, hpacked, unpack_pack_of_dvd hdvd]
  · intro hcommutes
    have heach := writeEachByte_commutes hwriting hroom hcommutes depth
    exact ⟨s.stored src, s.stored src, hblock, heach, rfl, rfl, rfl⟩

end Writing

/-! ## Reading -/

theorem currentBits_length {r : Serial β} (hmarker : r.bitsReadReadByte ≤ 8) :
    r.currentBits.length < 8 := by
  unfold currentBits
  split
  · exact Nat.succ_pos 7
  · rw [List.length_drop, byteBits_length]
    omega

theorem unreadBits_eq (r : Serial β) :
    unreadBits r = r.currentBits ++ unpack (r.bufferPointer.drop r.bufferReadIndex.toNat) := rfl

/-- Behind the current byte lie the bytes that are held, and the rest of the buffer. -/
theorem unreadBits_holds {r : Serial β} {bytes : List UInt8} (hholds : r.Holds bytes) :
    unreadBits r = r.currentBits ++ unpack bytes ++
      unpack (r.bufferPointer.drop (r.bufferReadIndex.toNat + bytes.length)) := by
  obtain ⟨hindex, hfits, hslice⟩ := hholds
  have hsplit : r.bufferPointer.drop r.bufferReadIndex.toNat =
      bytes ++ r.bufferPointer.drop (r.bufferReadIndex.toNat + bytes.length) := by
    have hparts := List.take_append_drop bytes.length
      (r.bufferPointer.drop r.bufferReadIndex.toNat)
    unfold slice at hslice
    rw [hslice, List.drop_drop] at hparts
    exact hparts.symm
  rw [unreadBits_eq, hsplit, unpack_append, List.append_assoc]

/-- The bits a reader has not delivered determine its cursor. -/
theorem cursor_of_unreadBits {r r' : Serial β} (hreading : BitReading r)
    (hindex : r.bufferReadIndex ≤ r.bufferPointer.length) {bits : List Bool} {index : Nat}
    (hbits : bits.length < 8) (hlast : index ≤ r.bufferPointer.length)
    (hsame : r'.bufferPointer = r.bufferPointer)
    (hunread : unreadBits r = bits ++ unpack (r'.bufferPointer.drop index)) :
    r.bufferReadIndex = index ∧ r.currentBits = bits := by
  have hshort := currentBits_length hreading.marker
  have hnonneg := hreading.index_nonneg
  rw [unreadBits_eq, hsame] at hunread
  have htotal := congrArg List.length hunread
  simp only [List.length_append, unpack_length, List.length_drop] at htotal
  refine ⟨by omega, (List.append_inj hunread (by omega)).1⟩

section Reading

variable [Streambuf β]

/-- Bytes read one by one remove their bits from the front of the unread ones. -/
theorem readByteTimes_unread (bytes : List UInt8) {r : Serial β} (hreading : BitReading r)
    {rest : List Bool} (hunread : unreadBits r = unpack bytes ++ rest) (depth : Nat) :
    ∃ r', readByteTimes (readByte (depth + 3)) bytes.length r = .ok (bytes, r') ∧
      BitReading r' ∧ unreadBits r' = rest ∧ SameMemory r r' := by
  induction bytes generalizing r with
  | nil => exact ⟨r, rfl, hreading, hunread, SameMemory.refl r⟩
  | cons byte bytes ih =>
      rw [unpack_cons, List.append_assoc] at hunread
      obtain ⟨r₁, hbyte, hreading₁, hunread₁, hsame₁⟩ := readByte_unread hreading hunread depth
      obtain ⟨r₂, hbytes, hreading₂, hunread₂, hsame₂⟩ := ih hreading₁ hunread₁
      refine ⟨r₂, ?_, hreading₂, hunread₂, hsame₁.trans hsame₂⟩
      simp only [List.length_cons, readByteTimes, hbyte, ok_bind, hbytes]

/-- Bytes read one by one start with the unread bits of the current byte, advance the read
index by as many bytes, and leave as many bits unread. -/
theorem readByteTimes_split {r : Serial β} (hreading : BitReading r) {bytes : List UInt8}
    (hholds : r.Holds bytes) (depth : Nat) :
    ∃ delivered left r', r.currentBits ++ unpack bytes = unpack delivered ++ left ∧
      delivered.length = bytes.length ∧
      readByteTimes (readByte (depth + 3)) bytes.length r = .ok (delivered, r') ∧
      r'.bufferReadIndex = r.bufferReadIndex + bytes.length ∧ r'.currentBits = left := by
  have hshort := currentBits_length hreading.marker
  obtain ⟨whole, left, hsplit, hwhole⟩ : ∃ whole left,
      r.currentBits ++ unpack bytes = whole ++ left ∧ whole.length = 8 * bytes.length := by
    refine ⟨(r.currentBits ++ unpack bytes).take (8 * bytes.length),
      (r.currentBits ++ unpack bytes).drop (8 * bytes.length),
      (List.take_append_drop _ _).symm, ?_⟩
    rw [List.length_take, List.length_append, unpack_length]
    omega
  have hdvd : 8 ∣ whole.length := by
    rw [hwhole]
    exact Nat.dvd_mul_right 8 _
  have hcount : (pack whole).length = bytes.length := by
    rw [pack_length_of_dvd hdvd]
    omega
  have htotal := congrArg List.length hsplit
  rw [List.length_append, List.length_append, unpack_length] at htotal
  have hunread := unreadBits_holds hholds
  rw [hsplit, List.append_assoc, ← unpack_pack_of_dvd hdvd] at hunread
  obtain ⟨r', hread, hreading', hunread', hsame⟩ :=
    readByteTimes_unread (pack whole) hreading hunread depth
  rw [hcount] at hread
  obtain ⟨hindex, hfits, -⟩ := hholds
  have hlast : r.bufferReadIndex.toNat + bytes.length ≤ r'.bufferPointer.length := by
    rw [hsame.1]
    omega
  rw [← hsame.1] at hunread'
  obtain ⟨hposition, hleft⟩ := cursor_of_unreadBits hreading' (hsame.2.1 (by omega)) (by omega)
    hlast rfl hunread'
  refine ⟨pack whole, left, r', ?_, hcount, hread, by omega, hleft⟩
  rw [unpack_pack_of_dvd hdvd, hsplit]

theorem readAgrees_iff {r : Serial β} (hreading : BitReading r) {bytes : List UInt8}
    (hholds : r.Holds bytes) (depth : Nat) :
    ReadAgrees (depth + 3) r bytes.length ↔ Commutes r.currentBits (unpack bytes) := by
  have hblock := readBytes_buffer hreading.bufferMode hholds (depth + 2)
    (List.replicate bytes.length 0)
  rw [overwrite_all (List.length_replicate).symm] at hblock
  obtain ⟨delivered, left, r', hsplit, hcount, heach, hindex, hleft⟩ :=
    readByteTimes_split hreading hholds depth
  constructor
  · rintro ⟨dest, block, each, hread, htimes, -, hcursor⟩
    rw [hblock] at hread
    rw [heach] at htimes
    cases hread
    cases htimes
    have hkept : r.currentBits = left := hcursor.trans hleft
    rw [Commutes, hsplit, hkept]
  · intro hcommutes
    have hlength : (unpack bytes).length = (unpack delivered).length := by
      rw [unpack_length, unpack_length, hcount]
    obtain ⟨hbytes, hkept⟩ := List.append_inj (hcommutes.symm.trans hsplit) hlength
    obtain rfl := unpack_injective hbytes
    refine ⟨bytes, r.advanced bytes.length, r', hblock, heach, hindex.symm, ?_⟩
    rw [hleft, ← hkept]
    rfl

end Reading

end Serial

/-! ## Mixed sequences -/

/-- A bit, boolean or byte transfer, or a block transfer. -/
inductive MixedOp where
  | single (op : BitOp)
  /-- `writeBytes(src, src.length)` -/
  | block (src : List UInt8)
  deriving DecidableEq, Repr

namespace MixedOp

variable {β : Type}

def bits : MixedOp → List Bool
  | .single op => op.bits
  | .block src => unpack src

/-- The writer can swap its pending bits and a block. -/
def WriteAligned (s : Serial β) : MixedOp → Prop
  | .single _ => True
  | .block src => Commutes s.pendingBits (unpack src)

/-- The reader can swap the unread bits of its current byte and the block at its index. -/
def ReadAligned (r : Serial β) : MixedOp → Prop
  | .single _ => True
  | .block src => Commutes r.currentBits
      (unpack (slice r.bufferPointer r.bufferReadIndex.toNat src.length))

variable [Streambuf β]

def write (depth : Nat) (s : Serial β) : MixedOp → Except Halt (Serial β)
  | .single op => Serial.writeOp depth s op
  | .block src => Serial.putBytes depth src s

/-- The matching read; of a block only the length is used. -/
def read (depth : Nat) (r : Serial β) : MixedOp → Except Halt (MixedOp × Serial β)
  | .single op => do
      let (op, r) ← Serial.readOp depth r op.kind
      .ok (.single op, r)
  | .block src => do
      let (_, dest, r) ← Serial.readBytes depth r (List.replicate src.length 0) src.length
      .ok (.block dest, r)

def readAll (depth : Nat) : List MixedOp → Serial β → Except Halt (List MixedOp × Serial β)
  | [], r => .ok ([], r)
  | op :: rest, r => do
      let (op, r) ← read depth r op
      let (ops, r) ← readAll depth rest r
      .ok (op :: ops, r)

/-- Every block of the sequence is aligned where it is written. -/
def WritesAligned (depth : Nat) : List MixedOp → Serial β → Prop
  | [], _ => True
  | op :: rest, s => op.WriteAligned s ∧
      ∀ s', op.write depth s = .ok s' → WritesAligned depth rest s'

/-- Every block of the sequence is aligned where it is read. -/
def ReadsAligned (depth : Nat) : List MixedOp → Serial β → Prop
  | [], _ => True
  | op :: rest, r => op.ReadAligned r ∧
      ∀ value r', op.read depth r = .ok (value, r') → ReadsAligned depth rest r'

/-- As much as the operation takes is left to read. -/
def Available (r : Serial β) : MixedOp → Prop
  | .single op => op.bits.length ≤ r.unreadBits.length
  | .block src => r.bufferReadIndex + src.length ≤ r.bufferPointer.length

end MixedOp

namespace Serial

variable {β : Type} [Streambuf β]

/-- The states that a bit stream over a buffer goes through, in any order of writes and reads,
aligned or not, as long as there is room to write and something to read. -/
inductive Reached (depth : Nat) (memory : List UInt8) : Serial β → Prop
  | start : Reached depth memory (ofBuffer memory true)
  | write {s s' : Serial β} (op : MixedOp) (hreached : Reached depth memory s)
      (hroom : s.Room ((s.pendingBits ++ op.bits).length / 8))
      (hwrite : op.write (depth + 4) s = .ok s') : Reached depth memory s'
  | read {s s' : Serial β} {value : MixedOp} (op : MixedOp) (hreached : Reached depth memory s)
      (havailable : op.Available s) (hread : op.read (depth + 4) s = .ok (value, s')) :
      Reached depth memory s'
  | setWritePosition {s : Serial β} (index : Nat) (hreached : Reached depth memory s) :
      Reached depth memory (s.setWritePosition index)
  | setReadPosition {s : Serial β} (index : Nat) (hreached : Reached depth memory s)
      (hindex : index ≤ s.bufferPointer.length) : Reached depth memory (s.setReadPosition index)

/-! ### Invariants -/

omit [Streambuf β] in
theorem BufferMode.moved {s : Serial β} (hmode : s.BufferMode) (readIndex writeIndex : Int) :
    ({ s with bufferReadIndex := readIndex, bufferWriteIndex := writeIndex } :
      Serial β).BufferMode :=
  ⟨hmode.notCount, hmode.isBuffer, hmode.size_eq, hmode.size_lt, hmode.noMismatch,
    hmode.noLastMismatch⟩

omit [Streambuf β] in
theorem BitWriting.moved {s : Serial β} (hwriting : s.BitWriting) (readIndex writeIndex : Int) :
    ({ s with bufferReadIndex := readIndex, bufferWriteIndex := writeIndex } :
      Serial β).BitWriting :=
  ⟨hwriting.bufferMode.moved _ _, hwriting.bitStream, hwriting.marker, hwriting.accumulator⟩

omit [Streambuf β] in
theorem BitReading.moved {s : Serial β} (hreading : BitReading s) {readIndex : Int}
    (hindex : 0 ≤ readIndex) (writeIndex : Int) :
    BitReading { s with bufferReadIndex := readIndex, bufferWriteIndex := writeIndex } :=
  ⟨hreading.bufferMode.moved _ _, hreading.bitStream, hreading.noOffset, hreading.marker, hindex⟩

theorem setWritePosition_buffer {s : Serial β} (hmode : s.BufferMode) (index : Nat) :
    s.setWritePosition index = { s with bufferWriteIndex := toInt64 index } := by
  simp [setWritePosition, hmode.notCount, hmode.isBuffer]

theorem setReadPosition_buffer {s : Serial β} (hmode : s.BufferMode) (index : Nat) :
    s.setReadPosition index = { s with bufferReadIndex := toInt64 index } := by
  simp [setReadPosition, hmode.notCount, hmode.isBuffer]

omit [Streambuf β] in
theorem BitWriting.stored {s : Serial β} (hwriting : s.BitWriting) (src : List UInt8) :
    (s.stored src).BitWriting :=
  ⟨(Wrote.stored s src).bufferMode hwriting.bufferMode, hwriting.bitStream, hwriting.marker,
    hwriting.accumulator⟩

omit [Streambuf β] in
theorem BitReading.stored {s : Serial β} (hreading : BitReading s) (src : List UInt8) :
    BitReading (s.stored src) :=
  ⟨(Wrote.stored s src).bufferMode hreading.bufferMode, hreading.bitStream, hreading.noOffset,
    hreading.marker, hreading.index_nonneg⟩

omit [Streambuf β] in
theorem BitReading.withWriteBits {s : Serial β} (hreading : BitReading s) (byte : UInt8)
    (count : Nat) : BitReading (s.withWriteBits byte count) :=
  ⟨bufferMode_withWriteBits hreading.bufferMode byte count, hreading.bitStream,
    hreading.noOffset, hreading.marker, hreading.index_nonneg⟩

/-- A write keeps both invariants, whatever the alignment. -/
theorem write_invariant {s s' : Serial β} (hwriting : s.BitWriting) (hreading : BitReading s)
    (op : MixedOp) (hroom : s.Room ((s.pendingBits ++ op.bits).length / 8)) {depth : Nat}
    (hwrite : op.write (depth + 4) s = .ok s') : s'.BitWriting ∧ BitReading s' := by
  cases op with
  | single op =>
      have hmode := bufferMode_withWriteBits hwriting.bufferMode 0 0
      obtain ⟨s'', hop, hwritten⟩ :=
        writeOp_bitsWritten hmode hwriting.bitStream op hroom hwriting.bitsWritten depth
      rw [MixedOp.write, hop] at hwrite
      cases hwrite
      refine ⟨hwritten.bitWriting hmode hwriting.bitStream, ?_⟩
      obtain ⟨whole, pending, -, -, -, rfl⟩ := hwritten
      exact ((hreading.withWriteBits 0 0).stored (pack whole)).withWriteBits _ _
  | block src =>
      have hfits : s.Room src.length := hroom.mono (by
        rw [MixedOp.bits, List.length_append, unpack_length]
        omega)
      rw [MixedOp.write, putBytes_wrote (depth + 3) hwriting.bufferMode hfits] at hwrite
      cases hwrite
      exact ⟨hwriting.stored src, hreading.stored src⟩

/-- The bits that are left begin with the bits of some operation of the same kind. -/
theorem exists_bitOp (op : BitOp) {unread : List Bool} (hlength : op.bits.length ≤ unread.length) :
    ∃ op' : BitOp, op'.kind = op.kind ∧ ∃ rest, unread = op'.bits ++ rest := by
  cases op with
  | bit value =>
      cases unread with
      | nil => simp [BitOp.bits] at hlength
      | cons bit rest => exact ⟨.bit bit, rfl, rest, rfl⟩
  | bool value =>
      cases unread with
      | nil => simp [BitOp.bits] at hlength
      | cons bit rest => exact ⟨.bool bit, rfl, rest, rfl⟩
  | byte value =>
      rw [BitOp.bits, byteBits_length] at hlength
      refine ⟨.byte (ofBits (unread.take 8)), rfl, unread.drop 8, ?_⟩
      have height : (unread.take 8).length = 8 := by
        rw [List.length_take]
        omega
      have hsame : byteBits (ofBits (unread.take 8)) = unread.take 8 := by
        rw [byteBits_ofBits (Nat.le_of_eq height), height]
        simp
      rw [BitOp.bits, hsame, List.take_append_drop]

omit [Streambuf β] in
theorem BitReading.advancedBy {r : Serial β} (hreading : BitReading r) (bytes : List UInt8) :
    BitReading (r.advanced bytes.length) where
  bufferMode := (Consumed.advanced r bytes).bufferMode hreading.bufferMode
  bitStream := hreading.bitStream
  noOffset := hreading.noOffset
  marker := hreading.marker
  index_nonneg := by
    have hindex := hreading.index_nonneg
    simp only [advanced]
    omega

/-- A read keeps both invariants, whatever the alignment. -/
theorem read_invariant {s s' : Serial β} (hwriting : s.BitWriting) (hreading : BitReading s)
    (op : MixedOp) (havailable : op.Available s) {depth : Nat} {value : MixedOp}
    (hread : op.read (depth + 4) s = .ok (value, s')) : s'.BitWriting ∧ BitReading s' := by
  cases op with
  | single op =>
      obtain ⟨op', hkind, rest, hunread⟩ := exists_bitOp op havailable
      obtain ⟨r', hop, hreading', -, -, -, hbyte, hcount⟩ :=
        readOp_unread hreading op' hunread (depth + 1)
      rw [hkind] at hop
      simp only [MixedOp.read, hop, ok_bind] at hread
      cases hread
      have hpending : s'.pendingBits = s.pendingBits := by
        rw [pendingBits, hbyte, hcount, pendingBits]
      refine ⟨⟨hreading'.bufferMode, hreading'.bitStream, ?_, ?_⟩, hreading'⟩
      · rw [hcount]
        exact hwriting.marker
      · rw [hpending, hbyte]
        exact hwriting.accumulator
  | block src =>
      have hindex := hreading.index_nonneg
      obtain ⟨bytes, hbytes⟩ : ∃ bytes,
          bytes = slice s.bufferPointer s.bufferReadIndex.toNat src.length := ⟨_, rfl⟩
      have havail : s.bufferReadIndex + src.length ≤ s.bufferPointer.length := havailable
      have hlength : bytes.length = src.length := by
        rw [hbytes]
        exact slice_length (by omega)
      have hholds : s.Holds bytes := ⟨hindex, by omega, by rw [hlength, hbytes]⟩
      have hblock := readBytes_buffer hreading.bufferMode hholds (depth + 3)
        (List.replicate src.length 0)
      rw [hlength] at hblock
      simp only [MixedOp.read, hblock, ok_bind] at hread
      cases hread
      rw [← hlength]
      exact ⟨⟨(Consumed.advanced s bytes).bufferMode hwriting.bufferMode, hwriting.bitStream,
        hwriting.marker, hwriting.accumulator⟩, hreading.advancedBy bytes⟩

/-- Every state a bit stream reaches has fewer than eight pending bits, all of them in the
accumulator, and a legal read marker. -/
theorem Reached.invariant {depth : Nat} {memory : List UInt8} (hsize : memory.length < 2 ^ 63)
    {s : Serial β} (hreached : Reached depth memory s) : s.BitWriting ∧ BitReading s := by
  induction hreached with
  | start =>
      have hmode : (ofBuffer memory true : Serial β).BufferMode := bufferMode_ofBuffer hsize true
      exact ⟨⟨hmode, rfl, Nat.succ_pos 7, rfl⟩, hmode, rfl, rfl, Nat.le_refl 8, Int.le_refl 0⟩
  | write op _ hroom hwrite ih => exact write_invariant ih.1 ih.2 op hroom hwrite
  | read op _ havailable hread ih => exact read_invariant ih.1 ih.2 op havailable hread
  | setWritePosition index _ ih =>
      obtain ⟨hwriting, hreading⟩ := ih
      rw [setWritePosition_buffer hreading.bufferMode]
      exact ⟨hwriting.moved _ _, hreading.moved hreading.index_nonneg _⟩
  | setReadPosition index _ hindex ih =>
      obtain ⟨hwriting, hreading⟩ := ih
      have hlimit := hreading.bufferMode.size_lt
      have hnonneg : 0 ≤ toInt64 index := by
        rw [toInt64_natCast (by omega)]
        omega
      rw [setReadPosition_buffer hreading.bufferMode]
      exact ⟨hwriting.moved _ _, hreading.moved hnonneg _⟩

/-! ### Round trip -/

/-- One aligned operation appends its bits. -/
theorem write_bitsWritten {s s' : Serial β} {bits : List Bool} (hmode : s.BufferMode)
    (hstream : s.bitStream = true) (op : MixedOp) (haligned : op.WriteAligned s')
    (hroom : s.Room ((bits ++ op.bits).length / 8)) (hwritten : BitsWritten s bits s')
    (depth : Nat) :
    ∃ s'', op.write (depth + 4) s' = .ok s'' ∧ BitsWritten s (bits ++ op.bits) s'' := by
  cases op with
  | single op => exact writeOp_bitsWritten hmode hstream op hroom hwritten depth
  | block src =>
      obtain ⟨s'', heach, hwritten'⟩ :=
        writeEachByte_bitsWritten hmode hstream src hroom hwritten depth
      have hwriting := hwritten.bitWriting hmode hstream
      have hfits : s'.Room src.length := by
        obtain ⟨whole, pending, rfl, hwhole, hpending, rfl⟩ := hwritten
        have hroomWhole : s.Room ((pack whole).length + src.length) := by
          apply hroom.mono
          simp only [MixedOp.bits, List.length_append, unpack_length]
          rw [pack_length_of_dvd hwhole]
          omega
        exact Wrote.room ⟨_, _, rfl⟩ hroomWhole
      have hsame := writeEachByte_commutes hwriting hfits haligned depth
      rw [heach] at hsame
      cases hsame
      exact ⟨_, putBytes_wrote (depth + 3) hwriting.bufferMode hfits, hwritten'⟩

theorem writeEach_bitsWritten {s : Serial β} (hmode : s.BufferMode)
    (hstream : s.bitStream = true) (depth : Nat) (ops : List MixedOp) {s' : Serial β}
    {bits : List Bool} (haligned : MixedOp.WritesAligned (depth + 4) ops s')
    (hroom : s.Room ((bits ++ ops.flatMap MixedOp.bits).length / 8))
    (hwritten : BitsWritten s bits s') :
    ∃ s'', writeEach (MixedOp.write (depth + 4)) ops s' = .ok s'' ∧
      BitsWritten s (bits ++ ops.flatMap MixedOp.bits) s'' := by
  refine BitsWritten.writeEach MixedOp.bits (MixedOp.WritesAligned (depth + 4)) ?_ haligned hroom
    hwritten
  intro op rest s' bits hready hop hbefore
  obtain ⟨s'', hwrite, hafter⟩ := write_bitsWritten hmode hstream op hready.1 hop hbefore depth
  exact ⟨s'', hwrite, hafter, hready.2 s'' hwrite⟩

/-- One aligned operation removes its bits and delivers its value. -/
theorem read_unread {r : Serial β} (hreading : BitReading r)
    (hindex : r.bufferReadIndex ≤ r.bufferPointer.length) (op : MixedOp)
    (haligned : op.ReadAligned r) {rest : List Bool} (hunread : unreadBits r = op.bits ++ rest)
    (depth : Nat) :
    ∃ r', op.read (depth + 3) r = .ok (op, r') ∧ BitReading r' ∧ unreadBits r' = rest ∧
      SameMemory r r' := by
  cases op with
  | single op =>
      obtain ⟨r', hread, hkept⟩ := readOp_unread hreading op hunread depth
      exact ⟨r', by simp only [MixedOp.read, hread, ok_bind], hkept⟩
  | block src =>
      have hshort := currentBits_length hreading.marker
      have hnonneg := hreading.index_nonneg
      -- enough bytes are left, since fewer than eight bits are left of the current one
      have htotal := congrArg List.length hunread
      simp only [unreadBits_eq, MixedOp.bits, List.length_append, unpack_length,
        List.length_drop] at htotal
      obtain ⟨bytes, hbytes⟩ : ∃ bytes,
          bytes = slice r.bufferPointer r.bufferReadIndex.toNat src.length := ⟨_, rfl⟩
      have hlength : bytes.length = src.length := by
        rw [hbytes]
        exact slice_length (by omega)
      have hholds : r.Holds bytes := ⟨hnonneg, by omega, by rw [hlength, hbytes]⟩
      rw [MixedOp.ReadAligned, ← hbytes] at haligned
      -- the bytes at the index are the block that was written
      rw [unreadBits_holds hholds, haligned, List.append_assoc] at hunread
      obtain ⟨hblock, hrest⟩ := List.append_inj hunread (by rw [unpack_length, MixedOp.bits,
        unpack_length, hlength])
      obtain rfl := unpack_injective hblock
      have hread := readBytes_buffer hreading.bufferMode hholds (depth + 2)
        (List.replicate bytes.length 0)
      rw [overwrite_all (List.length_replicate).symm] at hread
      refine ⟨r.advanced bytes.length, ?_, ?_, ?_, rfl, fun _ => ?_, rfl, rfl⟩
      · simp only [MixedOp.read, hread, ok_bind]
      · exact hreading.advancedBy bytes
      · have hnat : (r.bufferReadIndex + bytes.length).toNat =
            r.bufferReadIndex.toNat + bytes.length := by
          omega
        rw [← hrest, unreadBits_eq]
        simp only [advanced, hnat]
        rfl
      · simp only [advanced]
        exact hholds.2.1

theorem readAll_unread (depth : Nat) (ops : List MixedOp) {r : Serial β}
    (hreading : BitReading r) (hindex : r.bufferReadIndex ≤ r.bufferPointer.length)
    (haligned : MixedOp.ReadsAligned (depth + 3) ops r) {rest : List Bool}
    (hunread : unreadBits r = ops.flatMap MixedOp.bits ++ rest) :
    ∃ r', MixedOp.readAll (depth + 3) ops r = .ok (ops, r') ∧ BitReading r' ∧
      unreadBits r' = rest := by
  induction ops generalizing r with
  | nil => exact ⟨r, rfl, hreading, hunread⟩
  | cons op ops ih =>
      rw [List.flatMap_cons, List.append_assoc] at hunread
      obtain ⟨r₁, hop, hreading₁, hunread₁, hsame⟩ :=
        read_unread hreading hindex op haligned.1 hunread depth
      obtain ⟨r₂, hrest, hreading₂, hunread₂⟩ :=
        ih hreading₁ (hsame.2.1 hindex) (haligned.2 op r₁ hop) hunread₁
      exact ⟨r₂, by simp only [MixedOp.readAll, hop, ok_bind, hrest], hreading₂, hunread₂⟩

/-- Aligned writes, `synchronize`, and the matching reads. -/
theorem blocks_roundTrip (depth : Nat) (ops : List MixedOp) {memory : List UInt8}
    (hsize : memory.length < 2 ^ 63)
    (hroom : (pack (ops.flatMap MixedOp.bits)).length ≤ memory.length)
    (haligned : MixedOp.WritesAligned (depth + 4) ops (ofBuffer memory true : Serial β)) :
    ∃ s s' : Serial β, writeEach (MixedOp.write (depth + 4)) ops (ofBuffer memory true) = .ok s ∧
      synchronize (depth + 4) s = .ok s' ∧
      (MixedOp.ReadsAligned (depth + 4) ops (ofBuffer s'.bufferPointer true : Serial β) →
        ∃ r : Serial β, MixedOp.readAll (depth + 4) ops (ofBuffer s'.bufferPointer true) =
          .ok (ops, r)) := by
  have hmode : (ofBuffer memory true : Serial β).BufferMode := bufferMode_ofBuffer hsize true
  have hfits : (ofBuffer memory true : Serial β).Room
      (pack (ops.flatMap MixedOp.bits)).length := by
    refine ⟨Int.le_refl 0, ?_⟩
    simp only [ofBuffer]
    omega
  have hwhole : (ofBuffer memory true : Serial β).Room
      (([] ++ ops.flatMap MixedOp.bits).length / 8) := by
    apply hfits.mono
    rw [List.nil_append, pack_length]
    omega
  -- the writes leave the packed bits, apart from those still in the accumulator
  obtain ⟨s, hwrite, hwritten⟩ := writeEach_bitsWritten hmode rfl depth ops haligned hwhole
    (BitsWritten.nil rfl rfl)
  have hsync := synchronize_bitsWritten hmode rfl rfl hfits hwritten (depth + 2)
  refine ⟨s, _, hwrite, hsync, fun hreads => ?_⟩
  -- only the bytes of the buffer matter to the reader
  generalize hpointer : (((ofBuffer memory true : Serial β).stored
    (pack (ops.flatMap MixedOp.bits))).withWriteBits 0 0).bufferPointer = written at hreads ⊢
  have hmemory : written = pack (ops.flatMap MixedOp.bits) ++
      memory.drop (pack (ops.flatMap MixedOp.bits)).length := by
    rw [← hpointer]
    simp only [stored, withWriteBits, ofBuffer, Int.toNat_zero]
    rw [overwrite_eq (by omega), List.take_zero, List.nil_append, Nat.zero_add]
  have hlength : written.length < 2 ^ 63 := by
    rw [hmemory, List.length_append, List.length_drop]
    omega
  have hreading : BitReading (ofBuffer written true : Serial β) :=
    ⟨bufferMode_ofBuffer hlength true, rfl, rfl, Nat.le_refl 8, Int.le_refl 0⟩
  have hunread : unreadBits (ofBuffer written true : Serial β) =
      ops.flatMap MixedOp.bits ++ (padding (ops.flatMap MixedOp.bits).length ++
        unpack (memory.drop (pack (ops.flatMap MixedOp.bits)).length)) := by
    rw [hmemory]
    simp [unreadBits, ofBuffer, unpack_pack]
  obtain ⟨r, hread, -⟩ := readAll_unread (depth + 1) ops hreading
    (Int.natCast_nonneg written.length) hreads hunread
  exact ⟨r, hread⟩

/-- **Block transfers.**  Bit streams over a buffer keep a legal accumulator and marker.  In
such a state a block write has the effect of writing its bytes one by one exactly if the
pending bits and the bits of the block can be swapped; a block read has the result of reading
its bytes one by one exactly if the unread bits of the current byte and those of the block can
be.  A sequence of bit, byte and block writes whose blocks all meet the condition, followed by
`synchronize`, is read back by the matching reads if theirs do. -/
theorem blockTransfers_agree_iff (depth : Nat) :
    (∀ (memory : List UInt8) (s : Serial β), memory.length < 2 ^ 63 → Reached depth memory s →
      s.BitWriting ∧ BitReading s) ∧
    (∀ (s : Serial β) (src : List UInt8), s.BitWriting → s.Room src.length →
      (WriteAgrees (depth + 4) s src ↔ Commutes s.pendingBits (unpack src))) ∧
    (∀ (r : Serial β) (bytes : List UInt8), BitReading r → r.Holds bytes →
      (ReadAgrees (depth + 4) r bytes.length ↔ Commutes r.currentBits (unpack bytes))) ∧
    (∀ (memory : List UInt8) (ops : List MixedOp), memory.length < 2 ^ 63 →
      (pack (ops.flatMap MixedOp.bits)).length ≤ memory.length →
      MixedOp.WritesAligned (depth + 4) ops (ofBuffer memory true : Serial β) →
      ∃ s s' : Serial β, writeEach (MixedOp.write (depth + 4)) ops (ofBuffer memory true) = .ok s ∧
        synchronize (depth + 4) s = .ok s' ∧
        (MixedOp.ReadsAligned (depth + 4) ops (ofBuffer s'.bufferPointer true : Serial β) →
          ∃ r : Serial β, MixedOp.readAll (depth + 4) ops (ofBuffer s'.bufferPointer true) =
            .ok (ops, r))) := by
  refine ⟨fun memory s hsize hreached => hreached.invariant hsize,
    fun s src hwriting hroom => writeAgrees_iff hwriting src hroom depth,
    fun r bytes hreading hholds => readAgrees_iff hreading hholds (depth + 1), ?_⟩
  intro memory ops hsize hroom haligned
  exact blocks_roundTrip depth ops hsize hroom haligned

/-- A block at a byte boundary, and then a bit. -/
theorem blockTransfers_agree_sample :
    WriteAgrees 4 (ofBuffer [7, 7] true : Serial Stringbuf) [200] ∧
    ReadAgrees 4 (ofBuffer [7, 7] true : Serial Stringbuf) 1 ∧
    ∃ s s' : Serial Stringbuf,
      writeEach (MixedOp.write 4) [.block [200], .single (.bit true)] (ofBuffer [7, 7] true) =
        .ok s ∧
      synchronize 4 s = .ok s' ∧
      ∃ r : Serial Stringbuf,
        MixedOp.readAll 4 [.block [200], .single (.bit true)] (ofBuffer s'.bufferPointer true) =
          .ok ([.block [200], .single (.bit true)], r) := by
  obtain ⟨hreached, hwrites, hreads, htrip⟩ := blockTransfers_agree_iff (β := Stringbuf) 0
  obtain ⟨hwriting, hreading⟩ := hreached [7, 7] _ (by decide) .start
  obtain ⟨s, s', hwrite, hsync, hread⟩ := htrip [7, 7] [.block [200], .single (.bit true)]
    (by decide) (by decide) ⟨rfl, fun _ _ => ⟨trivial, fun _ _ => trivial⟩⟩
  refine ⟨(hwrites _ [200] hwriting ⟨by decide, by decide⟩).2 rfl,
    (hreads _ [7] hreading ⟨by decide, by decide, rfl⟩).2 rfl, s, s', hwrite, hsync, hread ?_⟩
  exact ⟨(List.append_nil _).symm, fun _ _ _ => ⟨trivial, fun _ _ _ => trivial⟩⟩

/-- Behind a pending bit, the block overtakes it. -/
theorem not_blockTransfers_agree :
    ∃ s block each : Serial Stringbuf, Reached 0 [0, 0] s ∧ s.Room 1 ∧
      putBytes 4 [0] s = .ok block ∧ writeEach (writeByte 4) [0] s = .ok each ∧
      block.bufferPointer = [0, 0] ∧ each.bufferPointer = [1, 0] := by
  refine ⟨_, _, _, .write (.single (.bit true)) .start ⟨?_, ?_⟩ rfl, ⟨?_, ?_⟩, rfl, rfl, ?_, ?_⟩ <;>
    decide

end Serial
end Iostreams
