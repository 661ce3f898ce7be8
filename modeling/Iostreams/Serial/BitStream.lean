import Iostreams.Serial.BufferMode
import Iostreams.Serial.Operators

/-!
# Bits and bytes on a bit stream

On a bit-stream `Serial` over a buffer, bits and bytes may be written in any
order.  The writer keeps an accumulator: `BitsWritten s bits s'` says that the
whole bytes of `bits` lie packed behind the write index of `s` and the fewer
than eight others are in the accumulator, whose marker counts them.

The reader's marker is different: it counts the bits taken from the current
byte, and both zero and eight mean that none is left.  `unreadBits` is the
sequence of bits a reader has not delivered yet, and the reader's invariant is
that one operation removes exactly its own bits from the front.

`bitStream_roundTrip` combines the two over arbitrary sequences of operations.
-/

namespace Iostreams

open Foundation

/-! ## Operations -/

/-- One output operation and its argument. -/
inductive BitOp where
  /-- `writeBit(bit)` -/
  | bit (value : Bool)
  /-- `<< bool` -/
  | bool (value : Bool)
  /-- `writeByte(byte)` -/
  | byte (value : UInt8)
  deriving DecidableEq, Repr

/-- The input operation that matches an output operation. -/
inductive BitKind where
  | bit
  | bool
  | byte
  deriving DecidableEq, Repr

namespace BitOp

def kind : BitOp → BitKind
  | .bit _ => .bit
  | .bool _ => .bool
  | .byte _ => .byte

/-- The bits an operation contributes. -/
def bits : BitOp → List Bool
  | .bit value => [value]
  | .bool value => [value]
  | .byte value => byteBits value

end BitOp

namespace Serial

variable {β : Type} [Streambuf β]

def writeOp (depth : Nat) (s : Serial β) : BitOp → Except Halt (Serial β)
  | .bit value => writeBit depth s value
  | .bool value => putBool depth value s
  | .byte value => writeByte depth s value

/-- The values written, `synchronize` last. -/
def writeOps (depth : Nat) (ops : List BitOp) (s : Serial β) : Except Halt (Serial β) := do
  let s ← writeEach (writeOp depth) ops s
  synchronize depth s

def readOp (depth : Nat) (s : Serial β) : BitKind → Except Halt (BitOp × Serial β)
  | .bit => do
      let (value, s) ← readBit depth s
      .ok (.bit value, s)
  | .bool => do
      let (value, r) ← Reader.getBool depth (⟨s, none⟩ : Reader β β)
      .ok (.bool value, r.serial)
  | .byte => do
      let (value, s) ← readByte depth s
      .ok (.byte value, s)

def readOps (depth : Nat) : List BitKind → Serial β → Except Halt (List BitOp × Serial β)
  | [], s => .ok ([], s)
  | kind :: rest, s => do
      let (op, s) ← readOp depth s kind
      let (ops, s) ← readOps depth rest s
      .ok (op :: ops, s)

/-! ## The writer's accumulator -/

/-- The state of a writer that started in `s` with an empty accumulator and has
taken `bits`. -/
def BitsWritten (s : Serial β) (bits : List Bool) (s' : Serial β) : Prop :=
  ∃ whole pending, bits = whole ++ pending ∧ 8 ∣ whole.length ∧ pending.length < 8 ∧
    s' = (s.stored (pack whole)).withWriteBits (ofBits pending) pending.length

omit [Streambuf β] in
theorem BitsWritten.nil {s : Serial β} (hbyte : s.currentWriteByte = 0)
    (hcount : s.bitsWrittenWriteByte = 0) : BitsWritten s [] s := by
  refine ⟨[], [], rfl, Nat.dvd_zero 8, by simp, ?_⟩
  rw [pack_nil, stored_nil, ofBits_nil, List.length_nil, ← hbyte, ← hcount, withWriteBits_self]

omit [Streambuf β] in
theorem BitsWritten.bitStream {s s' : Serial β} {bits : List Bool}
    (hwritten : BitsWritten s bits s') : s'.bitStream = s.bitStream := by
  obtain ⟨_, _, _, _, _, rfl⟩ := hwritten
  rfl

/-- At a byte boundary, or once the accumulator is full, `writeByte` stores its
argument and empties the accumulator. -/
theorem writeByte_packed {s : Serial β} (hmode : s.BufferMode) {whole byteOf : List Bool}
    (hwhole : 8 ∣ whole.length) (hbyte : byteOf.length = 8)
    (hroom : s.Room (pack (whole ++ byteOf)).length) (depth : Nat) (byte : UInt8) {count : Nat}
    (hcount : count = 0 ∨ count = 8) :
    writeByte (depth + 2) ((s.stored (pack whole)).withWriteBits byte count) (ofBits byteOf) =
      .ok ((s.stored (pack (whole ++ byteOf))).withWriteBits 0 0) := by
  have hpack : pack (whole ++ byteOf) = pack whole ++ [ofBits byteOf] := by
    have hlast := pack_byte hbyte []
    rw [List.append_nil, pack_nil] at hlast
    rw [pack_append hwhole, hlast]
  rw [hpack, List.length_append] at hroom
  have hwrote : Wrote s (pack whole) ((s.stored (pack whole)).withWriteBits byte count) :=
    ⟨byte, count, rfl⟩
  have hwrite := writeBytes_buffer (hwrote.bufferMode hmode) [ofBits byteOf]
    (hwrote.room hroom) depth
  have hboundary : ¬(0 < count ∧ count < 8) := by omega
  have hguard : ¬(((s.stored (pack whole)).withWriteBits byte count).bitStream = true ∧
      0 < ((s.stored (pack whole)).withWriteBits byte count).bitsWrittenWriteByte ∧
      ((s.stored (pack whole)).withWriteBits byte count).bitsWrittenWriteByte < 8) :=
    fun hpending => hboundary hpending.2
  rw [writeByte, if_neg hguard, hwrite, hpack, ← stored_stored hroom]
  rfl

theorem writeBit_bitsWritten {s s' : Serial β} {bits : List Bool} (hmode : s.BufferMode)
    (bit : Bool) (hroom : s.Room ((bits ++ [bit]).length / 8)) (hwritten : BitsWritten s bits s')
    (depth : Nat) :
    ∃ s'', writeBit (depth + 3) s' bit = .ok s'' ∧ BitsWritten s (bits ++ [bit]) s'' := by
  obtain ⟨whole, pending, rfl, hwhole, hpending, rfl⟩ := hwritten
  have hput : ((s.stored (pack whole)).withWriteBits (ofBits pending) pending.length).putWriteBit
      bit = (s.stored (pack whole)).withWriteBits (ofBits (pending ++ [bit]))
        (pending.length + 1) := by
    rw [← ofBits_concat hpending bit]
    rfl
  rw [List.append_assoc] at hroom ⊢
  rw [writeBit, hput]
  by_cases hfull : pending.length + 1 = 8
  · -- the accumulator is full: one byte is flushed
    have hbyte : (pending ++ [bit]).length = 8 := by simpa using hfull
    have hdvd : 8 ∣ (whole ++ (pending ++ [bit])).length := by
      rw [List.length_append, hbyte]
      omega
    rw [← pack_length_of_dvd hdvd] at hroom
    refine ⟨(s.stored (pack (whole ++ (pending ++ [bit])))).withWriteBits 0 0, ?_,
      whole ++ (pending ++ [bit]), [], by simp, hdvd, by simp, rfl⟩
    simp only [hfull]
    exact writeByte_packed hmode hwhole hbyte hroom depth _ (Or.inr rfl)
  · refine ⟨_, if_neg hfull, whole, pending ++ [bit], rfl, hwhole, by simp; omega, ?_⟩
    rw [List.length_append, List.length_singleton]

omit [Streambuf β] in
/-- Items written one by one append their bits, if each of them does wherever a condition on the
rest of the items holds, and the condition stays. -/
theorem BitsWritten.writeEach {α : Type} {s : Serial β} (bitsOf : α → List Bool)
    {write : Serial β → α → Except Halt (Serial β)} (ready : List α → Serial β → Prop)
    (hwrite : ∀ item rest s' bits, ready (item :: rest) s' →
      s.Room ((bits ++ bitsOf item).length / 8) → BitsWritten s bits s' →
      ∃ s'', write s' item = .ok s'' ∧ BitsWritten s (bits ++ bitsOf item) s'' ∧ ready rest s'')
    {items : List α} {s' : Serial β} {bits : List Bool} (hready : ready items s')
    (hroom : s.Room ((bits ++ items.flatMap bitsOf).length / 8))
    (hwritten : BitsWritten s bits s') :
    ∃ s'', Serial.writeEach write items s' = .ok s'' ∧
      BitsWritten s (bits ++ items.flatMap bitsOf) s'' := by
  induction items generalizing bits s' with
  | nil => exact ⟨s', rfl, by simpa using hwritten⟩
  | cons item rest ih =>
      rw [List.flatMap_cons, ← List.append_assoc] at hroom ⊢
      obtain ⟨s₁, hitem, hwritten₁, hready₁⟩ :=
        hwrite item rest s' bits hready (hroom.mono (length_div_le_append _ _)) hwritten
      obtain ⟨s₂, hrest, hwritten₂⟩ := ih hready₁ hroom hwritten₁
      exact ⟨s₂, by rw [Serial.writeEach, hitem, ok_bind, hrest], hwritten₂⟩

omit [Streambuf β] in
/-- The same without a condition. -/
theorem BitsWritten.writeEvery {α : Type} {s : Serial β} (bitsOf : α → List Bool)
    {write : Serial β → α → Except Halt (Serial β)}
    (hwrite : ∀ item s' bits, s.Room ((bits ++ bitsOf item).length / 8) → BitsWritten s bits s' →
      ∃ s'', write s' item = .ok s'' ∧ BitsWritten s (bits ++ bitsOf item) s'')
    {items : List α} {s' : Serial β} {bits : List Bool}
    (hroom : s.Room ((bits ++ items.flatMap bitsOf).length / 8))
    (hwritten : BitsWritten s bits s') :
    ∃ s'', Serial.writeEach write items s' = .ok s'' ∧
      BitsWritten s (bits ++ items.flatMap bitsOf) s'' := by
  refine BitsWritten.writeEach bitsOf (fun _ _ => True) ?_ trivial hroom hwritten
  intro item _ s' bits _ hitemRoom hbefore
  obtain ⟨s'', hitem, hafter⟩ := hwrite item s' bits hitemRoom hbefore
  exact ⟨s'', hitem, hafter, trivial⟩

theorem writeBits_bitsWritten {s : Serial β} (hmode : s.BufferMode) (depth : Nat)
    (more : List Bool) {s' : Serial β} {bits : List Bool}
    (hroom : s.Room ((bits ++ more).length / 8)) (hwritten : BitsWritten s bits s') :
    ∃ s'', writeEach (writeBit (depth + 3)) more s' = .ok s'' ∧
      BitsWritten s (bits ++ more) s'' := by
  have hbits : more.flatMap (fun bit => [bit]) = more := List.flatMap_singleton' more
  rw [← hbits] at hroom
  have heach := BitsWritten.writeEvery (fun bit => [bit]) (fun bit s' bits hbit hbefore =>
    writeBit_bitsWritten hmode bit hbit hbefore depth) hroom hwritten
  rw [hbits] at heach
  exact heach

theorem writeByte_bitsWritten {s s' : Serial β} {bits : List Bool} (hmode : s.BufferMode)
    (hstream : s.bitStream = true) (byte : UInt8)
    (hroom : s.Room ((bits ++ byteBits byte).length / 8)) (hwritten : BitsWritten s bits s')
    (depth : Nat) :
    ∃ s'', writeByte (depth + 4) s' byte = .ok s'' ∧
      BitsWritten s (bits ++ byteBits byte) s'' := by
  by_cases hpending : 0 < s'.bitsWrittenWriteByte ∧ s'.bitsWrittenWriteByte < 8
  · -- unaligned: bit by bit
    obtain ⟨s'', heach, hwritten'⟩ := writeBits_bitsWritten hmode depth (byteBits byte) hroom
      hwritten
    refine ⟨s'', ?_, hwritten'⟩
    rw [writeByte, if_pos ⟨hwritten.bitStream.trans hstream, hpending⟩, heach]
  · -- aligned: the byte goes to the buffer as it is
    obtain ⟨whole, pending, rfl, hwhole, hshort, rfl⟩ := hwritten
    have hnil : pending = [] := by
      simp only [withWriteBits] at hpending
      exact List.length_eq_zero_iff.mp (by omega)
    subst hnil
    have hdvd : 8 ∣ (whole ++ byteBits byte).length := by
      rw [List.length_append, byteBits_length]
      omega
    rw [List.append_nil, ← pack_length_of_dvd hdvd] at hroom
    rw [List.append_nil]
    have hwrite := writeByte_packed hmode hwhole (byteBits_length byte) hroom (depth + 2)
      (ofBits []) (Or.inl rfl)
    rw [ofBits_byteBits] at hwrite
    exact ⟨_, hwrite, whole ++ byteBits byte, [], by simp, hdvd, by simp, rfl⟩

/-- One operation appends its bits. -/
theorem writeOp_bitsWritten {s s' : Serial β} {bits : List Bool} (hmode : s.BufferMode)
    (hstream : s.bitStream = true) (op : BitOp) (hroom : s.Room ((bits ++ op.bits).length / 8))
    (hwritten : BitsWritten s bits s') (depth : Nat) :
    ∃ s'', writeOp (depth + 4) s' op = .ok s'' ∧ BitsWritten s (bits ++ op.bits) s'' := by
  cases op with
  | bit value => exact writeBit_bitsWritten hmode value hroom hwritten (depth + 1)
  | bool value =>
      simp only [writeOp, putBool, hwritten.bitStream.trans hstream, if_true]
      exact writeBit_bitsWritten hmode value hroom hwritten (depth + 1)
  | byte value => exact writeByte_bitsWritten hmode hstream value hroom hwritten depth

theorem writeEachOp_bitsWritten {s : Serial β} (hmode : s.BufferMode)
    (hstream : s.bitStream = true) (depth : Nat) (ops : List BitOp) {s' : Serial β}
    {bits : List Bool} (hroom : s.Room ((bits ++ ops.flatMap BitOp.bits).length / 8))
    (hwritten : BitsWritten s bits s') :
    ∃ s'', writeEach (writeOp (depth + 4)) ops s' = .ok s'' ∧
      BitsWritten s (bits ++ ops.flatMap BitOp.bits) s'' := by
  apply BitsWritten.writeEvery BitOp.bits _ hroom hwritten
  intro op s' bits hop hbefore
  exact writeOp_bitsWritten hmode hstream op hop hbefore depth

/-- Without streams, `synchronize` only flushes the accumulator, zero-padded. -/
theorem synchronize_bitsWritten {s s' : Serial β} {bits : List Bool} (hmode : s.BufferMode)
    (hwriteStream : s.writeStreamPointer = false) (hreadStream : s.readStreamPointer = false)
    (hroom : s.Room (pack bits).length) (hwritten : BitsWritten s bits s') (depth : Nat) :
    synchronize (depth + 2) s' = .ok ((s.stored (pack bits)).withWriteBits 0 0) := by
  obtain ⟨whole, pending, rfl, hwhole, hpending, rfl⟩ := hwritten
  by_cases hnil : pending = []
  · subst hnil
    simp [synchronize, writeStream, readStream, stored, withWriteBits, hwriteStream, hreadStream]
  · -- the pending bits and the zeros behind them are one byte
    have hpos : 0 < pending.length := List.length_pos_iff.mpr hnil
    have hpack : pack (whole ++ pending) = pack (whole ++ byteBits (ofBits pending)) := by
      rw [pack_append hwhole, pack_append hwhole, ← pack_padding pending,
        byteBits_ofBits (by omega), padding]
      congr 4
      omega
    rw [hpack] at hroom ⊢
    have hwrite := writeByte_packed hmode hwhole (byteBits_length (ofBits pending)) hroom depth
      (ofBits pending) (Or.inr rfl)
    rw [ofBits_byteBits] at hwrite
    have hguard : 0 < ((s.stored (pack whole)).withWriteBits (ofBits pending)
        pending.length).bitsWrittenWriteByte ∧ ((s.stored (pack whole)).withWriteBits
        (ofBits pending) pending.length).bitsWrittenWriteByte < 8 := ⟨hpos, hpending⟩
    rw [synchronize, if_pos hguard]
    have hflush := hwrite
    simp only [withWriteBits] at hflush ⊢
    rw [hflush, ok_bind]
    simp [writeStream, readStream, stored, hwriteStream, hreadStream]

/-! ## The reader's unread bits -/

/-- The bits left in the current byte and the bits of the bytes behind it. -/
def unreadBits (r : Serial β) : List Bool :=
  (if r.bitsReadReadByte = 0 ∨ r.bitsReadReadByte = 8 then []
    else (byteBits r.currentReadByte).drop r.bitsReadReadByte) ++
  unpack (r.bufferPointer.drop r.bufferReadIndex.toNat)

/-- A bit-stream reader over a buffer. -/
structure BitReading (r : Serial β) : Prop where
  bufferMode : r.BufferMode
  bitStream : r.bitStream = true
  noOffset : r.nextReadOffset = 0
  marker : r.bitsReadReadByte ≤ 8
  index_nonneg : 0 ≤ r.bufferReadIndex

theorem drop_byteBits (byte : UInt8) {index : Nat} (hindex : index < 8) :
    (byteBits byte).drop index =
      byte.toNat.testBit index :: (byteBits byte).drop (index + 1) := by
  rw [List.drop_eq_getElem_cons (by simpa using hindex)]
  simp [byteBits]

omit [Streambuf β] in
/-- A reader at a byte boundary with unread bits has a byte to read. -/
theorem BitReading.nextByte {r : Serial β} (hreading : BitReading r)
    (haligned : r.bitsReadReadByte = 0 ∨ r.bitsReadReadByte = 8) (hunread : unreadBits r ≠ []) :
    ∃ byte, r.Holds [byte] ∧
      unreadBits r = byteBits byte ++ unpack ((r.advanced 1).bufferPointer.drop
        (r.advanced 1).bufferReadIndex.toNat) := by
  have hindex := hreading.index_nonneg
  rw [unreadBits, if_pos haligned, List.nil_append] at hunread ⊢
  cases hrest : r.bufferPointer.drop r.bufferReadIndex.toNat with
  | nil => simp [hrest] at hunread
  | cons byte rest =>
      have hlength := congrArg List.length hrest
      rw [List.length_drop, List.length_cons] at hlength
      have hnext : (r.bufferReadIndex + 1).toNat = r.bufferReadIndex.toNat + 1 := by omega
      refine ⟨byte, ⟨hindex, ?_, ?_⟩, ?_⟩
      · rw [List.length_singleton]
        omega
      · simp [slice, hrest]
      · simp [advanced, hnext, ← List.drop_drop, hrest]

omit [Streambuf β] in
/-- Taking a byte off the buffer keeps the invariant, whatever the marker. -/
theorem BitReading.advance {r : Serial β} (hreading : BitReading r) (byte : UInt8) {count : Nat}
    (hcount : count ≤ 8) : BitReading ((r.advanced 1).withReadBits byte count) where
  bufferMode := ⟨hreading.bufferMode.notCount, hreading.bufferMode.isBuffer,
    hreading.bufferMode.size_eq, hreading.bufferMode.size_lt, hreading.bufferMode.noMismatch,
    hreading.bufferMode.noLastMismatch⟩
  bitStream := hreading.bitStream
  noOffset := hreading.noOffset
  marker := hcount
  index_nonneg := by
    have hindex := hreading.index_nonneg
    simp only [withReadBits, advanced]
    omega

/-- The reader is still on the same buffer, not behind its end unless it was, and the
output accumulator is as before. -/
def SameMemory (r r' : Serial β) : Prop :=
  r'.bufferPointer = r.bufferPointer ∧
    (r.bufferReadIndex ≤ r.bufferPointer.length →
      r'.bufferReadIndex ≤ r'.bufferPointer.length) ∧
    r'.currentWriteByte = r.currentWriteByte ∧ r'.bitsWrittenWriteByte = r.bitsWrittenWriteByte

omit [Streambuf β] in
theorem SameMemory.refl (r : Serial β) : SameMemory r r := ⟨rfl, id, rfl, rfl⟩

omit [Streambuf β] in
theorem SameMemory.trans {r r' r'' : Serial β} (hfirst : SameMemory r r')
    (hsecond : SameMemory r' r'') : SameMemory r r'' :=
  ⟨hsecond.1.trans hfirst.1, fun hindex => hsecond.2.1 (hfirst.2.1 hindex),
    hsecond.2.2.1.trans hfirst.2.2.1, hsecond.2.2.2.trans hfirst.2.2.2⟩

omit [Streambuf β] in
theorem SameMemory.advance (r : Serial β) (byte : UInt8) (count : Nat) {next : UInt8}
    (hholds : r.Holds [next]) : SameMemory r ((r.advanced 1).withReadBits byte count) :=
  ⟨rfl, fun _ => hholds.2.1, rfl, rfl⟩

theorem readBytes_nextByte {r : Serial β} (hreading : BitReading r) {byte : UInt8}
    (hholds : r.Holds [byte]) (depth : Nat) :
    readBytes (depth + 1) r [r.currentReadByte] 1 = .ok (1, [byte], r.advanced 1) := by
  have hread := readBytes_buffer hreading.bufferMode hholds depth [r.currentReadByte]
  rw [overwrite_all (by rfl)] at hread
  exact hread

theorem readBit_unread {r : Serial β} (hreading : BitReading r) {bit : Bool}
    {rest : List Bool} (hunread : unreadBits r = bit :: rest) (depth : Nat) :
    ∃ r', readBit (depth + 2) r = .ok (bit, r') ∧ BitReading r' ∧ unreadBits r' = rest ∧
      SameMemory r r' := by
  by_cases haligned : r.bitsReadReadByte = 0 ∨ r.bitsReadReadByte = 8
  · -- refill the current byte and take its first bit
    obtain ⟨byte, hholds, hbytes⟩ := hreading.nextByte haligned (by simp [hunread])
    have hhead := drop_byteBits byte (show 0 < 8 by omega)
    rw [hunread, ← @List.drop_zero _ (byteBits byte), hhead, List.cons_append,
      List.cons.injEq] at hbytes
    obtain ⟨hbit, hrest⟩ := hbytes
    have hneeded : r.needsReadByte = (true, r) := if_pos hreading.noOffset
    refine ⟨(r.advanced 1).withReadBits byte 1, ?_, hreading.advance byte (by omega), ?_⟩
    · rw [readBit, if_pos haligned, hneeded]
      simp only [if_true, readBytes_nextByte hreading hholds depth, ok_bind]
      simp [refilled, takeReadBit, withReadBits, hbit]
    · rw [hrest]
      exact ⟨rfl, SameMemory.advance r byte _ hholds⟩
  · -- the next bit of the current byte
    have hmarker := hreading.marker
    have hindex : r.bitsReadReadByte < 8 := by omega
    rw [unreadBits, if_neg haligned, drop_byteBits _ hindex, List.cons_append,
      List.cons.injEq] at hunread
    obtain ⟨hbit, hrest⟩ := hunread
    refine ⟨r.withReadBits r.currentReadByte (r.bitsReadReadByte + 1), ?_, ?_, ?_⟩
    · have hmin : min r.bitsReadReadByte 7 = r.bitsReadReadByte := by omega
      rw [readBit, if_neg haligned, takeReadBit, hmin, hbit]
      rfl
    · exact ⟨⟨hreading.bufferMode.notCount, hreading.bufferMode.isBuffer,
        hreading.bufferMode.size_eq, hreading.bufferMode.size_lt, hreading.bufferMode.noMismatch,
        hreading.bufferMode.noLastMismatch⟩, hreading.bitStream, hreading.noOffset, hindex,
        hreading.index_nonneg⟩
    · refine ⟨?_, rfl, id, rfl, rfl⟩
      rw [← hrest]
      by_cases hlast : r.bitsReadReadByte + 1 = 8
      · simp [unreadBits, withReadBits, hlast, List.drop_of_length_le]
      · rw [unreadBits, if_neg (by simp only [withReadBits]; omega)]
        rfl

/-- Eight bit reads rebuild a byte; `taken` are the bits already placed. -/
theorem readByteBits_unread (depth : Nat) (taken needed : List Bool)
    (hcount : taken.length + needed.length = 8) {r : Serial β} (hreading : BitReading r)
    {rest : List Bool} (hunread : unreadBits r = needed ++ rest) :
    ∃ r', readByteBits (readBit (depth + 2)) needed.length (ofBits taken) r =
        .ok (ofBits (taken ++ needed), r') ∧
      BitReading r' ∧ unreadBits r' = rest ∧ SameMemory r r' := by
  induction needed generalizing taken r with
  | nil => exact ⟨r, by simp [readByteBits], hreading, hunread, SameMemory.refl r⟩
  | cons bit needed ih =>
      rw [List.length_cons] at hcount
      obtain ⟨r₁, hbit, hreading₁, hunread₁, hsame₁⟩ := readBit_unread hreading hunread depth
      have hposition : 8 - (needed.length + 1) = taken.length := by omega
      obtain ⟨r₂, hrest, hreading₂, hunread₂, hsame₂⟩ := ih (taken ++ [bit])
        (by rw [List.length_append, List.length_singleton]; omega) hreading₁ hunread₁
      refine ⟨r₂, ?_, hreading₂, hunread₂, hsame₁.trans hsame₂⟩
      rw [List.length_cons, readByteBits, hbit]
      simp only [ok_bind, hposition]
      rw [ofBits_concat (by omega), hrest, List.append_assoc, List.singleton_append]

theorem readByte_unread {r : Serial β} (hreading : BitReading r) {byte : UInt8}
    {rest : List Bool} (hunread : unreadBits r = byteBits byte ++ rest) (depth : Nat) :
    ∃ r', readByte (depth + 3) r = .ok (byte, r') ∧ BitReading r' ∧ unreadBits r' = rest ∧
      SameMemory r r' := by
  by_cases hpending : 0 < r.bitsReadReadByte ∧ r.bitsReadReadByte < 8
  · -- unaligned: eight bits, some of them from the next byte
    obtain ⟨r', hread, hkept⟩ := readByteBits_unread depth []
      (byteBits byte) (by simp) hreading hunread
    rw [byteBits_length, List.nil_append, ofBits_byteBits, ofBits_nil] at hread
    exact ⟨r', by rw [readByte, if_pos ⟨hreading.bitStream, hpending⟩, hread], hkept⟩
  · have hmarker := hreading.marker
    have hne : unreadBits r ≠ [] := by
      intro hnil
      have hlength := congrArg List.length (hunread.symm.trans hnil)
      simp at hlength
    obtain ⟨next, hholds, hbytes⟩ := hreading.nextByte (by omega) hne
    rw [hunread] at hbytes
    obtain ⟨hbits, hrest⟩ := List.append_inj hbytes (by simp)
    have hnext : byte = next := by
      rw [← ofBits_byteBits byte, hbits, ofBits_byteBits]
    subst hnext
    refine ⟨(r.advanced 1).withReadBits byte 0, ?_, hreading.advance byte (by omega), ?_⟩
    · rw [readByte, if_neg fun hguard => hpending hguard.2,
        readBytes_nextByte hreading hholds (depth + 1)]
      rfl
    · rw [hrest]
      exact ⟨rfl, SameMemory.advance r byte _ hholds⟩

/-- The matching operation removes the bits of `op` and delivers its value. -/
theorem readOp_unread {r : Serial β} (hreading : BitReading r) (op : BitOp)
    {rest : List Bool} (hunread : unreadBits r = op.bits ++ rest) (depth : Nat) :
    ∃ r', readOp (depth + 3) r op.kind = .ok (op, r') ∧ BitReading r' ∧ unreadBits r' = rest ∧
      SameMemory r r' := by
  cases op with
  | bit value =>
      obtain ⟨r', hread, hrest⟩ := readBit_unread hreading hunread (depth + 1)
      exact ⟨r', by simp [readOp, BitOp.kind, hread], hrest⟩
  | bool value =>
      obtain ⟨r', hread, hrest⟩ := readBit_unread hreading hunread (depth + 1)
      exact ⟨r', by simp [readOp, BitOp.kind, Reader.getBool, hreading.bitStream, hread], hrest⟩
  | byte value =>
      obtain ⟨r', hread, hrest⟩ := readByte_unread hreading hunread depth
      exact ⟨r', by simp [readOp, BitOp.kind, hread], hrest⟩

theorem readOps_unread (depth : Nat) (ops : List BitOp) {r : Serial β}
    (hreading : BitReading r) {rest : List Bool}
    (hunread : unreadBits r = ops.flatMap BitOp.bits ++ rest) :
    ∃ r', readOps (depth + 3) (ops.map BitOp.kind) r = .ok (ops, r') ∧
      BitReading r' ∧ unreadBits r' = rest := by
  induction ops generalizing r with
  | nil => exact ⟨r, rfl, hreading, hunread⟩
  | cons op ops ih =>
      rw [List.flatMap_cons, List.append_assoc] at hunread
      obtain ⟨r₁, hop, hreading₁, hunread₁, -⟩ := readOp_unread hreading op hunread depth
      obtain ⟨r₂, hrest, hreading₂, hunread₂⟩ := ih hreading₁ hunread₁
      refine ⟨r₂, ?_, hreading₂, hunread₂⟩
      simp only [List.map_cons, readOps, hop, ok_bind, hrest]

/-! ## Round trip -/

/-- **Bit packing.**  Any sequence of bit, boolean and byte writes into a fresh
bit stream over a buffer with room for it, followed by `synchronize`, stores
the packing of the concatenated bits at the start of the buffer and leaves the
write index behind it.  A fresh bit stream over that buffer that issues the
matching reads obtains the values written. -/
theorem bitStream_roundTrip (depth : Nat) (ops : List BitOp) (memory : List UInt8)
    (hsize : memory.length < 2 ^ 63)
    (hroom : ((ops.flatMap BitOp.bits).length + 7) / 8 ≤ memory.length) :
    ∃ s : Serial β, writeOps (depth + 4) ops (ofBuffer memory true) = .ok s ∧
      s.bufferPointer = pack (ops.flatMap BitOp.bits) ++
        memory.drop (((ops.flatMap BitOp.bits).length + 7) / 8) ∧
      s.bufferWriteIndex = (((ops.flatMap BitOp.bits).length + 7) / 8 : Nat) ∧
      ∃ r : Serial β, readOps (depth + 4) (ops.map BitOp.kind)
        (ofBuffer s.bufferPointer true) = .ok (ops, r) := by
  have hmode : (ofBuffer memory true : Serial β).BufferMode := bufferMode_ofBuffer hsize true
  have hpacked := pack_length (ops.flatMap BitOp.bits)
  have hfits : (ofBuffer memory true : Serial β).Room (pack (ops.flatMap BitOp.bits)).length := by
    refine ⟨Int.le_refl 0, ?_⟩
    simp only [ofBuffer]
    omega
  have hwhole : (ofBuffer memory true : Serial β).Room
      (([] ++ ops.flatMap BitOp.bits).length / 8) := by
    apply hfits.mono
    rw [List.nil_append, hpacked]
    omega
  obtain ⟨s', heach, hwritten⟩ := writeEachOp_bitsWritten hmode rfl depth ops hwhole
    (BitsWritten.nil rfl rfl)
  have hsync := synchronize_bitsWritten hmode rfl rfl hfits hwritten (depth + 2)
  have hmemory : ((ofBuffer memory true : Serial β).stored
      (pack (ops.flatMap BitOp.bits))).bufferPointer = pack (ops.flatMap BitOp.bits) ++
        memory.drop (((ops.flatMap BitOp.bits).length + 7) / 8) := by
    simp only [stored, ofBuffer, Int.toNat_zero]
    rw [overwrite_eq (by omega), List.take_zero, List.nil_append, Nat.zero_add, hpacked]
  -- what the reader finds are the bits that were written, padding and old memory
  refine ⟨_, by rw [writeOps, heach, ok_bind]; exact hsync, hmemory, ?_, ?_⟩
  · simp [stored, ofBuffer, hpacked]
  · have hlength : ((ofBuffer memory true : Serial β).stored
        (pack (ops.flatMap BitOp.bits))).bufferPointer.length < 2 ^ 63 := by
      simpa [stored, ofBuffer] using hsize
    have hreading : BitReading (ofBuffer ((ofBuffer memory true : Serial β).stored
        (pack (ops.flatMap BitOp.bits))).bufferPointer true : Serial β) :=
      ⟨bufferMode_ofBuffer hlength true, rfl, rfl, Nat.le_refl 8, Int.le_refl 0⟩
    have hunread : unreadBits (ofBuffer ((ofBuffer memory true : Serial β).stored
        (pack (ops.flatMap BitOp.bits))).bufferPointer true : Serial β) =
        ops.flatMap BitOp.bits ++ (padding (ops.flatMap BitOp.bits).length ++
          unpack (memory.drop (((ops.flatMap BitOp.bits).length + 7) / 8))) := by
      rw [hmemory]
      simp [unreadBits, ofBuffer, unpack_pack]
    obtain ⟨r, hread, _⟩ := readOps_unread (depth + 1) ops hreading hunread
    exact ⟨r, hread⟩

/-- A bit, an unaligned byte and a boolean occupy two bytes. -/
theorem bitStream_roundTrip_sample :
    ∃ s : Serial Stringbuf,
      writeOps 4 [.bit true, .byte 200, .bool false] (ofBuffer [7, 7, 7] true) = .ok s ∧
      s.bufferPointer = pack [true, false, false, false, true, false, false, true, true, false] ++
        [7] ∧
      s.bufferWriteIndex = 2 ∧
      ∃ r : Serial Stringbuf, readOps 4 [.bit, .byte, .bool] (ofBuffer s.bufferPointer true) =
        .ok ([.bit true, .byte 200, .bool false], r) :=
  bitStream_roundTrip 0 [.bit true, .byte 200, .bool false] [7, 7, 7] (by decide) (by decide)

end Serial
end Iostreams
