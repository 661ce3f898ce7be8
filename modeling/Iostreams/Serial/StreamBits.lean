import Iostreams.Serial.RoundTrip

/-!
# Bit streams over a standard stream

On a bit stream that is backed by a standard stream, a block transfer is a loop of
byte transfers, and an aligned byte transfer is a block transfer of one byte: the
two call each other without end.  So every call that completes a byte, and every
call that needs one, spends whatever depth it is given.

`Backed s` collects the fields that decide these branches.  The two inductions are
on the depth; what carries them is that no call on the way changes those fields.
What is left are bits that stay inside the accumulator, and `synchronize` has to
write the byte they are in.
-/

namespace Iostreams

open Foundation

variable {T : ScalarTypes} {K : Keys T} {β γ : Type}

namespace Serial

/-- A bit-stream `Serial` over one stream, for output, for input or for both. -/
def overStream (io : IOStream β) (writes reads : Bool) : Serial β :=
  { bitStream := true, stream := some io, writeStreamPointer := writes,
    readStreamPointer := reads }

/-- The stream after `flush`, and after `sync` where the `Serial` also reads. -/
def synchronized [Streambuf β] (reads : Bool) (io : IOStream β) : IOStream β :=
  if reads then io.flush.sync else io.flush

end Serial

/-! ## Operations -/

/-- An output operation, and the target of the input operation that matches it. -/
inductive StreamOp (K : Keys T) where
  /-- `writeBit(flag)` -/
  | bit (flag : Bool)
  /-- `writeByte(c)` -/
  | byte (c : UInt8)
  /-- `writeBytes(src, src.length)` -/
  | bytes (src : List UInt8)
  /-- `<< item` -/
  | value (entry : Entry K)

/-- What an input operation obtains. -/
inductive StreamValue (T : ScalarTypes) where
  | bit (flag : Bool)
  | byte (c : UInt8)
  | bytes (dest : List UInt8)
  | value (target : Σ t : Ty T, t.Value)

/-- The bits of a value on a bit stream: a boolean is a single bit. -/
def Ty.bits (K : Keys T) : (t : Ty T) → (t.layout K).Stored → List Bool
  | .bool, flag => [flag]
  | .scalar _, object => unpack object.val
  | .string, str => unpack (encodeString str)
  | .vector element, st => unpack (leBytes 8 (List.length st)) ++ List.flatMap (bits K element) st
  | .set element, st => unpack (leBytes 8 st.val.length) ++ st.val.flatMap (bits K element)
  | .unorderedSet element, st =>
      unpack (leBytes 8 st.val.length) ++ st.val.flatMap (bits K element)
  | .map key value, kv => unpack (leBytes 8 kv.val.length) ++
      kv.val.flatMap fun item => bits K key item.1 ++ bits K value item.2
  | .unorderedMap key value, kv => unpack (leBytes 8 kv.val.length) ++
      kv.val.flatMap fun item => bits K key item.1 ++ bits K value item.2

namespace StreamOp

/-- The bits an operation contributes. -/
def bits : StreamOp K → List Bool
  | .bit flag => [flag]
  | .byte c => byteBits c
  | .bytes src => unpack src
  | .value entry => entry.ty.bits K entry.value

/-- What the matching input operation has to obtain. -/
def expected : StreamOp K → StreamValue T
  | .bit flag => .bit flag
  | .byte c => .byte c
  | .bytes src => .bytes src
  | .value entry => .value entry.merged

def write [Streambuf β] (depth : Nat) (s : Serial β) : StreamOp K → Except Halt (Serial β)
  | .bit flag => Serial.writeBit depth s flag
  | .byte c => Serial.writeByte depth s c
  | .bytes src => Serial.putBytes depth src s
  | .value entry => Serial.put K depth entry.ty entry.value s

/-- The matching input operation; of a block only the length is used, of a value the type
and the target. -/
def read [Streambuf γ] (depth : Nat) (s : Serial γ) :
    StreamOp K → Except Halt (StreamValue T × Serial γ)
  | .bit _ => do
      let (flag, s) ← Serial.readBit depth s
      .ok (.bit flag, s)
  | .byte _ => do
      let (c, s) ← Serial.readByte depth s
      .ok (.byte c, s)
  | .bytes src => do
      let (_, dest, s) ← Serial.readBytes depth s (List.replicate src.length 0) src.length
      .ok (.bytes dest, s)
  | .value entry => do
      let (target, r) ← Reader.get K depth entry.ty entry.target (⟨s, none⟩ : Reader γ γ)
      .ok (.value ⟨entry.ty, target⟩, r.serial)

/-- The operations in order, `synchronize` last. -/
def writeAll [Streambuf β] (depth : Nat) (ops : List (StreamOp K)) (s : Serial β) :
    Except Halt (Serial β) := do
  let s ← Serial.writeEach (write depth) ops s
  Serial.synchronize depth s

def readAll [Streambuf γ] (depth : Nat) :
    List (StreamOp K) → Serial γ → Except Halt (List (StreamValue T) × Serial γ)
  | [], s => .ok ([], s)
  | op :: rest, s => do
      let (obtained, s) ← read depth s op
      let (others, s) ← readAll depth rest s
      .ok (obtained :: others, s)

end StreamOp

/-- The stream received `bytes`, in blocks of any size, and was then synchronized. -/
def Received [Streambuf β] (io : IOStream β) (reads : Bool) (bytes : List UInt8)
    (s : Serial β) : Prop :=
  ∃ blocks : List (List UInt8), blocks.flatten = bytes ∧
    s.stream = some (Serial.synchronized reads (blocks.foldl IOStream.write io))

/-- The operations work on a stream: they return, the stream received their bits packed, and
a reader over a stream with these bytes returns from the matching operations with the values
written. -/
def WorksOnStream (γ : Type) [Streambuf β] [CharSource γ] (io : IOStream β) (reads : Bool)
    (ops : List (StreamOp K)) : Prop :=
  ∃ depth s, StreamOp.writeAll depth ops (Serial.overStream io true reads) = .ok s ∧
    Received io reads (pack (ops.flatMap StreamOp.bits)) s ∧
    ∀ (source : IOStream γ) (writes : Bool) (rest : List UInt8), source.good = true →
      CharSource.pending source.rdbuf = pack (ops.flatMap StreamOp.bits) ++ rest →
      ∃ depth r, StreamOp.readAll depth ops (Serial.overStream source writes true) =
        .ok (ops.map StreamOp.expected, r)

namespace Serial

/-! ## Transfers that do not return -/

/-- A bit stream backed by a standard stream. -/
structure Backed (s : Serial β) : Prop where
  notCount : s.isCountSerial = false
  notBuffer : s.isBufferSerial = false
  notPassthrough : s.passthroughPtr = none
  bitStream : s.bitStream = true
  stream : s.stream.isSome = true

theorem backed_overStream (io : IOStream β) (writes reads : Bool) :
    (overStream io writes reads).Backed :=
  ⟨rfl, rfl, rfl, rfl, rfl⟩

theorem Backed.withWriteBits {s : Serial β} (hbacked : s.Backed) (byte : UInt8) (count : Nat) :
    (s.withWriteBits byte count).Backed :=
  ⟨hbacked.notCount, hbacked.notBuffer, hbacked.notPassthrough, hbacked.bitStream,
    hbacked.stream⟩

theorem Backed.writeStream {s : Serial β} (hbacked : s.Backed)
    (hpointer : s.writeStreamPointer = true) : ∃ io, s.writeStream = some io := by
  obtain ⟨io, hio⟩ := Option.isSome_iff_exists.mp hbacked.stream
  exact ⟨io, by rw [Serial.writeStream, if_pos hpointer, hio]⟩

theorem Backed.readStream {s : Serial β} (hbacked : s.Backed)
    (hpointer : s.readStreamPointer = true) : ∃ io, s.readStream = some io := by
  obtain ⟨io, hio⟩ := Option.isSome_iff_exists.mp hbacked.stream
  exact ⟨io, by rw [Serial.readStream, if_pos hpointer, hio]⟩

variable [Streambuf β]

/-- A block transfer on such a bit stream is the loop of byte transfers. -/
theorem writeBytes_backed {s : Serial β} (hbacked : s.Backed)
    (hpointer : s.writeStreamPointer = true) (src : List UInt8) (depth : Nat) :
    writeBytes (depth + 1) s src =
      (writeEach (writeByte depth) src s >>= fun s => .ok (0, s)) := by
  obtain ⟨io, hio⟩ := hbacked.writeStream hpointer
  simp only [writeBytes, hbacked.notCount, hbacked.notBuffer, hbacked.notPassthrough,
    hbacked.bitStream, hio, Bool.false_eq_true, if_false, if_true]

/-- Bits that reach the end of a byte do not return where writing the byte does not. -/
theorem writeBits_outOfFuel {depth : Nat} (hstuck : ∀ d < depth, ∀ s : Serial β, s.Backed →
      s.writeStreamPointer = true → ∀ byte, writeByte d s byte = .error .outOfFuel)
    (bits : List Bool) {s : Serial β} (hbacked : s.Backed) (hpointer : s.writeStreamPointer = true)
    (hpending : s.bitsWrittenWriteByte < 8) (hfull : 8 ≤ s.bitsWrittenWriteByte + bits.length) :
    writeEach (writeBit depth) bits s = .error .outOfFuel := by
  induction bits generalizing s with
  | nil =>
      rw [List.length_nil] at hfull
      omega
  | cons bit rest ih =>
      cases depth with
      | zero => rfl
      | succ depth =>
          rw [writeEach, writeBit]
          by_cases hlast : s.bitsWrittenWriteByte + 1 = 8
          · -- the byte is full
            have hbyte := hstuck depth (Nat.lt_succ_self depth) (s.putWriteBit bit)
              (hbacked.withWriteBits _ _) hpointer (s.putWriteBit bit).currentWriteByte
            simp only [putWriteBit, hlast, if_true] at hbyte ⊢
            rw [hbyte]
            rfl
          · -- the bit is kept, and the loop goes on with one more pending
            have hnext : (if (s.putWriteBit bit).bitsWrittenWriteByte = 8 then
                writeByte depth (s.putWriteBit bit) (s.putWriteBit bit).currentWriteByte
                else .ok (s.putWriteBit bit)) = .ok (s.putWriteBit bit) := if_neg hlast
            simp only [hnext, ok_bind]
            have hcount : (s.putWriteBit bit).bitsWrittenWriteByte =
                s.bitsWrittenWriteByte + 1 := rfl
            rw [List.length_cons] at hfull
            exact ih (hbacked.withWriteBits _ _) hpointer (by omega) (by omega)

/-- Neither a byte nor a block that is not empty is ever written. -/
theorem write_outOfFuel (depth : Nat) {s : Serial β} (hbacked : s.Backed)
    (hpointer : s.writeStreamPointer = true) :
    (∀ byte, writeByte depth s byte = .error .outOfFuel) ∧
      ∀ src, src ≠ [] → writeBytes depth s src = .error .outOfFuel := by
  induction depth using Nat.strong_induction_on generalizing s with
  | _ depth ih =>
      cases depth with
      | zero => exact ⟨fun _ => rfl, fun _ _ => rfl⟩
      | succ depth =>
          obtain ⟨hbyte, hblock⟩ := ih depth (Nat.lt_succ_self depth) hbacked hpointer
          refine ⟨fun byte => ?_, fun src hsrc => ?_⟩
          · unfold writeByte
            by_cases hunaligned : 0 < s.bitsWrittenWriteByte ∧ s.bitsWrittenWriteByte < 8
            · rw [if_pos ⟨hbacked.bitStream, hunaligned⟩]
              refine writeBits_outOfFuel (fun d hd s' hbacked' hpointer' => ?_) (byteBits byte)
                hbacked hpointer hunaligned.2 (by rw [byteBits_length]; omega)
              exact (ih d (by omega) hbacked' hpointer').1
            · rw [if_neg fun hguard => hunaligned hguard.2, hblock [byte] (List.cons_ne_nil _ _)]
              rfl
          · cases src with
            | nil => exact absurd rfl hsrc
            | cons byte rest =>
                rw [writeBytes_backed hbacked hpointer, writeEach, hbyte byte]
                rfl

/-- A bit returns only as long as it does not complete a byte. -/
theorem writeBit_backed {s s' : Serial β} (hbacked : s.Backed)
    (hpointer : s.writeStreamPointer = true) {depth : Nat} {bit : Bool}
    (hwrite : writeBit depth s bit = .ok s') :
    s.bitsWrittenWriteByte + 1 ≠ 8 ∧ s' = s.putWriteBit bit := by
  cases depth with
  | zero => cases hwrite
  | succ depth =>
      unfold writeBit at hwrite
      by_cases hlast : s.bitsWrittenWriteByte + 1 = 8
      · have hbyte := (write_outOfFuel depth (s := s.putWriteBit bit)
          (hbacked.withWriteBits _ _) hpointer).1 (s.putWriteBit bit).currentWriteByte
        have hstop : (s.putWriteBit bit).bitsWrittenWriteByte = 8 := hlast
        simp only [hstop, if_true, hbyte] at hwrite
        cases hwrite
      · have hstay : ¬(s.putWriteBit bit).bitsWrittenWriteByte = 8 := hlast
        simp only [hstay, if_false] at hwrite
        cases hwrite
        exact ⟨hlast, rfl⟩

theorem putBytes_outOfFuel {s : Serial β} (hbacked : s.Backed)
    (hpointer : s.writeStreamPointer = true) {src : List UInt8} (hsrc : src ≠ []) (depth : Nat) :
    putBytes depth src s = .error .outOfFuel := by
  rw [putBytes, (write_outOfFuel depth hbacked hpointer).2 src hsrc]
  rfl

theorem leBytes_ne_nil (size : Nat) : leBytes 8 size ≠ [] := List.cons_ne_nil _ _

theorem serializeString_outOfFuel {s : Serial β} (hbacked : s.Backed)
    (hpointer : s.writeStreamPointer = true) (depth : Nat) (str : List UInt8) :
    serializeString depth str s = .error .outOfFuel := by
  rw [serializeString, putSize, putBytes_outOfFuel hbacked hpointer (leBytes_ne_nil _)]
  rfl

theorem serializeElements_outOfFuel {s : Serial β} (hbacked : s.Backed)
    (hpointer : s.writeStreamPointer = true) {α : Type} (depth : Nat)
    (put : α → Serial β → Except Halt (Serial β)) (items : List α) :
    serializeElements depth put items s = .error .outOfFuel := by
  rw [serializeElements, putSize, putBytes_outOfFuel hbacked hpointer (leBytes_ne_nil _)]
  rfl

/-! ## Operations that return -/

/-- An operation that returns has added its bits to the accumulator and filled no byte. -/
theorem write_backed {s s' : Serial β} (hbacked : s.Backed)
    (hpointer : s.writeStreamPointer = true) (hpending : s.bitsWrittenWriteByte < 8)
    {depth : Nat} {op : StreamOp K} (hwrite : op.write depth s = .ok s') :
    s'.Backed ∧ s'.writeStreamPointer = true ∧ s'.bitsWrittenWriteByte < 8 ∧
      s'.bitsWrittenWriteByte = s.bitsWrittenWriteByte + op.bits.length := by
  have hbit : ∀ flag, writeBit depth s flag = .ok s' →
      s'.Backed ∧ s'.writeStreamPointer = true ∧ s'.bitsWrittenWriteByte < 8 ∧
        s'.bitsWrittenWriteByte = s.bitsWrittenWriteByte + 1 := by
    intro flag hflag
    obtain ⟨hlast, rfl⟩ := writeBit_backed hbacked hpointer hflag
    have hcount : (s.putWriteBit flag).bitsWrittenWriteByte = s.bitsWrittenWriteByte + 1 := rfl
    exact ⟨hbacked.withWriteBits _ _, hpointer, by omega, hcount⟩
  -- a single bit is kept; everything that is stored as bytes runs for ever
  cases op with
  | bit flag => exact hbit flag hwrite
  | byte c =>
      rw [StreamOp.write, (write_outOfFuel depth hbacked hpointer).1 c] at hwrite
      cases hwrite
  | bytes src =>
      by_cases hsrc : src = []
      · subst hsrc
        cases depth with
        | zero => cases hwrite
        | succ depth =>
            rw [StreamOp.write, putBytes, writeBytes_backed hbacked hpointer] at hwrite
            cases hwrite
            exact ⟨hbacked, hpointer, hpending, rfl⟩
      · rw [StreamOp.write, putBytes_outOfFuel hbacked hpointer hsrc] at hwrite
        cases hwrite
  | value entry =>
      obtain ⟨t, value, target⟩ := entry
      cases t with
      | bool =>
          simp only [StreamOp.write, put, putBool, hbacked.bitStream, if_true] at hwrite
          exact hbit value hwrite
      | scalar name =>
          have hlength : value.val.length = T.sizeof name := value.property
          have hpos := T.sizeof_pos name
          have hne : value.val ≠ [] := List.ne_nil_of_length_pos (by omega)
          simp only [StreamOp.write, put, putBytes_outOfFuel hbacked hpointer hne] at hwrite
          cases hwrite
      | string =>
          cases (serializeString_outOfFuel hbacked hpointer depth value).symm.trans hwrite
      | vector element =>
          cases (serializeElements_outOfFuel hbacked hpointer depth _ value).symm.trans hwrite
      | set element =>
          cases (serializeElements_outOfFuel hbacked hpointer depth _ value.val).symm.trans hwrite
      | unorderedSet element =>
          cases (serializeElements_outOfFuel hbacked hpointer depth _ value.val).symm.trans hwrite
      | map key item =>
          cases (serializeElements_outOfFuel hbacked hpointer depth _ value.val).symm.trans hwrite
      | unorderedMap key item =>
          cases (serializeElements_outOfFuel hbacked hpointer depth _ value.val).symm.trans hwrite

theorem writeEach_backed (depth : Nat) (ops : List (StreamOp K)) {s s' : Serial β}
    (hbacked : s.Backed) (hpointer : s.writeStreamPointer = true)
    (hpending : s.bitsWrittenWriteByte < 8)
    (hwrite : writeEach (StreamOp.write depth) ops s = .ok s') :
    s'.Backed ∧ s'.writeStreamPointer = true ∧ s'.bitsWrittenWriteByte < 8 ∧
      s'.bitsWrittenWriteByte = s.bitsWrittenWriteByte + (ops.flatMap StreamOp.bits).length := by
  induction ops generalizing s with
  | nil =>
      cases hwrite
      exact ⟨hbacked, hpointer, hpending, rfl⟩
  | cons op rest ih =>
      unfold writeEach at hwrite
      cases hop : op.write depth s with
      | error halt =>
          rw [hop] at hwrite
          cases hwrite
      | ok next =>
          rw [hop, ok_bind] at hwrite
          obtain ⟨hbacked₁, hpointer₁, hpending₁, hcount₁⟩ :=
            write_backed hbacked hpointer hpending hop
          obtain ⟨hbacked₂, hpointer₂, hpending₂, hcount₂⟩ :=
            ih hbacked₁ hpointer₁ hpending₁ hwrite
          refine ⟨hbacked₂, hpointer₂, hpending₂, ?_⟩
          rw [hcount₂, hcount₁, List.flatMap_cons, List.length_append]
          omega

/-- Operations that return, `synchronize` included, have written no bit. -/
theorem writeAll_backed {io : IOStream β} {reads : Bool} {depth : Nat} {ops : List (StreamOp K)}
    {s : Serial β} (hwrite : StreamOp.writeAll depth ops (overStream io true reads) = .ok s) :
    ops.flatMap StreamOp.bits = [] := by
  unfold StreamOp.writeAll at hwrite
  cases heach : writeEach (StreamOp.write depth) ops (overStream io true reads) with
  | error halt =>
      rw [heach] at hwrite
      cases hwrite
  | ok s₁ =>
      rw [heach, ok_bind] at hwrite
      obtain ⟨hbacked, hpointer, hpending, hcount⟩ := writeEach_backed depth ops
        (backed_overStream io true reads) rfl (Nat.succ_pos 7) heach
      by_cases hnone : s₁.bitsWrittenWriteByte = 0
      · have hzero : (overStream io true reads).bitsWrittenWriteByte = 0 := rfl
        exact List.length_eq_zero_iff.mp (by omega)
      · -- the last byte is incomplete
        have hflush := (write_outOfFuel depth (s := s₁.withWriteBits s₁.currentWriteByte 8)
          (hbacked.withWriteBits _ _) hpointer).1 s₁.currentWriteByte
        have hguard : 0 < s₁.bitsWrittenWriteByte ∧ s₁.bitsWrittenWriteByte < 8 := by omega
        simp only [withWriteBits] at hflush
        rw [synchronize, if_pos hguard, hflush] at hwrite
        cases hwrite

/-! ## Reading -/

/-- A reader that has no bit left of its current byte. -/
structure Exhausted (r : Serial β) : Prop where
  backed : r.Backed
  pointer : r.readStreamPointer = true
  aligned : r.bitsReadReadByte = 0 ∨ r.bitsReadReadByte = 8
  noOffset : r.nextReadOffset = 0

theorem readBytes_backed {r : Serial β} (hexhausted : r.Exhausted) (dest : List UInt8)
    (size depth : Nat) :
    readBytes (depth + 1) r dest size = (readByteTimes (readByte depth) size r >>= fun result =>
      .ok (toInt64 size, overwrite dest 0 result.1, { result.2 with lastBytesRead := size })) := by
  obtain ⟨io, hio⟩ := hexhausted.backed.readStream hexhausted.pointer
  have hbacked := hexhausted.backed
  simp only [readBytes, hbacked.notCount, hbacked.notBuffer, hbacked.notPassthrough,
    hbacked.bitStream, hio, Bool.false_eq_true, if_false, if_true]

/-- Neither a byte nor a block that is not empty is ever read. -/
theorem read_outOfFuel (depth : Nat) {r : Serial β} (hexhausted : r.Exhausted) :
    readByte depth r = .error .outOfFuel ∧
      ∀ dest size, size ≠ 0 → readBytes depth r dest size = .error .outOfFuel := by
  induction depth generalizing r with
  | zero => exact ⟨rfl, fun _ _ _ => rfl⟩
  | succ depth ih =>
      obtain ⟨hbyte, hblock⟩ := ih hexhausted
      refine ⟨?_, fun dest size hsize => ?_⟩
      · have haligned : ¬(r.bitStream = true ∧ 0 < r.bitsReadReadByte ∧
            r.bitsReadReadByte < 8) := by
          have hmarker := hexhausted.aligned
          omega
        rw [readByte, if_neg haligned, hblock _ 1 Nat.one_ne_zero]
        rfl
      · obtain ⟨count, rfl⟩ := Nat.exists_eq_succ_of_ne_zero hsize
        rw [readBytes_backed hexhausted, readByteTimes, hbyte]
        rfl

theorem readBit_outOfFuel (depth : Nat) {r : Serial β} (hexhausted : r.Exhausted) :
    readBit depth r = .error .outOfFuel := by
  cases depth with
  | zero => rfl
  | succ depth =>
      have hneeded : r.needsReadByte = (true, r) := if_pos hexhausted.noOffset
      rw [readBit, if_pos hexhausted.aligned, hneeded]
      simp only [if_true, (read_outOfFuel depth hexhausted).2 _ 1 Nat.one_ne_zero]
      rfl

variable [Streambuf γ]

theorem getBytes_outOfFuel {r : Serial β} (hexhausted : r.Exhausted) {old : List UInt8}
    (hold : old ≠ []) (depth : Nat) :
    Reader.getBytes depth old (⟨r, none⟩ : Reader β γ) = .error .outOfFuel := by
  have hlength : old.length ≠ 0 := fun hzero => hold (List.length_eq_zero_iff.mp hzero)
  simp only [Reader.getBytes, Reader.readInto, (read_outOfFuel depth hexhausted).2 _ _ hlength]
  rfl

theorem getSize_outOfFuel {r : Serial β} (hexhausted : r.Exhausted) (depth old : Nat) :
    Reader.getSize depth old (⟨r, none⟩ : Reader β γ) = .error .outOfFuel := by
  rw [Reader.getSize, getBytes_outOfFuel hexhausted (leBytes_ne_nil old)]
  rfl

theorem deserializeString_outOfFuel {r : Serial β} (hexhausted : r.Exhausted) (depth : Nat)
    (old : List UInt8) :
    Reader.deserializeString depth old (⟨r, none⟩ : Reader β γ) = .error .outOfFuel := by
  rw [Reader.deserializeString, Reader.deserializeStringWith, getSize_outOfFuel hexhausted]
  rfl

theorem deserializeElements_outOfFuel {α σ : Type} {r : Serial β} (hexhausted : r.Exhausted)
    (depth : Nat) (get : Reader β γ → Except Halt (α × Reader β γ)) (insert : σ → α → σ)
    (target : σ) :
    Reader.deserializeElements depth get insert target (⟨r, none⟩ : Reader β γ) =
      .error .outOfFuel := by
  rw [Reader.deserializeElements, getSize_outOfFuel hexhausted]
  rfl

/-- No value is ever read, whatever its type. -/
theorem get_outOfFuel (K : Keys T) {r : Serial β} (hexhausted : r.Exhausted) (depth : Nat)
    (t : Ty T) (old : t.Value) :
    Reader.get K depth t old (⟨r, none⟩ : Reader β γ) = .error .outOfFuel := by
  cases t with
  | bool =>
      simp only [Reader.get, Reader.getBool, hexhausted.backed.bitStream, if_true,
        readBit_outOfFuel depth hexhausted]
      rfl
  | scalar name =>
      have hlength : old.val.length = T.sizeof name := old.property
      have hpos := T.sizeof_pos name
      have hold : old.val ≠ [] := List.ne_nil_of_length_pos (by omega)
      rw [Reader.get, getBytes_outOfFuel hexhausted hold]
      rfl
  | string => exact deserializeString_outOfFuel hexhausted depth old
  | vector element => exact deserializeElements_outOfFuel hexhausted depth _ _ old
  | set element => exact deserializeElements_outOfFuel hexhausted depth _ _ old
  | unorderedSet element => exact deserializeElements_outOfFuel hexhausted depth _ _ old
  | map key value => exact deserializeElements_outOfFuel hexhausted depth _ _ old
  | unorderedMap key value => exact deserializeElements_outOfFuel hexhausted depth _ _ old

/-- An operation that returns has read no bit. -/
theorem read_backed {r r' : Serial β} (hexhausted : r.Exhausted) {depth : Nat}
    {op : StreamOp K} {value : StreamValue T} (hread : op.read depth r = .ok (value, r')) :
    op.bits = [] ∧ value = op.expected ∧ r'.Exhausted := by
  cases op with
  | bit flag =>
      rw [StreamOp.read, readBit_outOfFuel depth hexhausted] at hread
      cases hread
  | byte c =>
      rw [StreamOp.read, (read_outOfFuel depth hexhausted).1] at hread
      cases hread
  | bytes src =>
      by_cases hsrc : src = []
      · subst hsrc
        cases depth with
        | zero => cases hread
        | succ depth =>
            rw [StreamOp.read, List.length_nil, readBytes_backed hexhausted] at hread
            cases hread
            have hbacked := hexhausted.backed
            exact ⟨rfl, rfl, ⟨hbacked.notCount, hbacked.notBuffer, hbacked.notPassthrough,
              hbacked.bitStream, hbacked.stream⟩, hexhausted.pointer, hexhausted.aligned,
              hexhausted.noOffset⟩
      · have hlength : src.length ≠ 0 := fun hzero => hsrc (List.length_eq_zero_iff.mp hzero)
        rw [StreamOp.read, (read_outOfFuel depth hexhausted).2 _ _ hlength] at hread
        cases hread
  | value entry =>
      rw [StreamOp.read, get_outOfFuel K hexhausted] at hread
      cases hread

omit [Streambuf γ] in
/-- A reader that returns from its operations has read no bit. -/
theorem readAll_backed {depth : Nat} {ops : List (StreamOp K)} {r r' : Serial β}
    {values : List (StreamValue T)} (hexhausted : r.Exhausted)
    (hread : StreamOp.readAll depth ops r = .ok (values, r')) :
    ops.flatMap StreamOp.bits = [] := by
  induction ops generalizing r r' values with
  | nil => rfl
  | cons op rest ih =>
      unfold StreamOp.readAll at hread
      cases hop : op.read depth r with
      | error halt =>
          rw [hop] at hread
          cases hread
      | ok result =>
          obtain ⟨value, next⟩ := result
          obtain ⟨hbits, -, hexhausted₁⟩ := read_backed hexhausted hop
          simp only [hop, ok_bind] at hread
          cases hrest : StreamOp.readAll depth rest next with
          | error halt =>
              rw [hrest] at hread
              cases hread
          | ok others => rw [List.flatMap_cons, hbits, ih hexhausted₁ hrest, List.append_nil]

end Serial

/-! ## Operations without bits -/

theorem Ty.bits_ne_nil (K : Keys T) (t : Ty T) (value : (t.layout K).Stored) :
    t.bits K value ≠ [] := by
  have hsize : ∀ size, unpack (leBytes 8 size) ≠ [] := fun _ => List.cons_ne_nil _ _
  cases t with
  | bool => exact List.cons_ne_nil _ _
  | scalar name =>
      have hlength : value.val.length = T.sizeof name := value.property
      have hpos := T.sizeof_pos name
      cases hvalue : value.val with
      | nil =>
          rw [hvalue, List.length_nil] at hlength
          omega
      | cons byte rest =>
          rw [Ty.bits, hvalue]
          exact List.cons_ne_nil _ _
  | string => exact List.append_ne_nil_of_left_ne_nil (hsize _) _
  | _ => exact List.append_ne_nil_of_left_ne_nil (hsize _) _

/-- Only an empty block contributes no bit. -/
theorem StreamOp.bits_eq_nil_iff (op : StreamOp K) : op.bits = [] ↔ op = .bytes [] := by
  constructor
  · intro hbits
    cases op with
    | bit flag => cases hbits
    | byte c => cases hbits
    | bytes src =>
        cases src with
        | nil => rfl
        | cons byte rest => cases hbits
    | value entry => exact absurd hbits (Ty.bits_ne_nil K entry.ty entry.value)
  · rintro rfl
    rfl

namespace Serial

variable [Streambuf β]

theorem readAll_empty (ops : List (StreamOp K)) (hops : ∀ op ∈ ops, op = .bytes [])
    {r : Serial β} (hexhausted : r.Exhausted) :
    ∃ r', StreamOp.readAll 1 ops r = .ok (ops.map StreamOp.expected, r') := by
  induction ops generalizing r with
  | nil => exact ⟨r, rfl⟩
  | cons op rest ih =>
      obtain rfl := hops op List.mem_cons_self
      have hread : (StreamOp.bytes [] : StreamOp K).read 1 r =
          .ok (.bytes [], { r with lastBytesRead := 0 }) := by
        rw [StreamOp.read, List.length_nil, readBytes_backed hexhausted]
        rfl
      obtain ⟨-, -, hexhausted₁⟩ := read_backed hexhausted hread
      obtain ⟨r', hrest⟩ := ih (fun later hlater => hops later (List.mem_cons_of_mem _ hlater))
        hexhausted₁
      refine ⟨r', ?_⟩
      simp only [StreamOp.readAll, hread, ok_bind, hrest]
      rfl

/-- A reader returns from its operations exactly where they read no bit. -/
theorem readAll_returns_iff (ops : List (StreamOp K)) {r : Serial β} (hexhausted : r.Exhausted) :
    (∃ depth values r', StreamOp.readAll depth ops r = .ok (values, r')) ↔
      ops.flatMap StreamOp.bits = [] := by
  constructor
  · rintro ⟨depth, values, r', hread⟩
    exact readAll_backed hexhausted hread
  · intro hnone
    obtain ⟨r', hread⟩ := readAll_empty ops (fun op hop =>
      op.bits_eq_nil_iff.mp (List.flatMap_eq_nil_iff.mp hnone op hop)) hexhausted
    exact ⟨1, _, r', hread⟩

theorem writeEach_empty (ops : List (StreamOp K)) (hops : ∀ op ∈ ops, op = .bytes [])
    {s : Serial β} (hbacked : s.Backed) (hpointer : s.writeStreamPointer = true) :
    writeEach (StreamOp.write 1) ops s = .ok s := by
  induction ops with
  | nil => rfl
  | cons op rest ih =>
      obtain rfl := hops op List.mem_cons_self
      have hwrite : (StreamOp.bytes [] : StreamOp K).write 1 s = .ok s := by
        rw [StreamOp.write, putBytes, writeBytes_backed hbacked hpointer]
        rfl
      rw [writeEach, hwrite, ok_bind,
        ih fun later hlater => hops later (List.mem_cons_of_mem _ hlater)]

end Serial

open Serial

/-- **Bit streams over a stream.**  Operations work on a stream exactly where they write no
bit at all. -/
theorem worksOnStream_iff [Streambuf β] [CharSource γ] (io : IOStream β) (reads : Bool)
    (ops : List (StreamOp K)) :
    WorksOnStream γ io reads ops ↔ ops.flatMap StreamOp.bits = [] := by
  constructor
  · rintro ⟨depth, s, hwrite, -, -⟩
    exact writeAll_backed hwrite
  · intro hnone
    have hops : ∀ op ∈ ops, op = .bytes [] := fun op hop =>
      op.bits_eq_nil_iff.mp (List.flatMap_eq_nil_iff.mp hnone op hop)
    refine ⟨1, { overStream io true reads with stream := some (synchronized reads io) }, ?_,
      ⟨[], ?_, rfl⟩, fun source writes rest _ _ => ?_⟩
    · rw [StreamOp.writeAll, writeEach_empty ops hops (backed_overStream io true reads) rfl,
        ok_bind]
      cases reads with
      | true => rfl
      | false => rfl
    · rw [hnone]
      rfl
    · have hexhausted : (overStream source writes true).Exhausted :=
        ⟨backed_overStream source writes true, rfl, Or.inr rfl, rfl⟩
      obtain ⟨r, hread⟩ := readAll_empty ops hops hexhausted
      exact ⟨1, r, hread⟩

/-- One byte written to a string stream: the call does not return. -/
theorem not_worksOnStream_byte :
    ¬WorksOnStream (K := Keys.equality byteScalars) Stringbuf
      ({ rdbuf := Stringbuf.ofString [] } : IOStream Stringbuf) true [.byte 65] := by
  rintro ⟨depth, s, hwrite, -⟩
  cases writeAll_backed hwrite

end Iostreams
