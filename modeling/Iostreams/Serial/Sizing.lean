import Iostreams.Serial.RoundTrip

/-!
# Sizing pass and writing pass

A counting `Serial` is used to find out how large a buffer has to be.  Both take
the same calls, and the counter must be at the position of the buffer after each.

`Sizing c b` relates a counter `c` and a buffer `b`: the positions and the bit
accumulators agree.  `Sized c b bytes c' b'` says that a call moved both by the
same `bytes`, which the buffer stored and the counter only counted, and left both
accumulators in the same state.  Every writing function has its lemma about the
two; a value goes by induction on its type, as in the round trip.
-/

namespace Iostreams

open Foundation

/-! ## The length of the output -/

/-- Buffers that can be positioned at their end: `pubseekoff(0, end, out)`. -/
class EndSeekable (β : Type) extends Streambuf β where
  seekOutEnd : β → Int × β

instance : EndSeekable Stringbuf where
  seekOutEnd buf := (buf.content.length, { buf with
    putPos := buf.content.length
    putPos_le := Nat.le_refl _ })

namespace Serial

variable {β : Type}

/-- `seekp(0, std::ios::end)` -/
def seekpEnd [EndSeekable β] (io : IOStream β) : IOStream β :=
  if io.fail then io
  else
    let (result, rdbuf) := EndSeekable.seekOutEnd io.rdbuf
    if result = -1 then { io with rdbuf, failbit := true } else { io with rdbuf }

/-- A stream is asked for its end position and put back. -/
def getWriteLength [EndSeekable β] (s : Serial β) : Int × Serial β :=
  if s.isCountSerial then (toInt64 s.countWrite, s)
  else if s.isBufferSerial then (s.bufferSize, s)
  else match s.writeStream with
    | some io =>
        let orgpos := s.getWritePosition
        let s := s.setStream (seekpEnd io)
        let pos := s.getWritePosition
        (pos, s.setStream ((seekpEnd io).seekp orgpos))
    | none => (0, s)

end Serial

/-! ## Calls -/

/-- A call that writes, or that moves the write position. -/
inductive WriteCall {T : ScalarTypes} (K : Keys T) where
  /-- `<< value` -/
  | value (t : Ty T) (item : (t.layout K).Stored)
  /-- `writeBytes(src, src.length)` -/
  | bytes (src : List UInt8)
  /-- `writeByte(byte)` -/
  | byte (c : UInt8)
  /-- `writeBit(bit)` -/
  | bit (flag : Bool)
  | synchronize
  /-- `setWritePosition(index)` -/
  | setWritePosition (index : UInt64)

namespace WriteCall

variable {T : ScalarTypes} {K : Keys T} {β : Type}

def perform [Streambuf β] (depth : Nat) : WriteCall K → Serial β → Except Halt (Serial β)
  | .value t item, s => Serial.put K depth t item s
  | .bytes src, s => Serial.putBytes depth src s
  | .byte c, s => Serial.writeByte depth s c
  | .bit flag, s => Serial.writeBit depth s flag
  | .synchronize, s => Serial.synchronize depth s
  | .setWritePosition index, s => .ok (s.setWritePosition index.toNat)

/-- The calls in order, with the position after each. -/
def run [Streambuf β] (depth : Nat) :
    List (WriteCall K) → Serial β → Except Halt (List Int × Serial β)
  | [], s => .ok ([], s)
  | call :: rest, s => do
      let s ← perform depth call s
      let (positions, final) ← run depth rest s
      .ok (s.getWritePosition :: positions, final)

/-- The bytes a call writes, outside bit-stream mode. -/
def emitted (s : Serial β) : WriteCall K → List UInt8
  | .value t item => t.encode K item
  | .bytes src => src
  | .byte c => [c]
  | .bit flag =>
      if s.bitsWrittenWriteByte + 1 = 8 then [(s.putWriteBit flag).currentWriteByte] else []
  | .synchronize =>
      if 0 < s.bitsWrittenWriteByte ∧ s.bitsWrittenWriteByte < 8 then [s.currentWriteByte]
      else []
  | .setWritePosition _ => []

def isSetWritePosition : WriteCall K → Bool
  | .setWritePosition _ => true
  | _ => false

end WriteCall

namespace Serial

variable {T : ScalarTypes} {K : Keys T} {β : Type}

/-- Something that is written fits behind the write index. -/
def Fits (s : Serial β) (bytes : List UInt8) : Prop := bytes = [] ∨ s.Room bytes.length

/-- Every write of the calls fits into the buffer. -/
def AllFit [Streambuf β] (depth : Nat) : List (WriteCall K) → Serial β → Prop
  | [], _ => True
  | call :: rest, s => s.Fits (call.emitted s) ∧
      ∀ s', call.perform depth s = .ok s' → AllFit depth rest s'

instance decidableFits (s : Serial β) (bytes : List UInt8) : Decidable (s.Fits bytes) :=
  inferInstanceAs (Decidable (bytes = [] ∨ (_ ∧ _)))

instance decidableAllFit [Streambuf β] (depth : Nat) :
    (calls : List (WriteCall K)) → (s : Serial β) → Decidable (AllFit depth calls s)
  | [], _ => isTrue trivial
  | call :: rest, s =>
      match hperform : call.perform depth s with
      | .error _ => decidable_of_iff (s.Fits (call.emitted s))
          ⟨fun hfits => ⟨hfits, fun _ hok => by rw [hperform] at hok; cases hok⟩, And.left⟩
      | .ok next =>
          have := decidableAllFit depth rest next
          decidable_of_iff (s.Fits (call.emitted s) ∧ AllFit depth rest next)
            ⟨fun hboth => ⟨hboth.1, fun _ hok => by rw [hperform] at hok; cases hok; exact hboth.2⟩,
              fun hall => ⟨hall.1, hall.2 next hperform⟩⟩

/-! ## Counter and buffer -/

/-- Count `count` more bytes. -/
def counted (s : Serial β) (count : Nat) : Serial β :=
  { s with
    countWrite := toSizeT (s.countWrite + count)
    countWriteIndex := toSizeT (s.countWriteIndex + count) }

/-- A counter and a buffer at the same position. -/
structure Sizing (c b : Serial β) : Prop where
  count : c.isCountSerial = true
  countPlain : c.bitStream = false
  countStreams : c.writeStreamPointer = false ∧ c.readStreamPointer = false
  countWrite_lt : c.countWrite < 2 ^ 64
  countIndex_lt : c.countWriteIndex < 2 ^ 64
  bufferMode : b.BufferMode
  bufferPlain : b.bitStream = false
  bufferStreams : b.writeStreamPointer = false ∧ b.readStreamPointer = false
  position : b.bufferWriteIndex = toInt64 c.countWriteIndex
  currentWriteByte : b.currentWriteByte = c.currentWriteByte
  bitsWritten : b.bitsWrittenWriteByte = c.bitsWrittenWriteByte

/-- Counter and buffer after the same bytes. -/
def Sized (c b : Serial β) (bytes : List UInt8) (c' b' : Serial β) : Prop :=
  ∃ byte count, c' = (c.counted bytes.length).withWriteBits byte count ∧
    b' = (b.stored bytes).withWriteBits byte count

variable {c b c' b' c'' b'' : Serial β} {bytes front back : List UInt8}

theorem toSizeT_add (x m n : Nat) :
    toSizeT ((toSizeT ((x : Int) + m) : Int) + n) = toSizeT ((x : Int) + (m + n : Nat)) := by
  simp only [toSizeT]
  omega

theorem counted_counted (c : Serial β) (m n : Nat) :
    (c.counted m).counted n = c.counted (m + n) := by
  simp only [counted, toSizeT_add]

theorem counted_zero_of_lt (hwrite : c.countWrite < 2 ^ 64) (hindex : c.countWriteIndex < 2 ^ 64) :
    c.counted 0 = c := by
  have hlength : toSizeT ((c.countWrite : Int) + (0 : Nat)) = c.countWrite := by
    rw [Nat.cast_zero, add_zero]
    exact toSizeT_natCast hwrite
  have hposition : toSizeT ((c.countWriteIndex : Int) + (0 : Nat)) = c.countWriteIndex := by
    rw [Nat.cast_zero, add_zero]
    exact toSizeT_natCast hindex
  rw [counted, hlength, hposition]

theorem Sizing.counted_zero (hsizing : Sizing c b) : c.counted 0 = c :=
  counted_zero_of_lt hsizing.countWrite_lt hsizing.countIndex_lt

/-- Where something fits, the position is an unsigned number below the size. -/
theorem Sizing.position_eq (hsizing : Sizing c b) {count : Nat} (hroom : b.Room count) :
    b.bufferWriteIndex = c.countWriteIndex ∧ c.countWriteIndex + count < 2 ^ 63 := by
  obtain ⟨hindex, hfits⟩ := hroom
  have hposition := hsizing.position
  have hlt := hsizing.countIndex_lt
  have hsize := hsizing.bufferMode.size_lt
  rw [toInt64, Int.bmod_def] at hposition
  omega

theorem Sized.nil (hsizing : Sizing c b) : Sized c b [] c b := by
  refine ⟨c.currentWriteByte, c.bitsWrittenWriteByte, ?_, ?_⟩
  · rw [List.length_nil, hsizing.counted_zero, withWriteBits_self]
  · rw [stored_nil, ← hsizing.currentWriteByte, ← hsizing.bitsWritten, withWriteBits_self]

/-- A block transfer leaves the accumulators alone. -/
theorem Sized.transfer (hsizing : Sizing c b) (bytes : List UInt8) :
    Sized c b bytes (c.counted bytes.length) (b.stored bytes) := by
  refine ⟨c.currentWriteByte, c.bitsWrittenWriteByte, rfl, ?_⟩
  rw [← hsizing.currentWriteByte, ← hsizing.bitsWritten]
  rfl

/-- A byte transfer empties them. -/
theorem Sized.withWriteBits (hsized : Sized c b bytes c' b') (byte : UInt8) (count : Nat) :
    Sized c b bytes (c'.withWriteBits byte count) (b'.withWriteBits byte count) := by
  obtain ⟨_, _, rfl, rfl⟩ := hsized
  exact ⟨byte, count, rfl, rfl⟩

theorem Sized.append (hroom : b.Room (front.length + back.length))
    (hfront : Sized c b front c' b') (hback : Sized c' b' back c'' b'') :
    Sized c b (front ++ back) c'' b'' := by
  obtain ⟨_, _, rfl, rfl⟩ := hfront
  obtain ⟨byte, count, rfl, rfl⟩ := hback
  refine ⟨byte, count, ?_, ?_⟩
  · rw [List.length_append, ← counted_counted]
    rfl
  · rw [← stored_stored hroom]
    rfl

theorem Sized.wrote (hsized : Sized c b bytes c' b') : Wrote b bytes b' := by
  obtain ⟨byte, count, -, rfl⟩ := hsized
  exact ⟨byte, count, rfl⟩

/-- The relation holds again after a write that fits. -/
theorem Sizing.next (hsizing : Sizing c b) (hfits : b.Fits bytes)
    (hsized : Sized c b bytes c' b') : Sizing c' b' := by
  have hmode := hsized.wrote.bufferMode hsizing.bufferMode
  obtain ⟨byte, count, rfl, rfl⟩ := hsized
  refine ⟨hsizing.count, hsizing.countPlain, hsizing.countStreams,
    toSizeT_lt (c.countWrite + bytes.length), toSizeT_lt (c.countWriteIndex + bytes.length), hmode,
    hsizing.bufferPlain, hsizing.bufferStreams, ?_, rfl, rfl⟩
  rcases hfits with rfl | hroom
  · rw [List.length_nil, hsizing.counted_zero, stored_nil]
    exact hsizing.position
  · obtain ⟨hposition, hlt⟩ := hsizing.position_eq hroom
    simp only [Serial.withWriteBits, stored, counted, hposition]
    have hindex : toSizeT ((c.countWriteIndex : Int) + (bytes.length : Nat)) =
        c.countWriteIndex + bytes.length := by
      rw [← Nat.cast_add]
      exact toSizeT_natCast (by omega)
    rw [hindex, toInt64_natCast (by omega), Nat.cast_add]

/-! ## Writing values -/

/-- An element writer that counts on a counter what it stores on a buffer. -/
def SizesAs {α : Type} (put : α → Serial β → Except Halt (Serial β))
    (encode : α → List UInt8) : Prop :=
  ∀ item c b, Sizing c b → b.Room (encode item).length →
    ∃ c' b', put item c = .ok c' ∧ put item b = .ok b' ∧ Sized c b (encode item) c' b'

theorem writeEach_sized {α : Type} {put : α → Serial β → Except Halt (Serial β)}
    {encode : α → List UInt8} (hput : SizesAs put encode) (items : List α) {c b : Serial β}
    (hsizing : Sizing c b) (hroom : b.Room (items.flatMap encode).length) :
    ∃ c' b', writeEach (fun s item => put item s) items c = .ok c' ∧
      writeEach (fun s item => put item s) items b = .ok b' ∧
      Sized c b (items.flatMap encode) c' b' := by
  induction items generalizing c b with
  | nil => exact ⟨c, b, rfl, rfl, Sized.nil hsizing⟩
  | cons item rest ih =>
      rw [List.flatMap_cons, List.length_append] at hroom
      have hfirst : b.Room (encode item).length := hroom.mono (by omega)
      obtain ⟨c₁, b₁, hcount, hbuffer, hsized⟩ := hput item c b hsizing hfirst
      obtain ⟨c₂, b₂, hcountRest, hbufferRest, hsizedRest⟩ :=
        ih (hsizing.next (Or.inr hfirst) hsized) (hsized.wrote.room hroom)
      refine ⟨c₂, b₂, ?_, ?_, hsized.append hroom hsizedRest⟩
      · rw [writeEach, hcount, ok_bind, hcountRest]
      · rw [writeEach, hbuffer, ok_bind, hbufferRest]

/-- Two writers one after the other. -/
theorem sized_bind {put next : Serial β → Except Halt (Serial β)} {c b : Serial β}
    (hsizing : Sizing c b) (hroom : b.Room (front.length + back.length))
    (hput : ∃ c' b', put c = .ok c' ∧ put b = .ok b' ∧ Sized c b front c' b')
    (hnext : ∀ c' b', Sizing c' b' → b'.Room back.length →
      ∃ c'' b'', next c' = .ok c'' ∧ next b' = .ok b'' ∧ Sized c' b' back c'' b'') :
    ∃ c'' b'', (put c >>= next) = .ok c'' ∧ (put b >>= next) = .ok b'' ∧
      Sized c b (front ++ back) c'' b'' := by
  obtain ⟨c₁, b₁, hcount, hbuffer, hsized⟩ := hput
  have hfits : b.Fits front := Or.inr (hroom.mono (by omega))
  obtain ⟨c₂, b₂, hcountNext, hbufferNext, hsizedNext⟩ :=
    hnext c₁ b₁ (hsizing.next hfits hsized) (hsized.wrote.room hroom)
  refine ⟨c₂, b₂, ?_, ?_, hsized.append hroom hsizedNext⟩
  · rw [hcount, ok_bind, hcountNext]
  · rw [hbuffer, ok_bind, hbufferNext]

theorem putBinding_sizesAs {κ ν : Type} {putKey : κ → Serial β → Except Halt (Serial β)}
    {putValue : ν → Serial β → Except Halt (Serial β)} {encodeKey : κ → List UInt8}
    {encodeValue : ν → List UInt8} (hkey : SizesAs putKey encodeKey)
    (hvalue : SizesAs putValue encodeValue) :
    SizesAs (putBinding putKey putValue)
      (fun item => encodeKey item.1 ++ encodeValue item.2) := by
  intro item c b hsizing hroom
  rw [List.length_append] at hroom
  exact sized_bind hsizing hroom (hkey item.1 c b hsizing (hroom.mono (by omega)))
    fun c' b' hsizing' hroom' => hvalue item.2 c' b' hsizing' hroom'

variable [Streambuf β]

theorem writeBytes_count (hcount : c.isCountSerial = true) (src : List UInt8) (depth : Nat) :
    writeBytes (depth + 1) c src = .ok (toInt64 src.length, c.counted src.length) := by
  rw [writeBytes, if_pos hcount]
  rfl

theorem putBytes_sizesAs (depth : Nat) :
    SizesAs (putBytes (depth + 1) : List UInt8 → Serial β → _) id := by
  intro src c b hsizing hroom
  refine ⟨_, _, ?_, putBytes_wrote depth hsizing.bufferMode hroom, Sized.transfer hsizing src⟩
  rw [putBytes, writeBytes_count hsizing.count, ok_bind]

/-- Outside bit-stream mode a byte is a block of one byte, whatever is pending. -/
theorem writeByte_sized (hsizing : Sizing c b) (byte : UInt8) (hroom : b.Room 1) (depth : Nat)
    (acc : UInt8) (pending : Nat) :
    ∃ c' b', writeByte (depth + 2) (c.withWriteBits acc pending) byte = .ok c' ∧
      writeByte (depth + 2) (b.withWriteBits acc pending) byte = .ok b' ∧
      Sized c b [byte] c' b' := by
  have hpendingRoom : (b.withWriteBits acc pending).Room [byte].length := hroom
  have hmode : (b.withWriteBits acc pending).BufferMode :=
    Wrote.bufferMode ⟨acc, pending, by rw [stored_nil]⟩ hsizing.bufferMode
  have hwrite := writeBytes_buffer hmode [byte] hpendingRoom depth
  refine ⟨_, _, ?_, ?_, (Sized.transfer hsizing [byte]).withWriteBits 0 0⟩
  · have hplain : (c.withWriteBits acc pending).bitStream = false := hsizing.countPlain
    have hcount : (c.withWriteBits acc pending).isCountSerial = true := hsizing.count
    simp only [writeByte, writeBytes_count hcount, hplain, Bool.false_eq_true, false_and, if_false,
      ok_bind]
    rfl
  · have hplain : (b.withWriteBits acc pending).bitStream = false := hsizing.bufferPlain
    simp only [writeByte, hplain, hwrite, Bool.false_eq_true, false_and, if_false, ok_bind]
    rfl

theorem putBool_sizesAs (depth : Nat) :
    SizesAs (putBool (depth + 2) : Bool → Serial β → _) Ty.encodeBool := by
  intro value c b hsizing hroom
  obtain ⟨c', b', hcount, hbuffer, hsized⟩ := writeByte_sized hsizing (UInt8.ofNat value.toNat)
    hroom depth c.currentWriteByte c.bitsWrittenWriteByte
  refine ⟨c', b', ?_, ?_, hsized⟩
  · rw [withWriteBits_self] at hcount
    simp only [putBool, hsizing.countPlain, Bool.false_eq_true, if_false, hcount]
  · rw [← hsizing.currentWriteByte, ← hsizing.bitsWritten, withWriteBits_self] at hbuffer
    simp only [putBool, hsizing.bufferPlain, Bool.false_eq_true, if_false, hbuffer]

theorem serializeString_sizesAs (depth : Nat) :
    SizesAs (serializeString (depth + 1) : List UInt8 → Serial β → _) Ty.encodeString := by
  intro str c b hsizing hroom
  rw [Ty.encodeString, List.length_append] at hroom
  exact sized_bind hsizing hroom
    (putBytes_sizesAs depth (leBytes 8 str.length) c b hsizing (hroom.mono (Nat.le_add_right _ _)))
    fun c' b' hsizing' hroom' => putBytes_sizesAs depth str c' b' hsizing' hroom'

theorem serializeElements_sizesAs {α : Type} (depth : Nat)
    {put : α → Serial β → Except Halt (Serial β)} {encode : α → List UInt8}
    (hput : SizesAs put encode) :
    SizesAs (serializeElements (depth + 1) put) (Ty.encodeElements encode) := by
  intro items c b hsizing hroom
  rw [Ty.encodeElements, List.length_append] at hroom
  exact sized_bind hsizing hroom
    (putBytes_sizesAs depth (leBytes 8 items.length) c b hsizing
      (hroom.mono (Nat.le_add_right _ _)))
    fun c' b' hsizing' hroom' => writeEach_sized hput items hsizing' hroom'

/-- A value of any type is counted and stored alike. -/
theorem put_sizesAs (K : Keys T) (depth : Nat) (t : Ty T) :
    SizesAs (put K (depth + 2) t : _ → Serial β → _) (t.encode K) := by
  induction t with
  | bool => exact putBool_sizesAs depth
  | scalar name =>
      exact fun value (c b : Serial β) => putBytes_sizesAs (depth + 1) value.val c b
  | string => exact serializeString_sizesAs (depth + 1)
  | vector element ih => exact serializeElements_sizesAs (depth + 1) ih
  | set element ih =>
      exact fun items (c b : Serial β) =>
        serializeElements_sizesAs (depth + 1) ih items.val c b
  | unorderedSet element ih =>
      exact fun items (c b : Serial β) =>
        serializeElements_sizesAs (depth + 1) ih items.val c b
  | map key value ihKey ihValue =>
      exact fun items (c b : Serial β) =>
        serializeElements_sizesAs (depth + 1) (putBinding_sizesAs ihKey ihValue) items.val c b
  | unorderedMap key value ihKey ihValue =>
      exact fun items (c b : Serial β) =>
        serializeElements_sizesAs (depth + 1) (putBinding_sizesAs ihKey ihValue) items.val c b

/-! ## Calls on both -/

omit [Streambuf β] in
theorem Sizing.emitted_eq (hsizing : Sizing c b) (call : WriteCall K) :
    call.emitted b = call.emitted c := by
  cases call with
  | bit flag =>
      simp only [WriteCall.emitted, putWriteBit, hsizing.bitsWritten, hsizing.currentWriteByte]
  | synchronize =>
      simp only [WriteCall.emitted, hsizing.bitsWritten, hsizing.currentWriteByte]
  | _ => rfl

theorem toInt64_toInt64 (x : Int) : toInt64 (toInt64 x) = toInt64 x := by
  rw [toInt64, toInt64, Int.bmod_bmod]

/-- An empty block changes nothing, wherever the position is. -/
theorem putBytes_nil (hsizing : Sizing c b) (depth : Nat) :
    putBytes (depth + 1) [] b = .ok b := by
  have hindex : toInt64 (b.bufferWriteIndex + (0 : Nat)) = b.bufferWriteIndex := by
    rw [Nat.cast_zero, add_zero, hsizing.position, toInt64_toInt64]
  have hnotCount : ¬b.isCountSerial = true := by simp [hsizing.bufferMode.notCount]
  rw [putBytes, writeBytes, if_neg hnotCount, if_pos hsizing.bufferMode.isBuffer]
  simp only [List.length_nil, overwrite_nil, hindex]
  split <;> rfl

theorem writeBit_sized (hsizing : Sizing c b) (flag : Bool)
    (hfits : b.Fits ((WriteCall.bit flag : WriteCall K).emitted b)) (depth : Nat) :
    ∃ c' b', writeBit (depth + 3) c flag = .ok c' ∧ writeBit (depth + 3) b flag = .ok b' ∧
      Sized c b ((WriteCall.bit flag : WriteCall K).emitted b) c' b' := by
  have hput : b.putWriteBit flag = b.withWriteBits (c.putWriteBit flag).currentWriteByte
      (c.bitsWrittenWriteByte + 1) := by
    rw [putWriteBit, hsizing.currentWriteByte, hsizing.bitsWritten]
    rfl
  rw [WriteCall.emitted, hsizing.bitsWritten] at hfits ⊢
  by_cases hfull : c.bitsWrittenWriteByte + 1 = 8
  · -- the eighth bit completes a byte, which goes out
    rw [if_pos hfull] at hfits ⊢
    have hroom : b.Room 1 := hfits.resolve_left (List.cons_ne_nil _ _)
    obtain ⟨c', b', hcount, hbuffer, hsized⟩ := writeByte_sized hsizing
      (c.putWriteBit flag).currentWriteByte hroom depth (c.putWriteBit flag).currentWriteByte
      (c.bitsWrittenWriteByte + 1)
    refine ⟨c', b', ?_, ?_, ?_⟩
    · unfold writeBit
      simp only [putWriteBit, hfull, if_true] at hcount ⊢
      exact hcount
    · rw [writeBit, hput]
      simp only [withWriteBits, hfull, if_true] at hbuffer ⊢
      exact hbuffer
    · rw [hput]
      exact hsized
  · rw [if_neg hfull]
    refine ⟨c.putWriteBit flag, b.putWriteBit flag, ?_, ?_, ?_⟩
    · unfold writeBit
      exact if_neg hfull
    · rw [writeBit, hput]
      exact if_neg hfull
    · rw [hput]
      exact (Sized.nil hsizing).withWriteBits _ _

theorem synchronize_sized (hsizing : Sizing c b)
    (hfits : b.Fits ((WriteCall.synchronize : WriteCall K).emitted b)) (depth : Nat) :
    ∃ c' b', synchronize (depth + 2) c = .ok c' ∧ synchronize (depth + 2) b = .ok b' ∧
      Sized c b ((WriteCall.synchronize : WriteCall K).emitted b) c' b' := by
  rw [WriteCall.emitted, hsizing.bitsWritten, hsizing.currentWriteByte] at hfits ⊢
  obtain ⟨hcountWrite, hcountRead⟩ := hsizing.countStreams
  obtain ⟨hbufferWrite, hbufferRead⟩ := hsizing.bufferStreams
  by_cases hpending : 0 < c.bitsWrittenWriteByte ∧ c.bitsWrittenWriteByte < 8
  · -- the pending bits go out as one byte
    rw [if_pos hpending] at hfits ⊢
    have hroom : b.Room 1 := hfits.resolve_left (List.cons_ne_nil _ _)
    obtain ⟨c', b', hcount, hbuffer, hsized⟩ := writeByte_sized hsizing c.currentWriteByte hroom
      depth c.currentWriteByte 8
    refine ⟨c', b', ?_, ?_, hsized⟩
    · obtain ⟨_, _, rfl, -⟩ := hsized
      rw [synchronize, if_pos hpending]
      simp only [withWriteBits] at hcount ⊢
      rw [hcount, ok_bind]
      simp [writeStream, readStream, counted, hcountWrite, hcountRead]
    · obtain ⟨_, _, -, rfl⟩ := hsized
      have hflushing : ({ b with bitsWrittenWriteByte := 8 } : Serial β) =
          b.withWriteBits c.currentWriteByte 8 := by
        rw [← hsizing.currentWriteByte]
        rfl
      rw [synchronize, hsizing.bitsWritten, if_pos hpending, hflushing, hsizing.currentWriteByte,
        hbuffer, ok_bind]
      simp [writeStream, readStream, stored, withWriteBits, hbufferWrite, hbufferRead]
  · rw [if_neg hpending]
    refine ⟨c, b, ?_, ?_, Sized.nil hsizing⟩
    · rw [synchronize, if_neg hpending, ok_bind]
      simp [writeStream, readStream, hcountWrite, hcountRead]
    · rw [synchronize, hsizing.bitsWritten, if_neg hpending, ok_bind]
      simp [writeStream, readStream, hbufferWrite, hbufferRead]

/-- A call that fits moves the counter and the buffer alike. -/
theorem perform_sized (hsizing : Sizing c b) (call : WriteCall K)
    (hcall : call.isSetWritePosition = false) (hfits : b.Fits (call.emitted b)) (depth : Nat) :
    ∃ c' b', call.perform (depth + 3) c = .ok c' ∧ call.perform (depth + 3) b = .ok b' ∧
      Sized c b (call.emitted b) c' b' := by
  cases call with
  | value t item =>
      have hpos := Ty.encode_length_pos K t item
      have hroom : b.Room (t.encode K item).length :=
        hfits.resolve_left (List.ne_nil_of_length_pos hpos)
      exact put_sizesAs K (depth + 1) t item c b hsizing hroom
  | bytes src =>
      rcases hfits with hnil | hroom
      · have hsrc : src = [] := hnil
        subst hsrc
        refine ⟨c, b, ?_, putBytes_nil hsizing (depth + 2), Sized.nil hsizing⟩
        rw [WriteCall.perform, putBytes, writeBytes_count hsizing.count, ok_bind, List.length_nil,
          hsizing.counted_zero]
      · exact putBytes_sizesAs (depth + 2) src c b hsizing hroom
  | byte byte =>
      have hroom : b.Room 1 := hfits.resolve_left (List.cons_ne_nil _ _)
      have hwrite := writeByte_sized hsizing byte hroom (depth + 1) c.currentWriteByte
        c.bitsWrittenWriteByte
      rw [withWriteBits_self] at hwrite
      rw [← hsizing.currentWriteByte, ← hsizing.bitsWritten, withWriteBits_self] at hwrite
      exact hwrite
  | bit flag => exact writeBit_sized hsizing flag hfits depth
  | synchronize => exact synchronize_sized hsizing hfits (depth + 1)
  | setWritePosition index => cases hcall

theorem Sizing.setWritePosition (hsizing : Sizing c b) (index : UInt64) :
    Sizing (c.setWritePosition index.toNat) (b.setWritePosition index.toNat) := by
  have hlt : index.toNat < 2 ^ 64 := index.toNat_lt
  have hcount : c.setWritePosition index.toNat = { c with countWriteIndex := index.toNat } :=
    if_pos hsizing.count
  have hbuffer : b.setWritePosition index.toNat =
      { b with bufferWriteIndex := toInt64 index.toNat } := by
    rw [Serial.setWritePosition, if_neg (by simp [hsizing.bufferMode.notCount]),
      if_pos hsizing.bufferMode.isBuffer]
  have hmode := hsizing.bufferMode
  rw [hcount, hbuffer]
  refine ⟨hsizing.count, hsizing.countPlain, hsizing.countStreams, hsizing.countWrite_lt, ?_,
    ⟨hmode.notCount, hmode.isBuffer, hmode.size_eq, hmode.size_lt, hmode.noMismatch,
      hmode.noLastMismatch⟩, hsizing.bufferPlain, hsizing.bufferStreams, ?_,
    hsizing.currentWriteByte, hsizing.bitsWritten⟩
  · simpa using hlt
  · simp only

theorem Sizing.getWritePosition (hsizing : Sizing c b) :
    c.getWritePosition = b.getWritePosition := by
  simp only [Serial.getWritePosition, hsizing.count, hsizing.bufferMode.notCount,
    hsizing.bufferMode.isBuffer, hsizing.position, Bool.false_eq_true, if_true, if_false]

/-- One call, of whatever kind, keeps counter and buffer at the same position. -/
theorem perform_sizing (hsizing : Sizing c b) (call : WriteCall K)
    (hfits : b.Fits (call.emitted b)) (depth : Nat) :
    ∃ c' b', call.perform (depth + 3) c = .ok c' ∧ call.perform (depth + 3) b = .ok b' ∧
      Sizing c' b' ∧ b'.bufferPointer.length = b.bufferPointer.length := by
  by_cases hcall : call.isSetWritePosition = true
  · cases call with
    | setWritePosition index =>
        refine ⟨_, _, rfl, rfl, hsizing.setWritePosition index, ?_⟩
        rw [Serial.setWritePosition, if_neg (by simp [hsizing.bufferMode.notCount]),
          if_pos hsizing.bufferMode.isBuffer]
    | _ => cases hcall
  · obtain ⟨c', b', hcount, hbuffer, hsized⟩ :=
      perform_sized hsizing call (Bool.eq_false_of_not_eq_true hcall) hfits depth
    refine ⟨c', b', hcount, hbuffer, hsizing.next hfits hsized, ?_⟩
    obtain ⟨_, _, rfl⟩ := hsized.wrote
    exact overwrite_length _ _ _

/-! ## Whole passes -/

theorem run_sizing (hsizing : Sizing c b) (calls : List (WriteCall K)) (depth : Nat)
    (hfit : AllFit (depth + 3) calls b) :
    ∃ positions c' b', WriteCall.run (depth + 3) calls c = .ok (positions, c') ∧
      WriteCall.run (depth + 3) calls b = .ok (positions, b') := by
  induction calls generalizing c b with
  | nil => exact ⟨[], c, b, rfl, rfl⟩
  | cons call rest ih =>
      obtain ⟨hfits, hrest⟩ := hfit
      obtain ⟨c₁, b₁, hcount, hbuffer, hsizing₁, -⟩ := perform_sizing hsizing call hfits depth
      obtain ⟨positions, c₂, b₂, hcountRest, hbufferRest⟩ := ih hsizing₁ (hrest b₁ hbuffer)
      refine ⟨c₁.getWritePosition :: positions, c₂, b₂, ?_, ?_⟩
      · rw [WriteCall.run, hcount, ok_bind, hcountRest]
        rfl
      · rw [WriteCall.run, hbuffer, ok_bind, hbufferRest, hsizing₁.getWritePosition]
        rfl

/-- Without a call that moves the position, the bytes of all calls are one block: the image
that any buffer with room for it receives. -/
theorem run_image (hsizing : Sizing c b) (calls : List (WriteCall K)) (depth : Nat)
    (hcalls : ∀ call ∈ calls, call.isSetWritePosition = false)
    (hfit : AllFit (depth + 3) calls b) :
    ∃ image, b.Fits image ∧ ∀ e, Sizing c e → e.Room image.length →
      AllFit (depth + 3) calls e ∧
        ∃ positions c' e', WriteCall.run (depth + 3) calls c = .ok (positions, c') ∧
          WriteCall.run (depth + 3) calls e = .ok (positions, e') ∧ Sized c e image c' e' := by
  -- by induction on the calls: what one call emits does not depend on the buffer it is written to
  induction calls generalizing c b with
  | nil =>
      refine ⟨[], Or.inl rfl, fun e hsizing' _ => ⟨trivial, [], c, e, rfl, rfl, ?_⟩⟩
      exact Sized.nil hsizing'
  | cons call rest ih =>
      obtain ⟨hfits, hrest⟩ := hfit
      have hcall := hcalls call List.mem_cons_self
      obtain ⟨c₁, b₁, hcount, hbuffer, hsized⟩ := perform_sized hsizing call hcall hfits depth
      obtain ⟨image, himage, hexact⟩ := ih (hsizing.next hfits hsized)
        (fun later hlater => hcalls later (List.mem_cons_of_mem _ hlater)) (hrest b₁ hbuffer)
      refine ⟨call.emitted b ++ image, ?_, ?_⟩
      · -- the parts fit one after the other
        rcases hfits with hnil | hroom
        · obtain ⟨_, _, -, rfl⟩ := hsized
          rw [hnil, stored_nil] at himage
          rw [hnil]
          exact himage
        · rcases himage with rfl | hroomRest
          · rw [List.append_nil]
            exact Or.inr hroom
          · obtain ⟨_, _, -, rfl⟩ := hsized
            apply Or.inr
            obtain ⟨hindex, hlast⟩ := hroomRest
            simp only [withWriteBits, stored, overwrite_length] at hlast
            rw [List.length_append]
            exact ⟨hroom.1, by omega⟩
      · intro e hsizing' hroom
        rw [List.length_append] at hroom
        have hsame : call.emitted e = call.emitted b := by
          rw [hsizing'.emitted_eq, hsizing.emitted_eq]
        have hfits' : e.Fits (call.emitted e) := by
          rw [hsame]
          exact Or.inr (hroom.mono (by omega))
        obtain ⟨c₁', e₁, hcount', hexact₁, hsized'⟩ :=
          perform_sized hsizing' call hcall hfits' depth
        rw [hcount] at hcount'
        cases hcount'
        have hsizing₁ := hsizing'.next hfits' hsized'
        rw [hsame] at hsized'
        obtain ⟨hfitRest, positions, c₂, e₂, hcountRest, hexactRest, hsizedRest⟩ :=
          hexact e₁ hsizing₁ (hsized'.wrote.room hroom)
        refine ⟨⟨hfits', fun e₁' hperform => ?_⟩, c₁.getWritePosition :: positions, c₂, e₂, ?_, ?_,
          hsized'.append hroom hsizedRest⟩
        · rw [hexact₁] at hperform
          cases hperform
          exact hfitRest
        · rw [WriteCall.run, hcount, ok_bind, hcountRest]
          rfl
        · rw [WriteCall.run, hexact₁, ok_bind, hexactRest, hsizing₁.getWritePosition]
          rfl

omit [Streambuf β] in
theorem sizing_init {memory : List UInt8} (hsize : memory.length < 2 ^ 63) :
    Sizing (ofCount true : Serial β) (ofBuffer memory false) :=
  ⟨rfl, rfl, ⟨rfl, rfl⟩, Nat.two_pow_pos 64, Nat.two_pow_pos 64, bufferMode_ofBuffer hsize false,
    rfl, ⟨rfl, rfl⟩, toInt64_zero.symm, rfl, rfl⟩

end Serial

open Serial

variable {T : ScalarTypes} {β : Type} [EndSeekable β]

/-- **Sizing and writing agree.**  Calls that all fit into some buffer leave the counter and
that buffer at the same positions, call by call.  Without a call that moves the position, a
buffer of exactly the length the counter reports in the end takes every write, is at the
same positions too, and holds the image of the calls from its start to its end. -/
theorem sizing_agrees (K : Keys T) (calls : List (WriteCall K)) (depth : Nat)
    (memory : List UInt8) (hsize : memory.length < 2 ^ 63)
    (hfit : AllFit (depth + 3) calls (ofBuffer memory false : Serial β)) :
    ∃ positions, ∃ c : Serial β,
      WriteCall.run (depth + 3) calls (ofCount true) = .ok (positions, c) ∧
      (∃ b : Serial β,
        WriteCall.run (depth + 3) calls (ofBuffer memory false) = .ok (positions, b)) ∧
      ((∀ call ∈ calls, call.isSetWritePosition = false) →
        ∃ image : List UInt8, ∀ exact : List UInt8, (exact.length : Int) = c.getWriteLength.1 →
          AllFit (depth + 3) calls (ofBuffer exact false : Serial β) ∧
          ∃ e : Serial β,
            WriteCall.run (depth + 3) calls (ofBuffer exact false) = .ok (positions, e) ∧
            e.bufferWriteIndex = exact.length ∧ e.bufferPointer = image) := by
  have hsizing := sizing_init (β := β) hsize
  obtain ⟨positions, c, b, hcount, hbuffer⟩ := run_sizing hsizing calls depth hfit
  refine ⟨positions, c, hcount, ⟨b, hbuffer⟩, fun hcalls => ?_⟩
  obtain ⟨image, himage, hexact⟩ := run_image hsizing calls depth hcalls hfit
  have hlt : image.length < 2 ^ 63 := by
    rcases himage with rfl | hroom
    · exact Nat.two_pow_pos 63
    · have hlast := (hsizing.position_eq hroom).2
      omega
  -- the counter reports the length of the image
  have hlength : c.getWriteLength.1 = image.length := by
    have hroom : (ofBuffer image false : Serial β).Room image.length := by
      refine ⟨Int.le_refl 0, ?_⟩
      simp only [ofBuffer]
      omega
    obtain ⟨-, _, c', _, hcount', -, _, _, rfl, -⟩ := hexact _ (sizing_init hlt) hroom
    rw [hcount] at hcount'
    cases hcount'
    have htotal : toSizeT (((ofCount true : Serial β).countWrite : Int) + image.length) =
        image.length := by
      rw [show ((ofCount true : Serial β).countWrite : Int) = 0 from rfl, zero_add]
      exact toSizeT_natCast (by omega)
    rw [Serial.getWriteLength, if_pos (by rfl)]
    simp only [withWriteBits, counted, htotal]
    exact toInt64_natCast hlt
  refine ⟨image, fun exact hexactLength => ?_⟩
  have hsame : exact.length = image.length := by
    rw [hlength] at hexactLength
    exact_mod_cast hexactLength
  have hroom : (ofBuffer exact false : Serial β).Room image.length := by
    refine ⟨Int.le_refl 0, ?_⟩
    simp only [ofBuffer]
    omega
  obtain ⟨hfitExact, positions', c', e, hcount', hwrite, _, _, rfl, rfl⟩ :=
    hexact _ (sizing_init (by omega)) hroom
  rw [hcount] at hcount'
  cases hcount'
  refine ⟨hfitExact, _, hwrite, ?_, ?_⟩
  · simp only [withWriteBits, stored, ofBuffer, hsame, zero_add]
  · exact overwrite_all hsame.symm

/-- Three bits, a string, a byte that discards what is pending, and padding at the end. -/
def sampleCalls : List (WriteCall (Keys.equality byteScalars)) :=
  [.bit true, .value .string [104, 105], .bit true, .byte 7, .bit true, .synchronize]

/-- The calls of `sampleCalls` and a buffer of 16 bytes. -/
theorem sizing_agrees_sample :
    ∃ positions, ∃ c : Serial Stringbuf,
      WriteCall.run 3 sampleCalls (ofCount true) = .ok (positions, c) ∧
      (∃ b : Serial Stringbuf,
        WriteCall.run 3 sampleCalls (ofBuffer (List.replicate 16 0) false) =
          .ok (positions, b)) ∧
      ((∀ call ∈ sampleCalls, call.isSetWritePosition = false) →
        ∃ image : List UInt8, ∀ exact : List UInt8, (exact.length : Int) = c.getWriteLength.1 →
          AllFit 3 sampleCalls (ofBuffer exact false : Serial Stringbuf) ∧
          ∃ e : Serial Stringbuf,
            WriteCall.run 3 sampleCalls (ofBuffer exact false) = .ok (positions, e) ∧
            e.bufferWriteIndex = exact.length ∧ e.bufferPointer = image) :=
  sizing_agrees (Keys.equality byteScalars) sampleCalls 0 (List.replicate 16 0) (by decide)
    (by decide +kernel)

end Iostreams
