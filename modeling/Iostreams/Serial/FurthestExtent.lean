import Iostreams.Foundation.Run
import Iostreams.Serial.Sizing

/-!
# The length that a counter reports

A counting `Serial` keeps the write position and the length as two counters.  A write
moves both, and `setWritePosition` only the first.  So the length is the number of
bytes written, wherever they went, and not the end of what was written furthest:
writing a second time over what is counted makes it grow.

`CountedExtent` runs a counter beside that end.  The end is the size of the smallest buffer
that loses none of the writes (`allFit_iff`); the counter reports it exactly as long
as every write is made at the length counted so far (`writeLength_iff`).
-/

namespace Iostreams

open Foundation

namespace Serial

variable {T : ScalarTypes} {K : Keys T} {β : Type}

/-! ## Writing on a counter -/

/-- A counting `Serial`, whatever it has counted. -/
structure CountMode (c : Serial β) : Prop where
  count : c.isCountSerial = true
  plain : c.bitStream = false
  streams : c.writeStreamPointer = false ∧ c.readStreamPointer = false
  countWrite_lt : c.countWrite < 2 ^ 64
  countIndex_lt : c.countWriteIndex < 2 ^ 64

/-- `size` more bytes were counted, up to the bit accumulator. -/
def CountedAs (c : Serial β) (size : Nat) (c' : Serial β) : Prop :=
  ∃ byte count, c' = (c.counted size).withWriteBits byte count

variable {c c' c'' : Serial β}

theorem countMode_ofCount : CountMode (ofCount true : Serial β) :=
  ⟨rfl, rfl, ⟨rfl, rfl⟩, Nat.two_pow_pos 64, Nat.two_pow_pos 64⟩

theorem CountMode.counted_zero (hmode : c.CountMode) : c.counted 0 = c :=
  counted_zero_of_lt hmode.countWrite_lt hmode.countIndex_lt

theorem CountedAs.none (hmode : c.CountMode) (byte : UInt8) (count : Nat) :
    CountedAs c 0 (c.withWriteBits byte count) :=
  ⟨byte, count, by rw [hmode.counted_zero]⟩

theorem CountedAs.transfer (c : Serial β) (size : Nat) : CountedAs c size (c.counted size) :=
  ⟨c.currentWriteByte, c.bitsWrittenWriteByte, rfl⟩

theorem CountedAs.append {front back : Nat} (hfront : CountedAs c front c')
    (hback : CountedAs c' back c'') : CountedAs c (front + back) c'' := by
  rcases hfront with ⟨_, _, rfl⟩
  rcases hback with ⟨byte, count, rfl⟩
  refine ⟨byte, count, ?_⟩
  rw [← counted_counted]
  rfl

theorem CountedAs.countMode {size : Nat} (hcounted : CountedAs c size c') (hmode : c.CountMode) :
    c'.CountMode := by
  rcases hcounted with ⟨_, _, rfl⟩
  exact ⟨hmode.count, hmode.plain, hmode.streams, toSizeT_lt (c.countWrite + size),
    toSizeT_lt (c.countWriteIndex + size)⟩

/-- An element writer that counts as many bytes as the element is encoded in. -/
def CountsAs {α : Type} (put : α → Serial β → Except Halt (Serial β))
    (encode : α → List UInt8) : Prop :=
  ∀ item c, CountMode c → ∃ c', put item c = .ok c' ∧ CountedAs c (encode item).length c'

/-- Two writers one after the other. -/
theorem counted_bind {put next : Serial β → Except Halt (Serial β)} {front back : List UInt8}
    (hmode : c.CountMode) (hput : ∃ c', put c = .ok c' ∧ CountedAs c front.length c')
    (hnext : ∀ c', CountMode c' → ∃ c'', next c' = .ok c'' ∧ CountedAs c' back.length c'') :
    ∃ c'', (put c >>= next) = .ok c'' ∧ CountedAs c (front ++ back).length c'' := by
  rcases hput with ⟨c₁, hfirst, hcounted⟩
  rcases hnext c₁ (hcounted.countMode hmode) with ⟨c₂, hsecond, hcountedNext⟩
  rw [List.length_append]
  refine ⟨c₂, ?_, hcounted.append hcountedNext⟩
  rw [hfirst, ok_bind, hsecond]

theorem writeEach_countsAs {α : Type} {put : α → Serial β → Except Halt (Serial β)}
    {encode : α → List UInt8} (hput : CountsAs put encode) (items : List α)
    (hmode : c.CountMode) :
    ∃ c', writeEach (fun s item => put item s) items c = .ok c' ∧
      CountedAs c (items.flatMap encode).length c' := by
  induction items generalizing c with
  | nil => exact ⟨c, rfl, CountedAs.none hmode c.currentWriteByte c.bitsWrittenWriteByte⟩
  | cons item rest ih =>
      rw [List.flatMap_cons]
      exact counted_bind hmode (hput item c hmode) fun _ hmode' => ih hmode'

theorem putBinding_countsAs {κ ν : Type} {putKey : κ → Serial β → Except Halt (Serial β)}
    {putValue : ν → Serial β → Except Halt (Serial β)} {encodeKey : κ → List UInt8}
    {encodeValue : ν → List UInt8} (hkey : CountsAs putKey encodeKey)
    (hvalue : CountsAs putValue encodeValue) :
    CountsAs (putBinding putKey putValue)
      (fun item => encodeKey item.1 ++ encodeValue item.2) :=
  fun item c hmode => counted_bind hmode (hkey item.1 c hmode) fun c' hmode' =>
    hvalue item.2 c' hmode'

variable [Streambuf β]

theorem putBytes_countsAs (depth : Nat) :
    CountsAs (putBytes (depth + 1) : List UInt8 → Serial β → _) id := by
  intro src c hmode
  refine ⟨c.counted src.length, ?_, CountedAs.transfer c src.length⟩
  rw [putBytes, writeBytes_count hmode.count, ok_bind]

/-- Outside bit-stream mode a byte is a block of one byte, whatever is pending. -/
theorem writeByte_counted (hmode : c.CountMode) (byte : UInt8) (depth : Nat) (acc : UInt8)
    (pending : Nat) :
    writeByte (depth + 2) (c.withWriteBits acc pending) byte =
      .ok ((c.counted 1).withWriteBits 0 0) := by
  have hplain : (c.withWriteBits acc pending).bitStream = false := hmode.plain
  have hcount : (c.withWriteBits acc pending).isCountSerial = true := hmode.count
  simp only [writeByte, writeBytes_count hcount, hplain, Bool.false_eq_true, false_and, if_false,
    ok_bind]
  rfl

theorem putBool_countsAs (depth : Nat) :
    CountsAs (putBool (depth + 2) : Bool → Serial β → _) Ty.encodeBool := by
  intro value c hmode
  have hwrite := writeByte_counted hmode (UInt8.ofNat value.toNat) depth c.currentWriteByte
    c.bitsWrittenWriteByte
  rw [withWriteBits_self] at hwrite
  refine ⟨(c.counted 1).withWriteBits 0 0, ?_, 0, 0, rfl⟩
  simp only [putBool, hmode.plain, Bool.false_eq_true, if_false, hwrite]

theorem serializeString_countsAs (depth : Nat) :
    CountsAs (serializeString (depth + 1) : List UInt8 → Serial β → _) Ty.encodeString :=
  fun str c hmode => counted_bind hmode
    (putBytes_countsAs depth (leBytes 8 str.length) c hmode)
    fun _ hmode' => putBytes_countsAs depth str _ hmode'

theorem serializeElements_countsAs {α : Type} (depth : Nat)
    {put : α → Serial β → Except Halt (Serial β)} {encode : α → List UInt8}
    (hput : CountsAs put encode) :
    CountsAs (serializeElements (depth + 1) put) (Ty.encodeElements encode) :=
  fun items c hmode => counted_bind hmode
    (putBytes_countsAs depth (leBytes 8 items.length) c hmode)
    fun _ hmode' => writeEach_countsAs hput items hmode'

/-- A value of any type is counted as what it is encoded in. -/
theorem put_countsAs (K : Keys T) (depth : Nat) (t : Ty T) :
    CountsAs (put K (depth + 2) t : _ → Serial β → _) (t.encode K) := by
  induction t with
  | bool => exact putBool_countsAs depth
  | scalar name => exact fun value (c : Serial β) => putBytes_countsAs (depth + 1) value.val c
  | string => exact serializeString_countsAs (depth + 1)
  | vector element ih => exact serializeElements_countsAs (depth + 1) ih
  | set element ih =>
      exact fun items (c : Serial β) => serializeElements_countsAs (depth + 1) ih items.val c
  | unorderedSet element ih =>
      exact fun items (c : Serial β) => serializeElements_countsAs (depth + 1) ih items.val c
  | map key value ihKey ihValue =>
      exact fun items (c : Serial β) =>
        serializeElements_countsAs (depth + 1) (putBinding_countsAs ihKey ihValue) items.val c
  | unorderedMap key value ihKey ihValue =>
      exact fun items (c : Serial β) =>
        serializeElements_countsAs (depth + 1) (putBinding_countsAs ihKey ihValue) items.val c

theorem writeBit_counted (hmode : c.CountMode) (flag : Bool) (depth : Nat) :
    ∃ c', writeBit (depth + 3) c flag = .ok c' ∧
      CountedAs c ((WriteCall.bit flag : WriteCall K).emitted c).length c' := by
  have hput : c.putWriteBit flag = c.withWriteBits (c.putWriteBit flag).currentWriteByte
      (c.bitsWrittenWriteByte + 1) := rfl
  rw [WriteCall.emitted]
  by_cases hfull : c.bitsWrittenWriteByte + 1 = 8
  · -- the eighth bit completes a byte, which goes out
    rw [if_pos hfull]
    have hwrite := writeByte_counted hmode (c.putWriteBit flag).currentWriteByte depth
      (c.putWriteBit flag).currentWriteByte (c.bitsWrittenWriteByte + 1)
    refine ⟨_, ?_, 0, 0, rfl⟩
    rw [← hput] at hwrite
    unfold writeBit
    exact (if_pos hfull).trans hwrite
  · rw [if_neg hfull]
    refine ⟨c.putWriteBit flag, ?_, CountedAs.none hmode _ _⟩
    unfold writeBit
    exact if_neg hfull

theorem synchronize_counted (hmode : c.CountMode) (depth : Nat) :
    ∃ c', synchronize (depth + 2) c = .ok c' ∧
      CountedAs c ((WriteCall.synchronize : WriteCall K).emitted c).length c' := by
  rcases hmode.streams with ⟨hwriteStream, hreadStream⟩
  rw [WriteCall.emitted]
  by_cases hpending : 0 < c.bitsWrittenWriteByte ∧ c.bitsWrittenWriteByte < 8
  · -- the pending bits go out as one byte
    rw [if_pos hpending]
    have hwrite := writeByte_counted hmode c.currentWriteByte depth c.currentWriteByte 8
    refine ⟨_, ?_, 0, 0, rfl⟩
    rw [synchronize, if_pos hpending]
    simp only [withWriteBits] at hwrite ⊢
    rw [hwrite, ok_bind]
    simp [writeStream, readStream, counted, hwriteStream, hreadStream]
  · rw [if_neg hpending]
    refine ⟨c, ?_, CountedAs.none hmode c.currentWriteByte c.bitsWrittenWriteByte⟩
    rw [synchronize, if_neg hpending, ok_bind]
    simp [writeStream, readStream, hwriteStream, hreadStream]

/-- A call that writes counts what it emits. -/
theorem perform_counted (hmode : c.CountMode) (call : WriteCall K)
    (hcall : call.isSetWritePosition = false) (depth : Nat) :
    ∃ c', call.perform (depth + 3) c = .ok c' ∧ CountedAs c (call.emitted c).length c' := by
  cases call with
  | value t item => exact put_countsAs K (depth + 1) t item c hmode
  | bytes src => exact putBytes_countsAs (depth + 2) src c hmode
  | byte byte =>
      have hwrite := writeByte_counted hmode byte (depth + 1) c.currentWriteByte
        c.bitsWrittenWriteByte
      rw [withWriteBits_self] at hwrite
      exact ⟨_, hwrite, 0, 0, rfl⟩
  | bit flag => exact writeBit_counted hmode flag depth
  | synchronize => exact synchronize_counted hmode (depth + 1)
  | setWritePosition index => cases hcall

/-! ## The furthest extent -/

omit [Streambuf β] in
/-- The call emits nothing, or emits at the length that was counted so far. -/
def Appends (c : Serial β) (call : WriteCall K) : Prop :=
  call.emitted c = [] ∨
    c.countWriteIndex = c.countWrite ∧ c.countWrite + (call.emitted c).length < 2 ^ 63

/-- Every call returns; the counter after it, and what it counts. -/
theorem perform_countMode (hmode : c.CountMode) (call : WriteCall K) (depth : Nat) :
    ∃ c', call.perform (depth + 3) c = .ok c' ∧ c'.CountMode ∧
      c'.countWrite = toSizeT (c.countWrite + (call.emitted c).length) := by
  by_cases hcall : call.isSetWritePosition = true
  · cases call with
    | setWritePosition index =>
        have hperform : (WriteCall.setWritePosition index : WriteCall K).perform (depth + 3) c =
            .ok { c with countWriteIndex := index.toNat } := by
          rw [WriteCall.perform, Serial.setWritePosition, if_pos hmode.count]
        have hsame : toSizeT (c.countWrite + (0 : Nat)) = c.countWrite := by
          rw [Nat.cast_zero, add_zero]
          exact toSizeT_natCast hmode.countWrite_lt
        exact ⟨_, hperform, ⟨hmode.count, hmode.plain, hmode.streams, hmode.countWrite_lt,
          index.toNat_lt⟩, hsame.symm⟩
    | _ => cases hcall
  · obtain ⟨c', hperform, hcounted⟩ :=
      perform_counted hmode call (Bool.eq_false_of_not_eq_true hcall) depth
    refine ⟨c', hperform, hcounted.countMode hmode, ?_⟩
    rcases hcounted with ⟨_, _, rfl⟩
    rfl

end Serial

/-- A counter, and the furthest position that a byte was written up to. -/
structure CountedExtent (β : Type) where
  counter : Serial β
  furthest : Nat := 0

namespace CountedExtent

variable {T : ScalarTypes} {K : Keys T} {β : Type}

/-- A call that emits nothing is no write. -/
def reach (extent : CountedExtent β) (call : WriteCall K) : Nat :=
  if call.emitted extent.counter = [] then extent.furthest
  else max extent.furthest
    (extent.counter.countWriteIndex + (call.emitted extent.counter).length)

def perform [Streambuf β] (depth : Nat) (extent : CountedExtent β) (call : WriteCall K) :
    CountedExtent β where
  counter := (call.perform depth extent.counter).toOption.getD extent.counter
  furthest := extent.reach call

variable {extent : CountedExtent β}

theorem le_reach (call : WriteCall K) : extent.furthest ≤ extent.reach call := by
  unfold reach
  split
  · exact Nat.le_refl _
  · exact Nat.le_max_left _ _

theorem reach_le_iff {call : WriteCall K} {size : Nat} (hle : extent.furthest ≤ size) :
    extent.reach call ≤ size ↔ call.emitted extent.counter = [] ∨
      extent.counter.countWriteIndex + (call.emitted extent.counter).length ≤ size := by
  unfold reach
  split
  · rename_i hnone
    exact iff_of_true hle (Or.inl hnone)
  · rename_i hsome
    rw [Nat.max_le, or_iff_right hsome, and_iff_right hle]

theorem perform_eq [Streambuf β] {depth : Nat} {call : WriteCall K} {c' : Serial β}
    (hperform : call.perform depth extent.counter = .ok c') :
    extent.perform depth call = ⟨c', extent.reach call⟩ := by
  rw [perform, hperform]
  rfl

theorem le_foldl [Streambuf β] (depth : Nat) (calls : List (WriteCall K))
    (extent : CountedExtent β) :
    extent.furthest ≤ (calls.foldl (perform depth) extent).furthest := by
  induction calls generalizing extent with
  | nil => exact Nat.le_refl _
  | cons call calls ih => exact Nat.le_trans (le_reach call) (ih (extent.perform depth call))

/-! ## The smallest buffer -/

/-- A call fits into a buffer of the same position exactly if it reaches no further than its
end. -/
theorem fits_iff {b : Serial β} (hsizing : Serial.Sizing extent.counter b) (call : WriteCall K) :
    b.Fits (call.emitted b) ↔ call.emitted extent.counter = [] ∨
      extent.counter.countWriteIndex + (call.emitted extent.counter).length ≤
        b.bufferPointer.length := by
  have hposition := hsizing.position
  have hindex := hsizing.countIndex_lt
  have hsize := hsizing.bufferMode.size_lt
  rw [hsizing.emitted_eq, Serial.Fits, Serial.Room]
  rw [toInt64, Int.bmod_def] at hposition
  apply or_congr_right
  omega

theorem allFit_iff [Streambuf β] (depth : Nat) (calls : List (WriteCall K)) {b : Serial β}
    {extent : CountedExtent β} (hsizing : Serial.Sizing extent.counter b)
    (hle : extent.furthest ≤ b.bufferPointer.length) :
    Serial.AllFit (depth + 3) calls b ↔
      (calls.foldl (perform (depth + 3)) extent).furthest ≤ b.bufferPointer.length := by
  induction calls generalizing extent b with
  | nil => exact iff_of_true trivial hle
  | cons call calls ih =>
      have hfits := (fits_iff hsizing call).trans (reach_le_iff hle).symm
      rw [Serial.AllFit, List.foldl_cons]
      by_cases hfit : b.Fits (call.emitted b)
      · obtain ⟨c', b', hcount, hbuffer, hnext, hlength⟩ :=
          Serial.perform_sizing hsizing call hfit depth
        rw [perform_eq hcount, ← hlength]
        have hreach : extent.reach call ≤ b'.bufferPointer.length := by
          rw [hlength]
          exact hfits.mp hfit
        have hrest := @ih b' ⟨c', extent.reach call⟩ hnext hreach
        constructor
        · rintro ⟨-, hall⟩
          exact hrest.mp (hall b' hbuffer)
        · intro hfurthest
          refine ⟨hfit, fun s' hs' => ?_⟩
          cases hbuffer.symm.trans hs'
          exact hrest.mpr hfurthest
      · -- a write is lost, and what it reached stays reached
        refine iff_of_false (fun hall => hfit hall.1) (fun hfurthest => hfit (hfits.mpr ?_))
        exact Nat.le_trans (le_foldl (depth + 3) calls (extent.perform (depth + 3) call)) hfurthest

/-! ## Runs -/

/-- Counting `size` more bytes gives the larger of two ends exactly if they begin at the first
end. -/
theorem toInt64_add_eq_max_iff {length index size : Nat} (hlength : length < 2 ^ 63)
    (hsize : 0 < size) :
    toInt64 (toSizeT (length + size) : Nat) = (max length (index + size) : Nat) ↔
      index = length ∧ length + size < 2 ^ 63 := by
  rw [toInt64_toSizeT, toInt64, Int.bmod_def]
  omega

variable [EndSeekable β]

/-- `getWriteLength()` is where the furthest write ended. -/
def Reports (extent : CountedExtent β) : Prop := extent.counter.getWriteLength.1 = extent.furthest

theorem reports_iff (hmode : extent.counter.CountMode) :
    extent.Reports ↔ toInt64 extent.counter.countWrite = extent.furthest := by
  rw [Reports, Serial.getWriteLength, if_pos hmode.count]

/-- A call keeps the report true exactly if it appends. -/
theorem reports_perform_iff (hmode : extent.counter.CountMode) (hreports : extent.Reports)
    (call : WriteCall K) (depth : Nat) :
    (extent.perform (depth + 3) call).Reports ↔ extent.counter.Appends call := by
  rcases Serial.perform_countMode hmode call depth with ⟨c', hperform, hmode', hcount⟩
  have hnext : (⟨c', extent.reach call⟩ : CountedExtent β).Reports ↔
      toInt64 c'.countWrite = extent.reach call := reports_iff hmode'
  have hlength := (reports_iff hmode).mp hreports
  have hsame : extent.counter.countWrite = extent.furthest :=
    eq_of_toInt64_eq hmode.countWrite_lt hlength
  have hlt : extent.furthest < 2 ^ 63 := by
    have hbound := toInt64_lt extent.counter.countWrite
    omega
  rw [perform_eq hperform, hnext, hcount, hsame, Serial.Appends, reach]
  by_cases hnone : call.emitted extent.counter = []
  · rw [if_pos hnone, hnone, toInt64_toSizeT, List.length_nil, Nat.cast_zero, add_zero,
      toInt64_natCast hlt]
    exact iff_of_true rfl (Or.inl rfl)
  · rw [if_neg hnone, or_iff_right hnone, hsame]
    exact toInt64_add_eq_max_iff hlt (List.length_pos_iff.mpr hnone)

/-- **The length of a counter.**  In every run of writes and seeks of a counter the reported
length is, after every call, where the furthest write ended, exactly if every call that emits
bytes is made where the position is the length counted so far, and counts fewer than `2 ^ 63`
bytes in all.  Where the furthest write ended is the size of the smallest buffer that takes
every write of the run. -/
theorem writeLength_iff (K : Keys T) (calls : List (WriteCall K)) (depth : Nat) :
    (Throughout (perform (depth + 3)) (Reports (β := β)) ⟨.ofCount true, 0⟩ calls ↔
      EachAllowed (perform (depth + 3)) (fun extent call => extent.counter.Appends call)
        (⟨.ofCount true, 0⟩ : CountedExtent β) calls) ∧
    ∀ memory : Object, Serial.AllFit (depth + 3) calls (.ofBuffer memory.val false : Serial β) ↔
      (calls.foldl (perform (depth + 3)) (⟨.ofCount true, 0⟩ : CountedExtent β)).furthest ≤
        memory.val.length := by
  constructor
  · have hkeeps (extent : CountedExtent β) (call : WriteCall K) (hmode : extent.counter.CountMode) :
        (extent.perform (depth + 3) call).counter.CountMode := by
      rcases Serial.perform_countMode hmode call depth with ⟨c', hperform, hmode', -⟩
      rw [perform_eq hperform]
      exact hmode'
    have hstart : Reports (⟨.ofCount true, 0⟩ : CountedExtent β) :=
      (reports_iff Serial.countMode_ofCount).mpr toInt64_zero
    exact throughout_iff (fun extent : CountedExtent β => extent.counter.CountMode) hkeeps
      (fun extent call hmode hreports => reports_perform_iff hmode hreports call depth)
      Serial.countMode_ofCount hstart
  · intro memory
    have hstart : (Serial.ofBuffer memory.val false : Serial β).bufferPointer = memory.val := rfl
    rw [← hstart]
    exact allFit_iff depth calls (Serial.sizing_init memory.property) (Nat.zero_le _)

/-- Two bytes are written, and the first of them once more: the length is three, and a buffer
of two bytes takes all of it. -/
theorem not_writeLength :
    let calls : List (WriteCall (Keys.equality byteScalars)) :=
      [.bytes [1, 2], .setWritePosition 0, .byte 3]
    let final := calls.foldl (perform 3) (⟨.ofCount true, 0⟩ : CountedExtent Stringbuf)
    final.counter.getWriteLength.1 = 3 ∧ final.furthest = 2 ∧
      Serial.AllFit 3 calls (.ofBuffer [0, 0] false : Serial Stringbuf) := by
  decide +kernel

end CountedExtent
end Iostreams
