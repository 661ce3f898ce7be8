import Iostreams.Serial.Replay
import Iostreams.Serial.RoundTrip

/-!
# Resumable decoding

A caller of `readTypeWithBuffer` keeps asking for one value while its encoding
arrives piece by piece.  After an attempt that returned false it rewinds the
replay buffer and clears both streams; `Resumes` is what it relies on: false
while bytes are missing, and on the first call after the last of them arrived
true, with the value decoded and the main stream right behind the encoding.

An attempt replays what earlier ones obtained and continues on the main stream.
Whether it was complete is inferred from the status flags afterwards, and that
inference goes wrong in two cases.  A boolean is read past the replay buffer,
whose flags therefore never report anything; and the empty string ends with a
transfer of no bytes, which the flags cannot tell from a failed one unless more
input follows.  `Item.Resumable` excludes exactly those.
-/

namespace Iostreams

open Foundation Serial

/-- A value of one of the types the operators read without a loop. -/
inductive Item where
  | bool (value : Bool)
  /-- A trivially copyable object and the one it is read into. -/
  | object (bytes fresh : List UInt8) (pos : 0 < bytes.length)
      (size_eq : fresh.length = bytes.length) (size_lt : bytes.length < 2 ^ 63)
  | string (str : List UInt8) (size_lt : 8 + str.length < 2 ^ 63)

namespace Item

/-- The bytes `<<` writes. -/
def encode : Item → List UInt8
  | .bool value => Ty.encodeBool value
  | .object bytes _ _ _ _ => bytes
  | .string str _ => Ty.encodeString str

/-- The representation of the value. -/
def value : Item → List UInt8
  | .bool value => Ty.encodeBool value
  | .object bytes _ _ _ _ => bytes
  | .string str _ => str

/-- `>> val` on a fresh value -/
def get {β γ : Type} [Streambuf β] [Streambuf γ] (depth : Nat) :
    Item → Reader β γ → Except Halt (List UInt8 × Reader β γ)
  | .bool _, r => do
      let (value, r) ← r.getBool depth
      .ok (Ty.encodeBool value, r)
  | .object _ fresh _ _ _, r => r.getBytes depth fresh
  | .string _ _, r => r.deserializeString depth []

end Item

/-- The total that has arrived once at least `size` bytes have, if that happens. -/
def firstComplete (size : Nat) : Nat → List (List UInt8) → Option Nat
  | _, [] => none
  | arrived, bytes :: rest =>
      if arrived + bytes.length < size then firstComplete size (arrived + bytes.length) rest
      else some (arrived + bytes.length)

/-- The arrivals for which an item can be read: a boolean must be there at the
first call, and something must follow the empty string at once. -/
def Item.Resumable : Item → List (List UInt8) → Prop
  | .bool _, arrivals => arrivals.head? ≠ some []
  | .object _ _ _ _ _, _ => True
  | .string str _, arrivals => str = [] → firstComplete 8 0 arrivals ≠ some 8

section Attempts

variable {β : Type} [ArrivalSource β]

/-- What is left to read on the main stream. -/
def pendingInput (s : Serial β) : List UInt8 :=
  match s.stream with
  | some io => CharSource.pending io.rdbuf
  | none => []

/-- The caller's protocol, one call after each arrival. -/
def Resumes (depth : Nat) (item : Item) :
    List UInt8 → List (List UInt8) → Serial β → Serial Stringbuf → Prop
  | _, [], _, _ => True
  | arrived, bytes :: rest, main, buffer =>
      ∃ done val main' buffer', readTypeWithBuffer (item.get depth) (main.arrive bytes) buffer =
          .ok (done, val, main', buffer') ∧
        if (arrived ++ bytes).length < item.encode.length then
          done = false ∧ Resumes depth item (arrived ++ bytes) rest main'.clearRead
            (buffer'.setReadPosition 0).clearRead
        else
          done = true ∧ val = item.value ∧
            pendingInput main' = (arrived ++ bytes).drop item.encode.length

theorem Serial.Supplying.pendingInput_eq {s : Serial β} {good : Bool} {bytes : List UInt8}
    (hsupplying : Supplying s good bytes) : pendingInput s = bytes := by
  obtain ⟨io, hmode, _, hpending, _⟩ := hsupplying
  rw [pendingInput, hmode.stream]
  exact hpending

theorem missedBytes_of_readEmpty {γ : Type} {s : Serial γ} (hempty : s.readEmpty = true) :
    s.missedBytes = true := by
  simp [missedBytes, isReadEmpty, hempty]

theorem missedBytes_of_full {s : Serial β} {good : Bool} {bytes : List UInt8}
    (hsupplying : Supplying s good bytes) (hempty : s.readEmpty = false)
    (heof : s.readEof = false) : s.missedBytes = false := by
  obtain ⟨io, _, _, _, _, hmismatch⟩ := hsupplying
  simp [missedBytes, lastDidNotReadWholeSize, isReadEmpty, isReadEof, hmismatch, hempty, heof]

/-! ## One transfer -/

/-- Both streams of an attempt: the buffer holds `content` and was replayed up
to `position`, and `bytes` are left on the main stream. -/
structure Underway (main : Serial β) (buffer : Serial Stringbuf) (content : List UInt8)
    (position : Nat) (bytes : List UInt8) : Prop where
  holding : Holding buffer content position
  supplying : Supplying main true bytes

/-- Both streams after a transfer that was not complete. -/
structure Exhausted (main : Serial β) (buffer : Serial Stringbuf) (content : List UInt8) :
    Prop where
  holding : Holding buffer content content.length
  supplying : Supplying main false []
  bufferEmpty : buffer.readEmpty = true
  mainEmpty : main.readEmpty = true

theorem Exhausted.missed {main : Serial β} {buffer : Serial Stringbuf} {content : List UInt8}
    (hexhausted : Exhausted main buffer content) :
    (buffer.missedBytes && main.missedBytes) = true := by
  rw [missedBytes_of_readEmpty hexhausted.bufferEmpty,
    missedBytes_of_readEmpty hexhausted.mainEmpty]
  rfl

section Transfers

variable {main : Serial β} {buffer : Serial Stringbuf} {content bytes : List UInt8}
  {position : Nat}

/-- Too little has arrived. -/
theorem readInto_exhausted (hunderway : Underway main buffer content position bytes)
    (hposition : position ≤ content.length) (dest : List UInt8)
    (hmissing : (content ++ bytes).length < position + dest.length)
    (hsize : position + dest.length < 2 ^ 63) (depth : Nat) :
    ∃ main' buffer', Reader.readInto (depth + 1) ⟨main, some buffer⟩ dest dest.length =
        .ok (overwrite dest 0 ((content ++ bytes).drop position), ⟨main', some buffer'⟩) ∧
      Exhausted main' buffer' (content ++ bytes) := by
  rw [List.length_append] at hmissing
  obtain ⟨_, dest', main', buffer', hread, hdest, hsupplying, hholding, hempty, _, hshort⟩ :=
    readBytesWithBuffer_continued hunderway.holding hunderway.supplying hposition
      (Or.inl (by omega)) (by omega) hsize depth (rfl : dest.length = dest.length)
  have htaken : bytes.take (position + dest.length - content.length) = bytes :=
    List.take_of_length_le (by omega)
  have hdrop : bytes.drop (position + dest.length - content.length) = [] :=
    List.drop_eq_nil_of_le (by omega)
  have hpartial : bytes.length ≠ position + dest.length - content.length := by omega
  rw [htaken] at hdest hsupplying hholding hshort
  rw [hdrop, decide_eq_false hpartial] at hsupplying
  refine ⟨main', buffer', ?_, hholding, hsupplying, hempty, hshort (Or.inl hpartial)⟩
  simp only [Reader.readInto, hread, ok_bind, hdest, List.drop_append_of_le_length hposition]

/-- A transfer after an incomplete one obtains nothing. -/
theorem readInto_dry (hexhausted : Exhausted main buffer content)
    (hcontent : content.length < 2 ^ 63) {size : Nat} (hsize : size < 2 ^ 63) (depth : Nat)
    (dest : List UInt8) :
    ∃ dest' main' buffer', Reader.readInto (depth + 1) ⟨main, some buffer⟩ dest size =
        .ok (dest', ⟨main', some buffer'⟩) ∧
      Exhausted main' buffer' content := by
  obtain ⟨_, dest', main', buffer', hread, hsupplying, hholding, hbuffer, hmain⟩ :=
    readBytesWithBuffer_dry hexhausted.holding hexhausted.supplying hcontent hsize depth dest
  refine ⟨dest', main', buffer', ?_, hholding, hsupplying, hbuffer, hmain⟩
  simp only [Reader.readInto, hread, ok_bind]

/-- The buffer is exhausted first, and enough has arrived. -/
theorem readInto_completed (hunderway : Underway main buffer content position bytes)
    (hposition : position ≤ content.length) (dest : List UInt8)
    (hmore : content.length < position + dest.length ∨ dest.length = 0)
    (hle : content.length ≤ position + dest.length)
    (hcomplete : position + dest.length ≤ (content ++ bytes).length)
    (hsize : position + dest.length < 2 ^ 63) (depth : Nat) :
    ∃ main' buffer', Reader.readInto (depth + 1) ⟨main, some buffer⟩ dest dest.length =
        .ok (((content ++ bytes).drop position).take dest.length, ⟨main', some buffer'⟩) ∧
      Underway main' buffer' ((content ++ bytes).take (position + dest.length))
        (position + dest.length) ((content ++ bytes).drop (position + dest.length)) ∧
      buffer'.missedBytes = true ∧
      main'.missedBytes = decide (dest.length = 0 ∧ bytes = []) := by
  rw [List.length_append] at hcomplete
  obtain ⟨_, dest', main', buffer', hread, hdest, hsupplying, hholding, hempty, hfull, hnone⟩ :=
    readBytesWithBuffer_continued hunderway.holding hunderway.supplying hposition hmore hle hsize
      depth (rfl : dest.length = dest.length)
  have hlength : (bytes.take (position + dest.length - content.length)).length =
      position + dest.length - content.length := by
    rw [List.length_take]
    omega
  have hvalue : content.drop position ++ bytes.take (position + dest.length - content.length) =
      ((content ++ bytes).drop position).take dest.length := by
    have hfront : (content.drop position).length ≤ dest.length := by
      rw [List.length_drop]
      omega
    rw [List.drop_append_of_le_length hposition, List.take_append, List.take_of_length_le hfront,
      List.length_drop]
    congr 2
    omega
  have hstored : content ++ bytes.take (position + dest.length - content.length) =
      (content ++ bytes).take (position + dest.length) := by
    rw [List.take_append, List.take_of_length_le hle]
  have hrest : bytes.drop (position + dest.length - content.length) =
      (content ++ bytes).drop (position + dest.length) := by
    rw [List.drop_append, List.drop_eq_nil_of_le hle, List.nil_append]
  have hstoredLength : ((content ++ bytes).take (position + dest.length)).length =
      position + dest.length := by
    rw [List.length_take, List.length_append]
    omega
  rw [hlength] at hsupplying hfull hnone
  rw [decide_eq_true rfl, hrest] at hsupplying
  rw [hstored, hstoredLength] at hholding
  -- the replayed and the new part are the wanted bytes of the content and the input together
  refine ⟨main', buffer', ?_, ⟨hholding, hsupplying⟩, missedBytes_of_readEmpty hempty, ?_⟩
  · have hwhole : (((content ++ bytes).drop position).take dest.length).length = dest.length := by
      rw [List.length_take, List.length_drop, List.length_append]
      omega
    simp only [Reader.readInto, hread, ok_bind, hdest, hvalue, overwrite_all hwhole]
  · by_cases hnothing : dest.length = 0 ∧ bytes = []
    · rw [decide_eq_true hnothing]
      exact missedBytes_of_readEmpty (hnone (Or.inr hnothing.2))
    · obtain ⟨hmainEmpty, hmainEof⟩ := hfull rfl (by
        by_cases hbytes : bytes = []
        · simp only [hbytes, and_true, List.length_nil] at hnothing hcomplete
          omega
        · exact Or.inr hbytes)
      rw [decide_eq_false hnothing]
      exact missedBytes_of_full hsupplying hmainEmpty hmainEof

/-- The buffer alone is enough. -/
theorem readInto_replayed (hunderway : Underway main buffer content position bytes)
    (dest : List UInt8) (hpos : 0 < dest.length)
    (hfits : position + dest.length ≤ content.length) (hcontent : content.length < 2 ^ 63)
    (depth : Nat) :
    ∃ main' buffer', Reader.readInto (depth + 1) ⟨main, some buffer⟩ dest dest.length =
        .ok (((content ++ bytes).drop position).take dest.length, ⟨main', some buffer'⟩) ∧
      Underway main' buffer' content (position + dest.length) bytes := by
  obtain ⟨buffer', hread, hholding⟩ := readBytesWithBuffer_replayed main
    hunderway.holding hpos hfits hcontent depth (rfl : dest.length = dest.length)
  have hvalue : (content.drop position).take dest.length =
      ((content ++ bytes).drop position).take dest.length := by
    rw [List.drop_append_of_le_length (by omega),
      List.take_append_of_le_length (by rw [List.length_drop]; omega)]
  obtain ⟨io, ⟨hcount, hbuffer, hpassthrough, hplain, hconnected, hstream⟩, hrest⟩ :=
    hunderway.supplying
  refine ⟨{ main with sizeMismatchFlag := false }, buffer', ?_, hholding, io,
    ⟨hcount, hbuffer, hpassthrough, hplain, hconnected, hstream⟩, hrest⟩
  simp only [Reader.readInto, hread, ok_bind, hvalue]

/-- A length that has arrived is read, from the buffer or across the border. -/
theorem getSize_arrived (hunderway : Underway main buffer content 0 bytes) {size : Nat}
    (hsize : size < 2 ^ 64) (hinitial : (content ++ bytes).take 8 = leBytes 8 size)
    (hcomplete : 8 ≤ (content ++ bytes).length) (hcontent : content.length < 2 ^ 63)
    (depth old : Nat) :
    ∃ main' buffer' content' bytes', Reader.getSize (depth + 1) old ⟨main, some buffer⟩ =
        .ok (size, ⟨main', some buffer'⟩) ∧
      Underway main' buffer' content' 8 bytes' ∧ content' ++ bytes' = content ++ bytes ∧
      content'.length = max 8 content.length := by
  have hlength : (leBytes 8 old).length = 8 := leBytes_length 8 old
  have hvalue : leValue (leBytes 8 size) = size := leValue_leBytes (by omega)
  by_cases hreplayed : 8 ≤ content.length
  · obtain ⟨main', buffer', hread, hunderway'⟩ := readInto_replayed hunderway
      (leBytes 8 old) (by omega) (by omega) hcontent depth
    rw [hlength, List.drop_zero, hinitial] at hread
    rw [hlength, Nat.zero_add] at hunderway'
    refine ⟨main', buffer', content, bytes, ?_, hunderway', rfl, by omega⟩
    simp only [Reader.getSize, Reader.getBytes, hlength, hread, ok_bind, hvalue]
  · obtain ⟨main', buffer', hread, hunderway', _⟩ := readInto_completed hunderway (Nat.zero_le _)
      (leBytes 8 old) (Or.inl (by omega)) (by omega) (by omega) (by omega) depth
    rw [hlength, List.drop_zero, hinitial] at hread
    rw [hlength, Nat.zero_add] at hunderway'
    refine ⟨main', buffer', _, _, ?_, hunderway', List.take_append_drop 8 _, ?_⟩
    · simp only [Reader.getSize, Reader.getBytes, hlength, hread, ok_bind, hvalue]
    · rw [List.length_take]
      omega

end Transfers

/-! ## One attempt -/

/-- What one call does when `total` bytes have arrived altogether. -/
def Attempts (depth : Nat) (item : Item) (main : Serial β) (buffer : Serial Stringbuf)
    (total : List UInt8) : Prop :=
  ∃ done val main' buffer', readTypeWithBuffer (item.get depth) main buffer =
      .ok (done, val, main', buffer') ∧
    if total.length < item.encode.length then
      done = false ∧ Exhausted main' buffer' total
    else
      done = !decide (item.value = [] ∧ total.length = item.encode.length) ∧
        val = item.value ∧ pendingInput main' = total.drop item.encode.length

variable {main : Serial β} {buffer : Serial Stringbuf} {arrived bytes following : List UInt8}

theorem attempts_object {object fresh : List UInt8} {hpos : 0 < object.length}
    {hfresh : fresh.length = object.length} {hsize : object.length < 2 ^ 63}
    (hunderway : Underway main buffer arrived 0 bytes) (harrived : arrived.length < object.length)
    (hinitial : arrived ++ bytes <+: object ++ following) (depth : Nat) :
    Attempts (depth + 1) (.object object fresh hpos hfresh hsize) main buffer
      (arrived ++ bytes) := by
  by_cases hmissing : (arrived ++ bytes).length < object.length
  · obtain ⟨main', buffer', hread, hexhausted⟩ := readInto_exhausted hunderway (Nat.zero_le _)
      fresh (by omega) (by omega) depth
    refine ⟨false, overwrite fresh 0 (arrived ++ bytes), main', buffer', ?_, ?_⟩
    · simp only [readTypeWithBuffer, Item.get, Reader.getBytes, hread, ok_bind, Option.getD_some,
        hexhausted.missed, Bool.not_true, List.drop_zero]
    · rw [Item.encode, if_pos hmissing]
      exact ⟨rfl, hexhausted⟩
  · -- this call completes the object
    obtain ⟨main', buffer', hread, hunderway', _, hmissed⟩ := readInto_completed hunderway
      (Nat.zero_le _) fresh (Or.inl (by omega)) (by omega) (by omega) (by omega) depth
    have hvalue : (arrived ++ bytes).take object.length = object := by
      have hwhole := List.prefix_append object following
      have hle := List.prefix_of_prefix_length_le hwhole hinitial (by omega)
      exact (List.prefix_iff_eq_take.mp hle).symm
    have hnothing : ¬(fresh.length = 0 ∧ bytes = []) := by omega
    have hne : object ≠ [] := List.length_pos_iff.mp hpos
    rw [decide_eq_false hnothing] at hmissed
    rw [hfresh, List.drop_zero, hvalue] at hread
    refine ⟨true, object, main', buffer', ?_, ?_⟩
    · simp only [readTypeWithBuffer, Item.get, Reader.getBytes, hfresh, hread, ok_bind,
        Option.getD_some, hmissed, Bool.and_false, Bool.not_false]
    · rw [Item.encode, if_neg hmissing]
      refine ⟨by simp [Item.value, hne], rfl, ?_⟩
      rw [hunderway'.supplying.pendingInput_eq, hfresh, Nat.zero_add]

/-- The partial length read from an incomplete prefix is not larger than the length. -/
theorem partialSize_le (size : Nat) (hsize : size < 2 ^ 64) {front : List UInt8}
    (hfront : front <+: leBytes 8 size) :
    leValue (overwrite (leBytes 8 0) 0 front) ≤ size := by
  obtain ⟨back, hback⟩ := hfront
  have hlength : front.length ≤ 8 := by
    have hsum := congrArg List.length hback
    rw [List.length_append, leBytes_length] at hsum
    omega
  have hvalue : leValue (leBytes 8 size) = size := leValue_leBytes (by omega)
  rw [← hback, leValue_append] at hvalue
  rw [overwrite_eq (by rw [leBytes_length]; omega), leBytes_zero, List.take_zero, List.nil_append,
    List.drop_replicate, leValue_append, leValue_replicate_zero]
  omega

theorem Underway.noLastMismatch {position : Nat}
    (hunderway : Underway main buffer arrived position bytes) :
    main.lastDidNotReadWholeSize = false := by
  obtain ⟨_, _, _, _, _, hmismatch⟩ := hunderway.supplying
  exact hmismatch

/-- The length is incomplete, and reading that many bytes obtains nothing. -/
theorem attempts_noLength {str : List UInt8} {hsize : 8 + str.length < 2 ^ 63}
    (hunderway : Underway main buffer arrived 0 bytes)
    (hinitial : arrived ++ bytes <+: Ty.encodeString str ++ following)
    (hnoLength : (arrived ++ bytes).length < 8) (depth : Nat) :
    Attempts (depth + 1) (.string str hsize) main buffer (arrived ++ bytes) := by
  have hencode := Ty.encodeString_length str
  have hlengthPrefix : leBytes 8 str.length <+: Ty.encodeString str ++ following :=
    (List.prefix_append _ str).trans (List.prefix_append _ following)
  have hpartial := partialSize_le str.length (by omega)
    (List.prefix_of_prefix_length_le hinitial hlengthPrefix (by rw [leBytes_length]; omega))
  obtain ⟨main₁, buffer₁, hread₁, hexhausted₁⟩ := readInto_exhausted hunderway (Nat.zero_le _)
    (leBytes 8 0) (by rw [leBytes_length]; omega) (by rw [leBytes_length]; omega) depth
  obtain ⟨dest₂, main₂, buffer₂, hread₂, hexhausted⟩ := readInto_dry hexhausted₁ (by omega)
    (show leValue (overwrite (leBytes 8 0) 0 (arrived ++ bytes)) < 2 ^ 63 by omega) depth
    (Reader.resize [] (leValue (overwrite (leBytes 8 0) 0 (arrived ++ bytes))))
  have hflag : main₁.lastDidNotReadWholeSize = false := by
    obtain ⟨_, _, _, _, _, hmismatch⟩ := hexhausted₁.supplying
    exact hmismatch
  have hgetSize : Reader.getSize (depth + 1) ([] : List UInt8).length ⟨main, some buffer⟩ =
      .ok (leValue (overwrite (leBytes 8 0) 0 (arrived ++ bytes)), ⟨main₁, some buffer₁⟩) := by
    simp only [Reader.getSize, Reader.getBytes, List.length_nil, hread₁, ok_bind, List.drop_zero]
  have hstring := Reader.deserializeString_sized _ hgetSize hflag (by omega)
  refine ⟨false, dest₂, main₂, buffer₂, ?_, ?_⟩
  · simp only [readTypeWithBuffer, Item.get, hstring, hread₂, ok_bind, Option.getD_some,
      hexhausted.missed, Bool.not_true]
  · rw [Item.encode, hencode, if_pos (Nat.lt_of_lt_of_le hnoLength (Nat.le_add_right 8 _))]
    exact ⟨rfl, hexhausted⟩

/-- The length has arrived, and the characters come next. -/
theorem stringSize_arrived {str : List UInt8} (hsize : 8 + str.length < 2 ^ 63)
    (hunderway : Underway main buffer arrived 0 bytes) (harrived : arrived.length < 8 + str.length)
    (hinitial : arrived ++ bytes <+: Ty.encodeString str ++ following)
    (hlength : 8 ≤ (arrived ++ bytes).length) (depth : Nat) :
    ∃ main₁ buffer₁ content rest, Reader.getSize (depth + 1) 0 ⟨main, some buffer⟩ =
        .ok (str.length, ⟨main₁, some buffer₁⟩) ∧
      Underway main₁ buffer₁ content 8 rest ∧ content ++ rest = arrived ++ bytes ∧
      content.length = max 8 arrived.length := by
  have hlengthPrefix : leBytes 8 str.length <+: Ty.encodeString str ++ following :=
    (List.prefix_append _ str).trans (List.prefix_append _ following)
  have htake : (arrived ++ bytes).take 8 = leBytes 8 str.length := by
    have hle := List.prefix_of_prefix_length_le hlengthPrefix hinitial
      (by rw [leBytes_length]; omega)
    rw [List.prefix_iff_eq_take.mp hle, leBytes_length]
  exact getSize_arrived hunderway (by omega) htake hlength (by omega) depth 0

/-- The length is there, and a part of the characters. -/
theorem attempts_partial {str : List UInt8} {hsize : 8 + str.length < 2 ^ 63}
    (hunderway : Underway main buffer arrived 0 bytes) (harrived : arrived.length < 8 + str.length)
    (hinitial : arrived ++ bytes <+: Ty.encodeString str ++ following)
    (hlength : 8 ≤ (arrived ++ bytes).length)
    (hmissing : (arrived ++ bytes).length < 8 + str.length) (depth : Nat) :
    Attempts (depth + 1) (.string str hsize) main buffer (arrived ++ bytes) := by
  obtain ⟨main₁, buffer₁, content, rest, hread₁, hunderway₁, htotal, hcontent⟩ :=
    stringSize_arrived hsize hunderway harrived hinitial hlength depth
  have hflag := hunderway₁.noLastMismatch
  have hresize : (Reader.resize [] str.length).length = str.length := by
    simp [Reader.resize]
  obtain ⟨main₂, buffer₂, hread₂, hexhausted⟩ := readInto_exhausted hunderway₁ (by omega)
    (Reader.resize [] str.length) (by rw [htotal]; omega) (by omega) depth
  rw [htotal] at hread₂ hexhausted
  rw [hresize] at hread₂
  have hstring := Reader.deserializeString_sized [] hread₁ hflag (by omega)
  refine ⟨false, overwrite (Reader.resize [] str.length) 0 ((arrived ++ bytes).drop 8), main₂,
    buffer₂, ?_, ?_⟩
  · simp only [readTypeWithBuffer, Item.get, hstring, hread₂, ok_bind, Option.getD_some,
      hexhausted.missed, Bool.not_true]
  · rw [Item.encode, Ty.encodeString_length, if_pos hmissing]
    exact ⟨rfl, hexhausted⟩

/-- This call completes the string. -/
theorem attempts_whole {str : List UInt8} {hsize : 8 + str.length < 2 ^ 63}
    (hunderway : Underway main buffer arrived 0 bytes) (harrived : arrived.length < 8 + str.length)
    (hinitial : arrived ++ bytes <+: Ty.encodeString str ++ following)
    (hwhole : 8 + str.length ≤ (arrived ++ bytes).length) (depth : Nat) :
    Attempts (depth + 1) (.string str hsize) main buffer (arrived ++ bytes) := by
  have hencode := Ty.encodeString_length str
  obtain ⟨main₁, buffer₁, content, rest, hread₁, hunderway₁, htotal, hcontent⟩ :=
    stringSize_arrived hsize hunderway harrived hinitial (by omega) depth
  have hflag := hunderway₁.noLastMismatch
  have hresize : (Reader.resize [] str.length).length = str.length := by
    simp [Reader.resize]
  obtain ⟨main₂, buffer₂, hread₂, hunderway₂, hbufferMissed, hmainMissed⟩ :=
    readInto_completed hunderway₁ (by omega) (Reader.resize [] str.length) (by omega)
      (by omega) (by rw [htotal]; omega) (by omega) depth
  have hbody : ((arrived ++ bytes).drop 8).take str.length = str := by
    have hle := List.prefix_of_prefix_length_le (List.prefix_append _ following) hinitial
      (by omega)
    have htake := List.prefix_iff_eq_take.mp hle
    rw [hencode] at htake
    rw [List.take_drop, ← htake, Ty.encodeString, List.drop_append, leBytes_length,
      List.drop_eq_nil_of_le (by rw [leBytes_length]), List.nil_append]
    rfl
  -- the last read of an empty string asks for nothing, which a dry stream reports as missed
  have hnothing : (str.length = 0 ∧ rest = []) ↔
      (str = [] ∧ (arrived ++ bytes).length = 8 + str.length) := by
    rw [← htotal, List.length_append, List.length_eq_zero_iff]
    constructor
    · rintro ⟨hstr, hrest⟩
      subst hstr hrest
      simp at harrived hcontent ⊢
      omega
    · rintro ⟨hstr, hsum⟩
      have hzero := List.length_eq_zero_iff.mpr hstr
      exact ⟨hstr, List.length_eq_zero_iff.mp (by omega)⟩
  rw [hresize] at hread₂ hmainMissed
  rw [htotal, hbody] at hread₂
  rw [hresize, htotal] at hunderway₂
  have hstring := Reader.deserializeString_sized [] hread₁ hflag (by omega)
  refine ⟨!decide (str = [] ∧ (arrived ++ bytes).length = 8 + str.length), str, main₂,
    buffer₂, ?_, ?_⟩
  · simp only [readTypeWithBuffer, Item.get, hstring, hread₂, ok_bind, Option.getD_some,
      hbufferMissed, hmainMissed, Bool.true_and, hnothing]
  · rw [Item.encode, hencode, if_neg (Nat.not_lt.mpr hwhole)]
    exact ⟨rfl, rfl, hunderway₂.supplying.pendingInput_eq⟩

theorem attempts_string {str : List UInt8} {hsize : 8 + str.length < 2 ^ 63}
    (hunderway : Underway main buffer arrived 0 bytes) (harrived : arrived.length < 8 + str.length)
    (hinitial : arrived ++ bytes <+: Ty.encodeString str ++ following) (depth : Nat) :
    Attempts (depth + 1) (.string str hsize) main buffer (arrived ++ bytes) := by
  by_cases hnoLength : (arrived ++ bytes).length < 8
  · exact attempts_noLength hunderway hinitial hnoLength depth
  · by_cases hmissing : (arrived ++ bytes).length < 8 + str.length
    · exact attempts_partial hunderway harrived hinitial (by omega) hmissing depth
    · exact attempts_whole hunderway harrived hinitial (by omega) depth

/-! ## Runs of attempts -/

/-- After a false result the caller's rewinding prepares the next attempt. -/
theorem Exhausted.rewind {content : List UInt8} (hexhausted : Exhausted main buffer content)
    (more : List UInt8) :
    Underway (main.clearRead.arrive more) (buffer.setReadPosition 0).clearRead content 0 more := by
  constructor
  · obtain ⟨io, hreplaying, hgood⟩ := hexhausted.holding
    obtain ⟨io', hreplaying', _⟩ := hreplaying.setReadPosition hgood (Nat.zero_le _) (by omega)
    exact ⟨io'.clear, hreplaying'.clearRead, IOStream.good_clear io'⟩
  · exact hexhausted.supplying.clearRead.arrive more

/-- Attempts that are right one by one are right in a run, as long as the call
that completes an empty value is not left without input. -/
theorem resumes_iff_of_attempts {depth : Nat} (item : Item)
    (hattempts : ∀ (main : Serial β) (buffer : Serial Stringbuf) (arrived bytes : List UInt8),
      Underway main buffer arrived 0 bytes → arrived.length < item.encode.length →
      arrived ++ bytes <+: item.encode ++ following →
      Attempts depth item main buffer (arrived ++ bytes))
    (arrivals : List (List UInt8)) (main : Serial β) (buffer : Serial Stringbuf)
    {arrived : List UInt8}
    (hunderway : ∀ bytes, Underway (main.arrive bytes) buffer arrived 0 bytes)
    (harrived : arrived.length < item.encode.length)
    (hinitial : arrived ++ arrivals.flatten <+: item.encode ++ following) :
    Resumes depth item arrived arrivals main buffer ↔
      (item.value = [] → firstComplete item.encode.length arrived.length arrivals ≠
        some item.encode.length) := by
  induction arrivals generalizing main buffer arrived with
  | nil => simp [Resumes, firstComplete]
  | cons bytes rest ih =>
      rw [List.flatten_cons, ← List.append_assoc] at hinitial
      obtain ⟨done, val, main', buffer', hread, hspec⟩ := hattempts _ buffer arrived bytes
        (hunderway bytes) harrived ((List.prefix_append _ _).trans hinitial)
      rw [Resumes, firstComplete]
      rw [← List.length_append]
      by_cases hmissing : (arrived ++ bytes).length < item.encode.length
      · -- not complete yet: the caller rewinds, and the rest of the run starts from there
        rw [if_pos hmissing] at hspec ⊢
        obtain ⟨hdone, hexhausted⟩ := hspec
        rw [← ih main'.clearRead (buffer'.setReadPosition 0).clearRead
          hexhausted.rewind hmissing hinitial]
        constructor
        · rintro ⟨_, _, _, _, hread', hrest⟩
          rw [hread] at hread'
          injection hread' with hresult
          simp only [Prod.mk.injEq] at hresult
          obtain ⟨_, _, rfl, rfl⟩ := hresult
          exact (if_pos hmissing ▸ hrest).2
        · intro hrest
          exact ⟨done, val, main', buffer', hread, by rw [if_pos hmissing]; exact ⟨hdone, hrest⟩⟩
      · rw [if_neg hmissing] at hspec ⊢
        obtain ⟨hdone, hval, hpending⟩ := hspec
        constructor
        · rintro ⟨_, _, _, _, hread', hrest⟩ hempty hexact
          rw [hread] at hread'
          injection hread' with hresult
          simp only [Prod.mk.injEq] at hresult
          obtain ⟨rfl, _⟩ := hresult
          rw [if_neg hmissing, hdone, Option.some.inj hexact] at hrest
          simp [hempty] at hrest
        · intro hresumable
          have hsome : ¬(item.value = [] ∧ (arrived ++ bytes).length = item.encode.length) := by
            rintro ⟨hempty, hexact⟩
            exact hresumable hempty (congrArg some hexact)
          refine ⟨done, val, main', buffer', hread, ?_⟩
          rw [if_neg hmissing]
          exact ⟨by rw [hdone, decide_eq_false hsome]; rfl, hval, hpending⟩

/-- A boolean is read from the main stream directly, and the call succeeds. -/
theorem attempt_bool (value : Bool) (following : List UInt8)
    (hsupplying : Supplying main true bytes)
    (hfresh : buffer.missedBytes = false) (depth : Nat) :
    ∃ val main', readTypeWithBuffer ((Item.bool value).get (depth + 2)) main buffer =
        .ok (true, val, main', buffer) ∧
      (bytes ≠ [] → bytes <+: Ty.encodeBool value ++ following →
        val = Ty.encodeBool value ∧ pendingInput main' = bytes.drop 1) := by
  obtain ⟨io, hmode, hgood, hpending, hoffset, _⟩ := hsupplying
  have hget : Streambuf.sgetn io.rdbuf ((1 - 0 : Nat) : Int) =
      (bytes.take 1, (Streambuf.sgetn io.rdbuf ((1 - 0 : Nat) : Int)).2) :=
    Prod.ext (hpending ▸ CharSource.get_one io.rdbuf) rfl
  have hread := readBytes_good hmode hgood hoffset (Nat.zero_le 1) (by omega) hget
    (by rw [List.length_take]; omega) depth [main.currentReadByte]
  -- a boolean never comes from the buffer: `readByte` is called on the main stream
  refine ⟨_, _, by
    simp only [readTypeWithBuffer, Item.get, Reader.getBool, hmode.plain, Bool.false_eq_true,
      if_false, readByte, false_and, hread, ok_bind, Option.getD_some, hfresh, Bool.false_and,
      Bool.not_false]
    rfl, ?_⟩
  intro hne hinitial
  cases bytes with
  | nil => contradiction
  | cons byte rest =>
      have hbyte : byte = UInt8.ofNat value.toNat := by
        rw [Ty.encodeBool, List.singleton_append, List.cons_prefix_cons] at hinitial
        exact hinitial.1
      have hdest : overwrite [main.currentReadByte] 0 [byte] = [byte] := overwrite_all (by rfl)
      have hvalue : (UInt8.ofNat value.toNat != 0) = value := by cases value <;> rfl
      have hrest : CharSource.pending
          (Streambuf.sgetn io.rdbuf ((1 - 0 : Nat) : Int)).2 = (byte :: rest).drop 1 := by
        rw [← hpending]
        exact CharSource.pending_one io.rdbuf
      constructor
      · simp only [List.take_succ_cons, List.take_zero, hdest, refilled, List.headD_cons]
        rw [hbyte, hvalue]
      · rw [← hrest]
        simp only [pendingInput, refilled, received, pushReadBytes, noteAvailability,
          IOStream.rdbuf_afterRead]

/-- The first attempt starts with an empty buffer. -/
theorem underway_start (input : β) (hinput : CharSource.pending input = [])
    (bytes : List UInt8) :
    Underway ((ofStream { rdbuf := input } false : Serial β).arrive bytes)
      (ofStream { rdbuf := Stringbuf.ofString [] } false) [] 0 bytes := by
  constructor
  · exact ⟨{ rdbuf := Stringbuf.ofString [] }, ⟨streamMode_ofStream _, rfl, rfl, rfl, rfl, rfl,
      rfl, rfl⟩, rfl⟩
  · have hsupplying : Supplying (ofStream { rdbuf := input } false : Serial β) true [] :=
      ⟨{ rdbuf := input }, streamMode_ofStream _, rfl, hinput, rfl, rfl⟩
    exact hsupplying.arrive bytes

/-- **Resumable decoding.**  The main stream carries the encoding of an item
and whatever follows it, and `arrivals` are the pieces in which a beginning of
that arrives.  The caller's protocol works, whatever the pieces are, if and only
if a boolean has arrived before the first call and the call that completes the
empty string finds more input behind it. -/
theorem readTypeWithBuffer_resumes_iff (item : Item) (arrivals : List (List UInt8))
    (following : List UInt8) (harrivals : arrivals.flatten <+: item.encode ++ following)
    (input : β) (hinput : CharSource.pending input = []) (depth : Nat) :
    Resumes (depth + 2) item [] arrivals (ofStream { rdbuf := input } false)
        (ofStream { rdbuf := Stringbuf.ofString [] } false) ↔
      item.Resumable arrivals := by
  have hunderway := underway_start input hinput
  cases item with
  | bool value =>
      cases arrivals with
      | nil => simp [Resumes, Item.Resumable]
      | cons bytes rest =>
          rw [List.flatten_cons] at harrivals
          have hfresh : (ofStream { rdbuf := Stringbuf.ofString [] } false :
              Serial Stringbuf).missedBytes = false := rfl
          obtain ⟨val, main', hread, hval⟩ :=
            attempt_bool value following (hunderway bytes).supplying hfresh depth
          have hencode : (Item.bool value).encode.length = 1 := rfl
          rw [Resumes, Item.Resumable, List.nil_append, hencode, hread, List.head?_cons]
          -- with nothing arrived the call succeeds all the same
          by_cases hempty : bytes = []
          · subst hempty
            simp
          · have hpos := List.length_pos_iff.mpr hempty
            obtain ⟨hvalue, hpending⟩ := hval hempty ((List.prefix_append _ _).trans harrivals)
            refine iff_of_true ⟨true, val, main', _, rfl, ?_⟩ (by simp [hempty])
            rw [if_neg (show ¬bytes.length < 1 by omega)]
            exact ⟨rfl, hvalue, hpending⟩
  | object object fresh hpos hfresh hsize =>
      refine (resumes_iff_of_attempts (.object object fresh hpos hfresh hsize) ?_ arrivals _ _
        hunderway hpos harrivals).trans ?_
      · intro main buffer arrived bytes hready hmissing hinitial
        exact attempts_object hready hmissing hinitial (depth + 1)
      · simp [Item.Resumable, Item.value, List.length_pos_iff.mp hpos]
  | string str hsize =>
      have hencode : (Item.string str hsize).encode.length = 8 + str.length :=
        Ty.encodeString_length str
      refine (resumes_iff_of_attempts (.string str hsize) ?_ arrivals _ _ hunderway ?_
        harrivals).trans ?_
      · intro main buffer arrived bytes hready hmissing hinitial
        exact attempts_string hready (hencode ▸ hmissing) hinitial (depth + 1)
      · rw [hencode, List.length_nil]
        omega
      -- `Resumable` asks for more input only where the characters are none
      rw [Item.Resumable, Item.value, hencode]
      constructor
      · intro hresumable hempty
        have hne := hresumable hempty
        rwa [hempty] at hne
      · intro hresumable hempty
        rw [hempty]
        exact hresumable hempty

end Attempts

/-- A string of two bytes whose encoding arrives in three pieces. -/
theorem readTypeWithBuffer_resumes_iff_pieces :
    Resumes 2 (.string [104, 105] (by decide)) [] [[2], [0, 0, 0, 0, 0, 0, 0, 104], [105]]
        (ofStream { rdbuf := Stringbuf.ofString [] } false)
        (ofStream { rdbuf := Stringbuf.ofString [] } false) ↔
      (Item.string [104, 105] (by decide)).Resumable
        [[2], [0, 0, 0, 0, 0, 0, 0, 104], [105]] :=
  readTypeWithBuffer_resumes_iff (.string [104, 105] (by decide))
    [[2], [0, 0, 0, 0, 0, 0, 0, 104], [105]] [9] ⟨[9], by decide⟩ (Stringbuf.ofString []) rfl 0

/-- The encoding of the empty string arrives in one piece, and the call that
should return true returns false. -/
theorem emptyString_not_resumed :
    ¬Resumes 2 (.string [] (by decide)) [] [[0, 0, 0, 0, 0, 0, 0, 0]]
        (ofStream { rdbuf := Stringbuf.ofString [] } false)
        (ofStream { rdbuf := Stringbuf.ofString [] } false) := by
  rintro ⟨done, val, main', buffer', hread, hresult⟩
  have hready : Underway
      ((ofStream { rdbuf := Stringbuf.ofString [] } false : Serial Stringbuf).arrive
        [0, 0, 0, 0, 0, 0, 0, 0])
      (ofStream { rdbuf := Stringbuf.ofString [] } false) [] 0 [0, 0, 0, 0, 0, 0, 0, 0] :=
    underway_start (Stringbuf.ofString []) rfl _
  have hinitial : [] ++ [0, 0, 0, 0, 0, 0, 0, 0] <+: Ty.encodeString [] ++ [] := by decide
  have hattempts : Attempts 2 (.string [] (by decide)) _ _ _ :=
    attempts_string hready (by decide) hinitial 1
  obtain ⟨_, _, _, _, hread', hspec⟩ := hattempts
  rw [hread] at hread'
  injection hread' with hpair
  injection hpair with hdone
  rw [if_neg (by decide)] at hresult hspec
  rw [hdone, hspec.1] at hresult
  exact absurd hresult.1 (by decide)

end Iostreams
