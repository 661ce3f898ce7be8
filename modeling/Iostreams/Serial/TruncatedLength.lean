import Iostreams.Serial.ShortReads

/-!
# Strings whose length is cut off

`deserialize` reads the length of a string over the current one and leaves early if
`last_did_not_read_whole_size()`.  That function returns the flag of the last
`did_not_read_whole_size()` and not of the last read, so that after successful reads the early exit
is not taken: the string is resized to whatever the length has become.  The target is untouched
exactly if the bytes that were there repeat the low-order bytes of its size.
-/

namespace Iostreams

open Foundation

namespace Reader

variable {β γ : Type} [Streambuf β] [Streambuf γ]

/-- `deserialize(Serial&, std::filesystem::path&)`; a path is its native string. -/
def deserializePath (depth : Nat) (path : List UInt8) (r : Reader β γ) :
    Except Halt (List UInt8 × Reader β γ) := do
  let (str, r) ← r.deserializeString depth path
  if r.serial.lastDidNotReadWholeSize then .ok (path, r) else .ok (str, r)

end Reader

namespace Serial

variable {β : Type} [Streambuf β]

/-- The states after reads on a good stream which all delivered what was asked for. -/
inductive SuccessfulReads (depth : Nat) : Serial β → Prop where
  | start (io : IOStream β) (hgood : io.good = true) (writable : Bool) :
      SuccessfulReads depth
        { stream := some io, writeStreamPointer := writable, readStreamPointer := true }
  | bytes {s s' : Serial β} {dest dest' : List UInt8} {size : Nat} {count : Int}
      (hreads : SuccessfulReads depth s) (hsize : size < 2 ^ 63) (hfull : s.delivered size = size)
      (hread : readBytes depth s dest size = .ok (count, dest', s')) : SuccessfulReads depth s'
  | byte {s s' : Serial β} {value : UInt8} (hreads : SuccessfulReads depth s)
      (hfull : s.delivered 1 = 1) (hread : readByte depth s = .ok (value, s')) :
      SuccessfulReads depth s'
  | query {s : Serial β} (hreads : SuccessfulReads depth s) :
      SuccessfulReads depth s.didNotReadWholeSize.2

/-- What is left of a length. -/
def lengthBytes (s : Serial β) : List UInt8 :=
  match s.readStream with
  | some io => (io.read 8).1
  | none => []

/-- Reading into `target` returns, leaves it alone, and the short read is visible. -/
def LeavesUntouched (get : List UInt8 → Reader β β → Except Halt (List UInt8 × Reader β β))
    (s : Serial β) (target : List UInt8) : Prop :=
  ∃ r, get target { serial := s } = .ok (target, r) ∧ r.serial.didNotReadWholeSize.1 = true

/-- A good stream, on which no read was short. -/
structure Unbroken (s : Serial β) (io : IOStream β) : Prop where
  mode : s.StreamMode io
  good : io.good = true
  noOffset : s.nextReadOffset = 0
  noMismatch : s.sizeMismatchFlag = false
  noLastMismatch : s.lastSizeMismatchFlag = false

theorem Unbroken.delivered_eq {s : Serial β} {io : IOStream β} (hunbroken : s.Unbroken io)
    (size : Nat) : s.delivered size = (Streambuf.sgetn io.rdbuf (toInt64 size)).1.length := by
  cases hget : Streambuf.sgetn io.rdbuf (toInt64 size) with
  | mk bytes rdbuf =>
      rw [delivered, if_neg (by simp [hunbroken.mode.notBuffer]), hunbroken.mode.readStream]
      simp only
      rw [IOStream.read_of_good hunbroken.good hget]

theorem Unbroken.lengthBytes_eq {s : Serial β} {io : IOStream β} (hunbroken : s.Unbroken io) :
    s.lengthBytes = (Streambuf.sgetn io.rdbuf 8).1 := by
  cases hget : Streambuf.sgetn io.rdbuf 8 with
  | mk bytes rdbuf =>
      rw [lengthBytes, hunbroken.mode.readStream]
      simp only
      rw [IOStream.read_of_good hunbroken.good hget]

theorem Unbroken.readBytes {s s' : Serial β} {io : IOStream β} (hunbroken : s.Unbroken io)
    {depth size : Nat} {dest dest' : List UInt8} {count : Int} (hsize : size < 2 ^ 63)
    (hfull : s.delivered size = size)
    (hread : readBytes depth s dest size = .ok (count, dest', s')) :
    ∃ io', s'.Unbroken io' := by
  cases depth with
  | zero => cases hread
  | succ depth =>
      rw [hunbroken.delivered_eq, toInt64_natCast hsize] at hfull
      cases hget : Streambuf.sgetn io.rdbuf size with
      | mk bytes rdbuf =>
          rw [hget] at hfull
          simp only at hfull
          have hbytes := readBytes_good hunbroken.mode hunbroken.good hunbroken.noOffset
            (Nat.zero_le size) hsize hget (by omega) depth dest
          rw [Nat.sub_zero, hread] at hbytes
          rw [← state_of_ok hbytes.symm]
          refine ⟨_, ⟨hunbroken.mode.received _ _ _ _, ?_, rfl, ?_, hunbroken.noLastMismatch⟩⟩
          · rw [IOStream.good_afterRead hunbroken.good, hfull]
            simp
          · simp [received, noteAvailability, pushReadBytes, hunbroken.noMismatch, hfull]

theorem Unbroken.readByte {s s' : Serial β} {io : IOStream β} (hunbroken : s.Unbroken io)
    {depth : Nat} {value : UInt8} (hfull : s.delivered 1 = 1)
    (hread : readByte depth s = .ok (value, s')) : ∃ io', s'.Unbroken io' := by
  cases depth with
  | zero => cases hread
  | succ depth =>
      rw [Serial.readByte, if_neg (by simp [hunbroken.mode.plain])] at hread
      cases hbytes : Serial.readBytes depth s [s.currentReadByte] 1 with
      | error halt =>
          rw [hbytes] at hread
          cases hread
      | ok result =>
          obtain ⟨count, dest, s₁⟩ := result
          obtain ⟨io', hunbroken'⟩ := hunbroken.readBytes (by omega) hfull hbytes
          obtain ⟨hcount, hbuffer, hpassthrough, hplain, hconnected, hstream⟩ := hunbroken'.mode
          rw [hbytes] at hread
          rw [← (Prod.mk.inj (Except.ok.inj hread)).2]
          exact ⟨io', ⟨hcount, hbuffer, hpassthrough, hplain, hconnected, hstream⟩,
            hunbroken'.good, hunbroken'.noOffset, hunbroken'.noMismatch,
            hunbroken'.noLastMismatch⟩

/-- Successful reads leave the stream good and set no flag. -/
theorem SuccessfulReads.unbroken {depth : Nat} {s : Serial β} (hreads : SuccessfulReads depth s) :
    ∃ io, s.Unbroken io := by
  induction hreads with
  | start io hgood writable => exact ⟨io, ⟨rfl, rfl, rfl, rfl, rfl, rfl⟩, hgood, rfl, rfl, rfl⟩
  | bytes hreads hsize hfull hread ih =>
      obtain ⟨io, hunbroken⟩ := ih
      exact hunbroken.readBytes hsize hfull hread
  | byte hreads hfull hread ih =>
      obtain ⟨io, hunbroken⟩ := ih
      exact hunbroken.readByte hfull hread
  | query hreads ih =>
      obtain ⟨io, hunbroken⟩ := ih
      obtain ⟨hcount, hbuffer, hpassthrough, hplain, hconnected, hstream⟩ := hunbroken.mode
      exact ⟨io, ⟨hcount, hbuffer, hpassthrough, hplain, hconnected, hstream⟩, hunbroken.good,
        hunbroken.noOffset, rfl, hunbroken.noMismatch⟩

/-! ## The truncated length -/

/-- The size the string is given: what is left of the length, over the current one. -/
def partialSize (s : Serial β) (str : List UInt8) : Nat :=
  leValue (overwrite (leBytes 8 str.length) 0 s.lengthBytes)

/-- The high-order byte stays, so that `resize` takes the size. -/
theorem partialSize_lt {s : Serial β} (hshort : s.lengthBytes.length < 8) (str : Object) :
    s.partialSize str.val < 2 ^ 63 := by
  have hstr := str.property
  have hlength := leBytes_length 8 str.val.length
  have hkept : (leBytes 8 str.val.length).take s.lengthBytes.length ++
      (leBytes 8 str.val.length).drop s.lengthBytes.length = leBytes 8 str.val.length :=
    List.take_append_drop _ _
  have hvalue := congrArg leValue hkept
  rw [leValue_append, leValue_leBytes (by omega), List.length_take, hlength,
    Nat.min_eq_left (by omega)] at hvalue
  rw [partialSize, overwrite_eq (by omega), List.take_zero, List.nil_append, Nat.zero_add,
    leValue_append]
  -- the bytes that stay are worth a multiple of a divisor of the bound
  have hdvd : 256 ^ s.lengthBytes.length ∣ 2 ^ 63 :=
    Nat.pow_mul 2 8 s.lengthBytes.length ▸ Nat.pow_dvd_pow 2 (by omega)
  obtain ⟨bound, hbound⟩ := hdvd
  have hfront := leValue_lt s.lengthBytes
  have hback : leValue ((leBytes 8 str.val.length).drop s.lengthBytes.length) < bound :=
    Nat.lt_of_mul_lt_mul_left (a := 256 ^ s.lengthBytes.length) (by omega)
  have hnext := Nat.mul_le_mul_left (256 ^ s.lengthBytes.length) (Nat.succ_le_of_lt hback)
  rw [Nat.mul_succ] at hnext
  omega

/-- A short read fails the stream and sets one of the two flags. -/
theorem Unbroken.readBytes_short {s : Serial β} {io : IOStream β} (hunbroken : s.Unbroken io)
    (hshort : s.lengthBytes.length < 8) (depth : Nat) (dest : List UInt8) :
    ∃ count s' io', Serial.readBytes (depth + 1) s dest 8 =
        .ok (count, overwrite dest 0 s.lengthBytes, s') ∧
      s'.StreamMode io' ∧ io'.good = false ∧ s'.lastSizeMismatchFlag = false ∧
      s'.sizeMismatchFlag = true := by
  rw [hunbroken.lengthBytes_eq] at hshort ⊢
  cases hget : Streambuf.sgetn io.rdbuf 8 with
  | mk bytes rdbuf =>
      rw [hget] at hshort
      simp only at hshort
      have hoffset : s.nextReadOffset = (0 : Nat) := hunbroken.noOffset
      have hread := readBytes_good hunbroken.mode hunbroken.good hoffset (Nat.zero_le 8)
        (by omega) hget (by omega) depth dest
      refine ⟨_, _, _, hread, hunbroken.mode.received _ _ _ _, ?_, hunbroken.noLastMismatch, ?_⟩
      · rw [IOStream.good_afterRead hunbroken.good]
        exact decide_eq_false (by omega)
      · simp [received, noteAvailability, pushReadBytes, Nat.ne_of_lt hshort]

/-- The early exit is not taken, and the read of the characters delivers nothing. -/
theorem Unbroken.deserializeString {s : Serial β} {io : IOStream β} (hunbroken : s.Unbroken io)
    (hshort : s.lengthBytes.length < 8) (str : Object) (depth : Nat) :
    ∃ r : Reader β β, Reader.deserializeString (depth + 1) str.val { serial := s } =
        .ok (Reader.resize str.val (s.partialSize str.val), r) ∧
      r.serial.lastSizeMismatchFlag = false ∧ r.serial.didNotReadWholeSize.1 = true := by
  obtain ⟨count, s₁, io₁, hlength, hmode, hfailed, hlast, hflag⟩ :=
    hunbroken.readBytes_short hshort depth (leBytes 8 str.val.length)
  have hsize : Reader.getSize (γ := β) (depth + 1) str.val.length { serial := s } =
      .ok (s.partialSize str.val, { serial := s₁ }) := by
    simp only [Reader.getSize, Reader.getBytes, Reader.readInto, leBytes_length, hlength, ok_bind]
    rfl
  have hcharacters := readBytes_not_good hmode hfailed depth
    (Reader.resize str.val (s.partialSize str.val)) (s.partialSize str.val)
  let s₂ := s₁.received { io₁ with gcount := 0, failbit := true } [] 0
    (toSizeT (s.partialSize str.val - s₁.nextReadOffset))
  refine ⟨{ serial := s₂ }, ?_, hlast, ?_⟩
  · rw [Reader.deserializeString_sized str hsize hlast (partialSize_lt hshort str)]
    simp only [Reader.readInto, hcharacters, ok_bind]
    rfl
  · simp [s₂, didNotReadWholeSize, received, noteAvailability, pushReadBytes, hflag]

theorem partialSize_eq_iff {s : Serial β} (hshort : s.lengthBytes.length < 8) (str : Object) :
    s.partialSize str.val = str.val.length ↔
      s.lengthBytes = (leBytes 8 str.val.length).take s.lengthBytes.length := by
  have hlt := str.property
  have hlength := leBytes_length 8 str.val.length
  have hover : (overwrite (leBytes 8 str.val.length) 0 s.lengthBytes).length = 8 := by
    rw [overwrite_length, hlength]
  have hvalue := @leValue_eq_iff (overwrite (leBytes 8 str.val.length) 0 s.lengthBytes)
    str.val.length (by rw [hover]; omega)
  rw [hover, overwrite_eq (by omega), List.take_zero, List.nil_append, Nat.zero_add] at hvalue
  have hparts := List.take_append_drop s.lengthBytes.length (leBytes 8 str.val.length)
  rw [partialSize, overwrite_eq (by omega), List.take_zero, List.nil_append, Nat.zero_add, hvalue]
  constructor
  · intro hsame
    exact List.append_cancel_right (hsame.trans hparts.symm)
  · intro hprefix
    exact (congrArg (· ++ (leBytes 8 str.val.length).drop s.lengthBytes.length) hprefix).trans
      hparts

theorem resize_eq_iff (str : List UInt8) (size : Nat) :
    Reader.resize str size = str ↔ size = str.length := by
  constructor
  · intro hsame
    have hlength := congrArg List.length hsame
    rw [Reader.resize, List.length_append, List.length_take, List.length_replicate] at hlength
    omega
  · rintro rfl
    simp [Reader.resize]

/-- **Truncated lengths.**  After successful reads, a string and a path are left alone exactly if
the bytes that remain of the length are the first bytes of the current one. -/
theorem truncatedLength_untouched_iff (depth : Nat) {past : Nat} {s : Serial β}
    (hreads : SuccessfulReads past s) (hshort : s.lengthBytes.length < 8) (str : Object) :
    (LeavesUntouched (Reader.deserializeString (depth + 1)) s str.val ↔
        s.lengthBytes = (leBytes 8 str.val.length).take s.lengthBytes.length) ∧
      (LeavesUntouched (Reader.deserializePath (depth + 1)) s str.val ↔
        s.lengthBytes = (leBytes 8 str.val.length).take s.lengthBytes.length) := by
  obtain ⟨io, hunbroken⟩ := hreads.unbroken
  obtain ⟨r, hstring, hlast, hvisible⟩ := hunbroken.deserializeString hshort str depth
  have hpath : Reader.deserializePath (depth + 1) str.val { serial := s } =
      .ok (Reader.resize str.val (s.partialSize str.val), r) := by
    rw [Reader.deserializePath, hstring, ok_bind]
    simp only [lastDidNotReadWholeSize, hlast, Bool.false_eq_true, if_false]
  rw [← partialSize_eq_iff hshort, ← resize_eq_iff]
  constructor
  · constructor
    · rintro ⟨r', hget, -⟩
      rw [hstring] at hget
      exact (Prod.mk.inj (Except.ok.inj hget)).1
    · intro hsame
      exact ⟨r, by rw [hstring, hsame], hvisible⟩
  · constructor
    · rintro ⟨r', hget, -⟩
      rw [hpath] at hget
      exact (Prod.mk.inj (Except.ok.inj hget)).1
    · intro hsame
      exact ⟨r, by rw [hpath, hsame], hvisible⟩

/-- Nothing is left of the length. -/
theorem truncatedLength_untouched_empty :
    LeavesUntouched (Reader.deserializeString 1)
      (ofStream { rdbuf := Stringbuf.ofString [] } false) [104, 105] :=
  (@truncatedLength_untouched_iff _ _ 0 0 _ (SuccessfulReads.start _ rfl true) (by decide)
    ⟨[104, 105], by decide⟩).1.mpr (by decide)

/-- One byte is left, and the string has that size afterwards. -/
theorem not_truncatedLength_untouched :
    SuccessfulReads 0 (ofStream { rdbuf := Stringbuf.ofString [1] } false : Serial Stringbuf) ∧
      (∃ r : Reader Stringbuf Stringbuf,
        Reader.deserializeString 1 [104, 105]
          { serial := ofStream { rdbuf := Stringbuf.ofString [1] } false } = .ok ([104], r)) ∧
      ¬LeavesUntouched (Reader.deserializeString 1)
        (ofStream { rdbuf := Stringbuf.ofString [1] } false) [104, 105] := by
  refine ⟨SuccessfulReads.start _ rfl true, ⟨_, rfl⟩, ?_⟩
  rintro ⟨r, hget, -⟩
  cases hget

end Serial
end Iostreams
