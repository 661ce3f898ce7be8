import Iostreams.Serial.BlockAlignment
import Iostreams.Serial.Wire

/-!
# Bits in a buffer

The wire of a bit stream over a buffer, for a writer with so many pending bits and a
reader with so many unread bits in its current byte.  An encoding moves both, by its
length (`bufferBits_continues`).

A boolean is one bit wherever the two stand.  A string is two blocks, which are copied at
the indices: at a byte boundary they come next, and elsewhere they overtake the pending
bits of the writer (`BitsWritten.overtaken`) and the unread ones of the reader.  So a flag
and a name can be put in front of an encoding where the flag completes a byte
(`bufferBits_heads`).
-/

namespace Iostreams

open Foundation

namespace Serial

variable {β γ : Type}

/-- Bits in a buffer. -/
def bufferBits (β γ : Type) (pending unread : Fin 8) : Wire β γ Bool where
  Ready s code := s.BitWriting ∧ s.bitsWrittenWriteByte = pending ∧
    s.Room ((s.pendingBits ++ code).length / 8)
  Wrote s code s' := BitsWritten (s.withWriteBits 0 0) (s.pendingBits ++ code) s'
  Before r code := r.readBuffer.isNone ∧ BitReading r.serial ∧
    r.serial.currentBits.length = unread ∧ ∃ rest, unreadBits r.serial = code ++ rest
  Consumed r code r' := r'.readBuffer.isNone ∧ BitReading r'.serial ∧
    ∃ rest, unreadBits r.serial = code ++ rest ∧ unreadBits r'.serial = rest
  flag flag := [flag]
  string str := unpack (Ty.encodeString str)

/-! ## The writer -/

theorem BitsWritten.marker {s s' : Serial β} {bits : List Bool}
    (hwritten : BitsWritten s bits s') : s'.bitsWrittenWriteByte = bits.length % 8 := by
  obtain ⟨whole, pending, rfl, hwhole, hpending, rfl⟩ := hwritten
  rw [List.length_append]
  show pending.length = _
  omega

theorem BitsWritten.room {s s' : Serial β} {bits more : List Bool}
    (hroom : s.Room ((bits ++ more).length / 8)) (hwritten : BitsWritten s bits s') :
    s'.Room ((s'.pendingBits ++ more).length / 8) := by
  obtain ⟨whole, pending, rfl, hwhole, hpending, rfl⟩ := hwritten
  rw [pendingBits_withWriteBits _ hpending]
  refine Wrote.room ⟨_, _, rfl⟩ (hroom.mono ?_)
  rw [pack_length_of_dvd hwhole]
  simp only [List.length_append]
  omega

/-- Bits that are written behind others, from the pending ones on. -/
theorem BitsWritten.append {s s' s'' : Serial β} {bits more : List Bool}
    (hroom : s.Room ((bits ++ more).length / 8)) (hfirst : BitsWritten s bits s')
    (hsecond : BitsWritten (s'.withWriteBits 0 0) (s'.pendingBits ++ more) s'') :
    BitsWritten s (bits ++ more) s'' := by
  obtain ⟨whole, pending, rfl, hwhole, hpending, rfl⟩ := hfirst
  rw [pendingBits_withWriteBits _ hpending] at hsecond
  obtain ⟨whole', pending', hsplit, hwhole', hpending', rfl⟩ := hsecond
  refine ⟨whole ++ whole', pending', ?_, ?_, hpending', ?_⟩
  · rw [List.append_assoc, hsplit, List.append_assoc]
  · rw [List.length_append]
    exact Nat.dvd_add hwhole hwhole'
  · have hfits : s.Room ((pack whole).length + (pack whole').length) := by
      have htotal := congrArg List.length hsplit
      apply hroom.mono
      rw [pack_length_of_dvd hwhole, pack_length_of_dvd hwhole']
      simp only [List.length_append] at htotal ⊢
      omega
    rw [pack_append hwhole, ← stored_stored hfits]
    rfl

/-- A block goes ahead of fewer than eight bits. -/
theorem BitsWritten.overtaken {s s' : Serial β} {bits : List Bool} (hshort : bits.length < 8)
    (hwritten : BitsWritten s bits s') (src : List UInt8) :
    BitsWritten s (unpack src ++ bits) (s'.stored src) := by
  obtain ⟨whole, pending, rfl, hwhole, hpending, rfl⟩ := hwritten
  have hnil : whole = [] := by
    rw [List.length_append] at hshort
    exact List.length_eq_zero_iff.mp (by omega)
  subst hnil
  refine ⟨unpack src, pending, rfl, ?_, hpending, ?_⟩
  · rw [unpack_length]
    exact Nat.dvd_mul_right 8 _
  · rw [pack_unpack, pack_nil, stored_nil]
    rfl

/-- What was written can be read off the state. -/
theorem BitsWritten.unique {s s' : Serial β} {bits bits' : List Bool}
    (hroom : s.Room (bits.length / 8)) (hwritten : BitsWritten s bits s')
    (hwritten' : BitsWritten s bits' s') : bits = bits' := by
  obtain ⟨whole, pending, rfl, hwhole, hpending, rfl⟩ := hwritten
  obtain ⟨whole', pending', rfl, hwhole', hpending', hsame⟩ := hwritten'
  have hbits := congrArg Serial.pendingBits hsame
  rw [pendingBits_withWriteBits _ hpending, pendingBits_withWriteBits _ hpending'] at hbits
  have hindex : s.bufferWriteIndex + (pack whole).length =
      s.bufferWriteIndex + (pack whole').length := congrArg bufferWriteIndex hsame
  have hfits : s.Room (pack whole).length := by
    apply hroom.mono
    rw [pack_length_of_dvd hwhole, List.length_append]
    omega
  have hmemory : overwrite s.bufferPointer s.bufferWriteIndex.toNat (pack whole) =
      overwrite s.bufferPointer s.bufferWriteIndex.toNat (pack whole') :=
    congrArg bufferPointer hsame
  have hlength : (pack whole).length = (pack whole').length := by omega
  obtain ⟨hnonneg, hend⟩ := hfits
  -- the same bytes lie behind the write index
  have hpacked : pack whole = pack whole' := by
    have hleft := @slice_overwrite s.bufferPointer (pack whole) s.bufferWriteIndex.toNat (by omega)
    have hright := @slice_overwrite s.bufferPointer (pack whole') s.bufferWriteIndex.toNat
      (by omega)
    rw [← hleft, ← hright, hmemory, hlength]
  rw [hbits, ← unpack_pack_of_dvd hwhole, ← unpack_pack_of_dvd hwhole', hpacked]

/-! ## The reader -/

theorem unreadBits_length_mod {r : Serial β} (hreading : BitReading r) :
    (unreadBits r).length % 8 = r.currentBits.length := by
  have hshort := currentBits_length hreading.marker
  rw [unreadBits_eq, List.length_append, unpack_length]
  omega

/-- Behind the unread bits of the current byte lie the bytes at the read index. -/
theorem holds_of_unreadBits {r : Serial β} (hreading : BitReading r) {bytes : List UInt8}
    (hpos : 0 < bytes.length) {rest : List Bool}
    (hunread : unreadBits r = r.currentBits ++ (unpack bytes ++ rest)) :
    r.Holds bytes ∧ unreadBits (r.advanced bytes.length) = r.currentBits ++ rest := by
  have hindex := hreading.index_nonneg
  rw [unreadBits_eq, List.append_cancel_left_eq] at hunread
  have htotal := congrArg List.length hunread
  simp only [List.length_append, unpack_length, List.length_drop] at htotal
  have hparts := List.take_append_drop bytes.length (r.bufferPointer.drop r.bufferReadIndex.toNat)
  have hcount : ((r.bufferPointer.drop r.bufferReadIndex.toNat).take bytes.length).length =
      bytes.length := by
    rw [List.length_take, List.length_drop]
    omega
  rw [← hparts, unpack_append] at hunread
  obtain ⟨hfront, hback⟩ := List.append_inj hunread (by rw [unpack_length, unpack_length, hcount])
  refine ⟨⟨hindex, by omega, unpack_injective hfront⟩, ?_⟩
  have hnat : (r.bufferReadIndex + bytes.length).toNat =
      r.bufferReadIndex.toNat + bytes.length := by
    omega
  rw [← hback, List.drop_drop, unreadBits_eq]
  simp only [advanced, hnat]
  rfl

/-! ## Encodings behind each other -/

theorem bufferBits_continues {pending unread pending' unread' : Fin 8} {front : List Bool}
    (hpending : (pending' : Nat) = (pending + front.length) % 8)
    (hunread : ((unread' : Nat) + front.length) % 8 = unread) :
    (bufferBits β γ pending unread).Continues (bufferBits β γ pending' unread') front where
  ready_left := by
    rintro s back ⟨hwriting, hmarker, hroom⟩
    rw [← List.append_assoc] at hroom
    exact ⟨hwriting, hmarker, hroom.mono (length_div_le_append _ _)⟩
  ready_right := by
    rintro s back s' ⟨hwriting, hmarker, hroom⟩ hwrote
    rw [← List.append_assoc] at hroom
    refine ⟨hwrote.bitWriting (bufferMode_withWriteBits hwriting.bufferMode 0 0)
      hwriting.bitStream, ?_, hwrote.room hroom⟩
    rw [hwrote.marker, List.length_append, pendingBits_length hwriting.marker, hmarker, hpending]
  wrote_append := by
    rintro s back s' s'' ⟨-, -, hroom⟩ hfront hback
    rw [← List.append_assoc] at hroom
    have hboth := hfront.append hroom hback
    rw [List.append_assoc] at hboth
    exact hboth
  before_left := by
    rintro r back ⟨hnone, hreading, hcurrent, rest, hrest⟩
    exact ⟨hnone, hreading, hcurrent, back ++ rest, by rw [hrest, List.append_assoc]⟩
  before_right := by
    rintro r back r' ⟨-, hreading, hcurrent, rest, hrest⟩ ⟨hnone, hreading', rest', hrest', hleft⟩
    have hback : rest' = back ++ rest := by
      rw [hrest', List.append_assoc, List.append_cancel_left_eq] at hrest
      exact hrest
    refine ⟨hnone, hreading', ?_, rest, hleft.trans hback⟩
    -- the reader moves by the length of the encoding
    have hmod := unreadBits_length_mod hreading
    have hmod' := unreadBits_length_mod hreading'
    have hshort := currentBits_length hreading'.marker
    rw [hrest', List.length_append, hcurrent] at hmod
    rw [hleft] at hmod'
    omega
  consumed_append := by
    rintro r back r' r'' - ⟨-, -, rest, hrest, hleft⟩ ⟨hnone, hreading, rest', hrest', hleft'⟩
    refine ⟨hnone, hreading, rest', ?_, hleft'⟩
    rw [hrest, ← hleft, hrest', List.append_assoc]

theorem bufferBits_clear (pending unread : Fin 8) : (bufferBits β γ pending unread).Clear := by
  rintro r code ⟨-, hreading, -⟩
  exact hreading.bufferMode.noLastMismatch

/-! ## Writers and readers within a byte -/

/-- A writer at the start of a buffer, with pending bits. -/
def bitWriter (memory : List UInt8) (pending : List Bool) : Serial β :=
  (ofBuffer memory true).withWriteBits (ofBits pending) pending.length

theorem pendingBits_bitWriter (memory : List UInt8) {pending : List Bool}
    (hpending : pending.length < 8) :
    (bitWriter memory pending : Serial β).pendingBits = pending :=
  pendingBits_withWriteBits _ hpending

theorem bitWriting_bitWriter {memory : List UInt8} (hsize : memory.length < 2 ^ 63)
    {pending : List Bool} (hpending : pending.length < 8) :
    (bitWriter memory pending : Serial β).BitWriting where
  bufferMode := bufferMode_withWriteBits (bufferMode_ofBuffer hsize true) _ _
  bitStream := rfl
  marker := hpending
  accumulator := by
    rw [pendingBits_bitWriter memory hpending]
    rfl

/-- A reader with these bits before it, the first ones in its current byte. -/
def bitReader (unread : Nat) (code : List Bool) : Serial β :=
  (ofBuffer (pack (code.drop unread)) true).withReadBits
    (ofBits (List.replicate (8 - unread) false ++ code.take unread)) (8 - unread)

theorem bitReading_bitReader {code : List Bool} (hsize : code.length < 2 ^ 63) (unread : Nat) :
    BitReading (bitReader unread code : Serial β) where
  bufferMode := by
    have hlength : (pack (code.drop unread)).length < 2 ^ 63 := by
      rw [pack_length, List.length_drop]
      omega
    have hmode : (ofBuffer (pack (code.drop unread)) true : Serial β).BufferMode :=
      bufferMode_ofBuffer hlength true
    exact ⟨hmode.notCount, hmode.isBuffer, hmode.size_eq, hmode.size_lt, hmode.noMismatch,
      hmode.noLastMismatch⟩
  bitStream := rfl
  noOffset := rfl
  marker := Nat.sub_le 8 unread
  index_nonneg := Int.le_refl 0

theorem currentBits_bitReader {unread : Nat} (hunread : unread < 8) {code : List Bool}
    (hlong : unread ≤ code.length) :
    (bitReader unread code : Serial β).currentBits = code.take unread := by
  have htake : (code.take unread).length = unread := by
    rw [List.length_take]
    omega
  have hbyte : (List.replicate (8 - unread) false ++ code.take unread).length = 8 := by
    rw [List.length_append, List.length_replicate, htake]
    omega
  show (if 8 - unread = 0 ∨ 8 - unread = 8 then []
    else (byteBits (ofBits (List.replicate (8 - unread) false ++ code.take unread))).drop
      (8 - unread)) = _
  rw [byteBits_ofBits (by omega), hbyte, Nat.sub_self, List.replicate_zero, List.append_nil]
  by_cases hnone : unread = 0
  · subst hnone
    rfl
  · rw [if_neg (by omega), List.drop_left' (List.length_replicate)]

theorem unreadBits_bitReader {unread : Nat} (hunread : unread < 8) {code : List Bool}
    (hlong : unread ≤ code.length) :
    unreadBits (bitReader unread code : Serial β) =
      code ++ padding (code.length - unread) := by
  rw [unreadBits_eq, currentBits_bitReader hunread hlong]
  show code.take unread ++ unpack ((pack (code.drop unread)).drop 0) = _
  rw [List.drop_zero, unpack_pack, ← List.append_assoc, List.take_append_drop, List.length_drop]

section Transfers

variable [Streambuf β] [Streambuf γ]

/-! ## Booleans -/

omit [Streambuf γ] in
theorem bufferBits_puts_flag (pending unread : Fin 8) (depth : Nat) (flag : Bool) :
    (bufferBits β γ pending unread).Puts (putBool (depth + 4) flag) [flag] := by
  rintro s ⟨hwriting, -, hroom⟩
  exact writeOp_bitsWritten (bufferMode_withWriteBits hwriting.bufferMode 0 0)
    hwriting.bitStream (.bool flag) hroom hwriting.bitsWritten depth

omit [Streambuf γ] in
theorem getBool_unread {r : Reader β γ} (hreading : BitReading r.serial) {flag : Bool}
    {rest : List Bool} (hunread : unreadBits r.serial = flag :: rest) (depth : Nat) :
    ∃ s', Reader.getBool (depth + 2) r = .ok (flag, { r with serial := s' }) ∧ BitReading s' ∧
      unreadBits s' = rest := by
  obtain ⟨s', hread, hreading', hunread', -⟩ := readBit_unread hreading hunread depth
  refine ⟨s', ?_, hreading', hunread'⟩
  simp only [Reader.getBool, hreading.bitStream, if_true, hread, ok_bind]

omit [Streambuf γ] in
theorem bufferBits_gets_flag (pending unread : Fin 8) (depth : Nat) (flag : Bool) :
    (bufferBits β γ pending unread).Gets (Reader.getBool (depth + 2)) [flag] flag := by
  rintro r ⟨hnone, hreading, -, rest, hunread⟩
  obtain ⟨s', hget, hreading', hunread'⟩ := getBool_unread hreading hunread depth
  exact ⟨_, hget, hnone, hreading', rest, hunread, hunread'⟩

/-! ## Strings at a byte boundary -/

omit [Streambuf γ] in
theorem bufferBits_puts_string (unread : Fin 8) (depth : Nat) (str : List UInt8) :
    (bufferBits β γ 0 unread).Puts (serializeString (depth + 1) str)
      (unpack (Ty.encodeString str)) := by
  rintro s ⟨hwriting, hmarker, hroom⟩
  have hempty : s.pendingBits = [] := by
    rw [← List.length_eq_zero_iff, pendingBits_length hwriting.marker]
    exact hmarker
  rw [hempty, List.nil_append, unpack_length, Nat.mul_div_cancel_left _ (by omega)] at hroom
  refine ⟨_, serializeString_buffer depth hwriting.bufferMode hroom, ?_⟩
  have hovertaken := hwriting.bitsWritten.overtaken (by rw [hempty]; exact Nat.succ_pos 7)
    (Ty.encodeString str)
  rw [hempty, List.append_nil] at hovertaken
  show BitsWritten _ (s.pendingBits ++ _) _
  rw [hempty]
  exact hovertaken

theorem bufferBits_gets_string (pending : Fin 8) (depth : Nat) (str : List UInt8) :
    (bufferBits β γ pending 0).Gets (Reader.deserializeString (depth + 1) [])
      (unpack (Ty.encodeString str)) str := by
  rintro ⟨s, readBuffer⟩ ⟨hnone, hreading, hcurrent, rest, hunread⟩
  obtain rfl := Option.isNone_iff_eq_none.mp hnone
  have hempty : s.currentBits = [] := List.length_eq_zero_iff.mp hcurrent
  have hpos : 0 < (Ty.encodeString str).length := by
    rw [Ty.encodeString_length]
    omega
  have hsplit : unreadBits s = s.currentBits ++ (unpack (Ty.encodeString str) ++ rest) := by
    rw [hempty, List.nil_append]
    exact hunread
  obtain ⟨hholds, hleft⟩ := holds_of_unreadBits hreading hpos hsplit
  rw [hempty, List.nil_append] at hleft
  exact ⟨_, deserializeString_buffer depth [] hreading.bufferMode hholds, rfl,
    hreading.advancedBy _, rest, hunread, hleft⟩

/-- A flag that completes a byte, and a name. -/
theorem bufferBits_heads (depth : Nat) :
    (bufferBits β γ 7 1).Heads (bufferBits β γ 0 0) (bufferBits β γ 0 0) (depth + 4) where
  after_flag := by
    apply bufferBits_continues
    · show ((0 : Fin 8) : Nat) = ((7 : Fin 8) + [true].length) % 8
      decide
    · show (((0 : Fin 8) : Nat) + [true].length) % 8 = (1 : Fin 8)
      decide
  after_name str := by
    apply bufferBits_continues <;> simp [bufferBits]
  puts_flag := bufferBits_puts_flag 7 1 depth true
  gets_flag := bufferBits_gets_flag 7 1 (depth + 2) true
  puts_string := bufferBits_puts_string 0 (depth + 3)
  gets_string := bufferBits_gets_string 0 (depth + 3)
  noMismatch_named := bufferBits_clear 0 0
  noMismatch_bare := bufferBits_clear 0 0

/-! ## Strings elsewhere -/

omit [Streambuf β] [Streambuf γ] in
/-- Eight bytes of which some high-order bits are set, and no other ones. -/
theorem leValue_highBits :
    ∀ count : Fin 8, count ≠ 0 →
      2 ^ 63 ≤ leValue (pack (List.replicate (64 - count) false ++ List.replicate count true)) := by
  decide

omit [Streambuf β] [Streambuf γ] in
/-- Between the unread bits of the current byte and the bytes behind it, 64 zeros are cut. -/
theorem unreadBits_zeros {s : Serial β} (hshort : s.currentBits.length < 8) {rest : List Bool}
    (hunread : unreadBits s =
      List.replicate 64 false ++ (List.replicate 7 true ++ rest)) :
    ∃ rest', unreadBits s = s.currentBits ++
      (List.replicate (64 - s.currentBits.length) false ++
        List.replicate s.currentBits.length true ++ rest') := by
  have hzeros : List.replicate 64 false = List.replicate s.currentBits.length false ++
      List.replicate (64 - s.currentBits.length) false := by
    rw [List.replicate_append_replicate, Nat.add_sub_cancel' (by omega)]
  have hones : List.replicate 7 true = List.replicate s.currentBits.length true ++
      List.replicate (7 - s.currentBits.length) true := by
    rw [List.replicate_append_replicate, Nat.add_sub_cancel' (by omega)]
  have hparts : unreadBits s = List.replicate s.currentBits.length false ++
      (List.replicate (64 - s.currentBits.length) false ++
        List.replicate s.currentBits.length true ++
          (List.replicate (7 - s.currentBits.length) true ++ rest)) := by
    rw [hunread, hzeros, hones]
    simp only [List.append_assoc]
  have hcurrent : s.currentBits = List.replicate s.currentBits.length false :=
    (List.append_inj ((unreadBits_eq s).symm.trans hparts) (by rw [List.length_replicate])).1
  refine ⟨List.replicate (7 - s.currentBits.length) true ++ rest, ?_⟩
  rw [hparts]
  exact congrArg (· ++ _) hcurrent.symm

/-- Behind unread bits the length of an empty string, and ones after it, are read as a length that
no string has. -/
theorem deserializeString_throws {s : Serial β} (hreading : BitReading s)
    (hbehind : s.currentBits.length ≠ 0) {rest : List Bool}
    (hunread : unreadBits s =
      List.replicate 64 false ++ (List.replicate 7 true ++ rest)) (depth : Nat) :
    Reader.deserializeString (depth + 1) [] (⟨s, none⟩ : Reader β γ) =
      .error (.exception "std::length_error") := by
  have hshort := currentBits_length hreading.marker
  -- the length is copied from behind the unread bits
  obtain ⟨rest', hparts⟩ := unreadBits_zeros hshort hunread
  obtain ⟨count, hcount⟩ : ∃ count : Fin 8, (count : Nat) = s.currentBits.length :=
    ⟨⟨_, hshort⟩, rfl⟩
  rw [← hcount] at hparts
  obtain ⟨bits, hbits⟩ : ∃ bits, bits = List.replicate (64 - (count : Nat)) false ++
    List.replicate (count : Nat) true := ⟨_, rfl⟩
  have hlength : bits.length = 64 := by
    rw [hbits, List.length_append, List.length_replicate, List.length_replicate]
    omega
  have hbytes : (pack bits).length = 8 := by
    rw [pack_length, hlength]
  have hsplit : unreadBits s = s.currentBits ++ (unpack (pack bits) ++ rest') := by
    rw [unpack_pack_of_dvd (by rw [hlength]; decide), hbits]
    exact hparts
  obtain ⟨hholds, -⟩ := holds_of_unreadBits hreading (by omega) hsplit
  have hsize : 2 ^ 63 ≤ leValue (pack bits) := by
    rw [hbits]
    exact leValue_highBits count (by
      rintro rfl
      exact hbehind hcount.symm)
  have hbound := leValue_lt (pack bits)
  rw [hbytes] at hbound
  have hcopied : s.Holds (leBytes 8 (leValue (pack bits))) := by
    have hsame := leBytes_leValue (pack bits)
    rw [hbytes] at hsame
    rw [hsame]
    exact hholds
  have hget := getSize_buffer (γ := γ) depth ([] : List UInt8).length hreading.bufferMode
    (by omega) hcopied
  exact Reader.deserializeString_large hget hreading.bufferMode.noLastMismatch
    (by rw [List.length_nil]; omega) hsize

end Transfers

end Serial
end Iostreams
