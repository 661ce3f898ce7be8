import Iostreams.Serial.BlockAlignment

/-!
# Writing blocks of bits

`writeBits` writes the cells of a container, one bit for each.  An inner loop adds bits to the
current byte as long as there is room in it, and the outer loop flushes the byte through
`writeByte`, one in each of its rounds.

The argument `index` is ignored.  From every state `writeBits` does what `writeBit` does with the
first `size` cells, one after the other (`writeBits_eq_writeEach`), so that it agrees with bits
written from `index` on exactly if those cells are the same.
-/

namespace Iostreams

open Foundation

namespace Serial

variable {β : Type}

/-! ## Writing -/

/-- `currentWriteByte |= (bitContainer[i] & 1) << k; ++bitsWrittenWriteByte` -/
def putWriteCell (s : Serial β) (cell : UInt8) (k : Nat) : Serial β :=
  { s with
    currentWriteByte := s.currentWriteByte ||| UInt8.ofNat ((cell &&& 1).toNat <<< k)
    bitsWrittenWriteByte := s.bitsWrittenWriteByte + 1 }

/-- `for (k = bitsWrittenWriteByte; k < 8 && i < size; ++k, ++i)`, with `k` in the last `room`
places of the byte. -/
def putWriteCells (bitContainer : List UInt8) (size : Nat) : Nat → Nat → Serial β → Nat × Serial β
  | 0, i, s => (i, s)
  | room + 1, i, s =>
      if i < size then
        putWriteCells bitContainer size room (i + 1)
          (s.putWriteCell (bitContainer.getD i 0) (8 - (room + 1)))
      else
        (i, s)

/-- `bitsThisByte` and `bitsToGo` have no effect. -/
def writeBitsLoop [Streambuf β] (depth : Nat) (bitContainer : List UInt8) (size : Nat) :
    Nat → Nat → Serial β → Except Halt (Serial β)
  | 0, _, _ => .error .outOfFuel
  | rounds + 1, i, s =>
      if i < size then do
        let (i, s) := putWriteCells bitContainer size (8 - s.bitsWrittenWriteByte) i s
        let s ← if s.bitsWrittenWriteByte = 8 then writeByte depth s s.currentWriteByte else .ok s
        writeBitsLoop depth bitContainer size rounds i s
      else
        .ok s

/-- The index `i` is an `int`, which has to reach `size`. -/
def writeBits [Streambuf β] (depth : Nat) (s : Serial β) (bitContainer : List UInt8)
    (_index size : Nat) : Except Halt (Serial β) :=
  if !s.bitStream then
    .error (.exception "writeBits called and Serial is not a bitStream")
  else if 2 ^ 31 ≤ size then
    .error .outOfFuel
  else
    writeBitsLoop depth bitContainer size (size + 1) 0 s

/-- A container cell as a bit. -/
def cellBit (cell : UInt8) : Bool := cell.toNat.testBit 0

/-- The bits of the cells from `i` on. -/
def cellBits (bitContainer : List UInt8) (i count : Nat) : List Bool :=
  (List.range' i count).map fun j => cellBit (bitContainer.getD j 0)

theorem cellBits_succ (bitContainer : List UInt8) (i count : Nat) :
    cellBits bitContainer i (count + 1) =
      cellBit (bitContainer.getD i 0) :: cellBits bitContainer (i + 1) count := by
  simp only [cellBits, List.range'_succ, List.map_cons]

theorem cellBits_append (bitContainer : List UInt8) (i m n : Nat) :
    cellBits bitContainer i m ++ cellBits bitContainer (i + m) n =
      cellBits bitContainer i (m + n) := by
  rw [cellBits, cellBits, ← List.map_append, List.range'_append_1]
  rfl

theorem putWriteCell_eq (s : Serial β) (cell : UInt8) :
    s.putWriteCell cell s.bitsWrittenWriteByte = s.putWriteBit (cellBit cell) := by
  have hcell : (cell &&& 1).toNat = (cellBit cell).toNat := by
    rw [UInt8.toNat_and, UInt8.toNat_one, Nat.and_one_is_mod, cellBit, Nat.testBit_zero]
    rcases Nat.mod_two_eq_zero_or_one cell.toNat with hmod | hmod <;> simp [hmod]
  rw [putWriteCell, putWriteBit, hcell]

section Writing

variable [Streambuf β]

/-- A full byte is flushed, and the accumulator is empty afterwards. -/
theorem bitsWritten_writeByte {depth : Nat} {s s' : Serial β} {byte : UInt8}
    (hfull : s.bitsWrittenWriteByte = 8) (hwrite : writeByte depth s byte = .ok s') :
    s'.bitsWrittenWriteByte = 0 := by
  cases depth with
  | zero => cases hwrite
  | succ depth =>
      have haligned : ¬(s.bitStream = true ∧ 0 < s.bitsWrittenWriteByte ∧
          s.bitsWrittenWriteByte < 8) := by omega
      rw [writeByte, if_neg haligned] at hwrite
      cases hblock : writeBytes depth s [byte] with
      | error halt =>
          rw [hblock] at hwrite
          cases hwrite
      | ok result =>
          rw [hblock, ok_bind] at hwrite
          cases hwrite
          rfl

/-- The inner loop and the flush behind it are `writeBit` on the same cells. -/
theorem putWriteCells_eq (depth : Nat) (bitContainer : List UInt8) {size : Nat} (room : Nat)
    {i : Nat} {s : Serial β} (hroom : s.bitsWrittenWriteByte + room = 8) (hpos : 0 < room)
    (hi : i ≤ size) :
    let next := putWriteCells bitContainer size room i s
    next.1 = i + min room (size - i) ∧
      next.2.bitsWrittenWriteByte = s.bitsWrittenWriteByte + min room (size - i) ∧
      writeEach (writeBit (depth + 1)) (cellBits bitContainer i (min room (size - i))) s =
        if next.2.bitsWrittenWriteByte = 8 then writeByte depth next.2 next.2.currentWriteByte
        else .ok next.2 := by
  induction room generalizing i s with
  | zero => omega
  | succ room ih =>
      intro next
      by_cases hend : i < size
      · have hk : 8 - (room + 1) = s.bitsWrittenWriteByte := by omega
        have hmin : min (room + 1) (size - i) = min room (size - (i + 1)) + 1 := by omega
        have hnext : next = putWriteCells bitContainer size room (i + 1)
            (s.putWriteBit (cellBit (bitContainer.getD i 0))) := by
          rw [← putWriteCell_eq, ← hk]
          exact if_pos hend
        have hmarker : (s.putWriteBit (cellBit (bitContainer.getD i 0))).bitsWrittenWriteByte =
            s.bitsWrittenWriteByte + 1 := rfl
        rw [hmin, cellBits_succ, writeEach]
        by_cases hlast : room = 0
        · -- the cell fills the byte
          subst hlast
          rw [Nat.zero_min]
          have hfull : (s.putWriteBit (cellBit (bitContainer.getD i 0))).bitsWrittenWriteByte =
              8 := hroom
          refine ⟨by rw [hnext]; rfl, by rw [hnext]; rfl, ?_⟩
          rw [hnext, putWriteCells, writeBit]
          simp only [hfull, if_true]
          exact bind_pure _
        · obtain ⟨hindex, hcount, heach⟩ := @ih (i + 1)
            (s.putWriteBit (cellBit (bitContainer.getD i 0))) (by omega) (by omega) hend
          rw [← hnext] at hindex hcount heach
          refine ⟨by omega, by omega, ?_⟩
          have hbit : writeBit (depth + 1) s (cellBit (bitContainer.getD i 0)) =
              .ok (s.putWriteBit (cellBit (bitContainer.getD i 0))) := by
            rw [writeBit]
            exact if_neg (by omega)
          rw [hbit, ok_bind, heach]
      · have hnone : min (room + 1) (size - i) = 0 := by omega
        have hnext : next = (i, s) := if_neg hend
        rw [hnone, hnext, if_neg (show ¬s.bitsWrittenWriteByte = 8 by omega)]
        exact ⟨rfl, rfl, rfl⟩

omit [Streambuf β] in
theorem writeEach_append {α : Type} (write : Serial β → α → Except Halt (Serial β))
    (front back : List α) (s : Serial β) :
    writeEach write (front ++ back) s = writeEach write front s >>= writeEach write back := by
  induction front generalizing s with
  | nil => rfl
  | cons item rest ih =>
      simp only [List.cons_append, writeEach, bind_assoc]
      exact bind_congr fun s' => ih s'

/-- The loop is `writeBit` on the cells that are left. -/
theorem writeBitsLoop_eq (depth : Nat) (bitContainer : List UInt8) {size : Nat} (rounds : Nat)
    {i : Nat} {s : Serial β} (hmarker : s.bitsWrittenWriteByte < 8) (hi : i ≤ size)
    (hrounds : size - i < rounds) :
    writeBitsLoop depth bitContainer size rounds i s =
      writeEach (writeBit (depth + 1)) (cellBits bitContainer i (size - i)) s := by
  induction rounds generalizing i s with
  | zero => omega
  | succ rounds ih =>
      unfold writeBitsLoop
      by_cases hend : i < size
      · obtain ⟨hindex, hcount, heach⟩ := putWriteCells_eq depth bitContainer
          (8 - s.bitsWrittenWriteByte) (i := i) (s := s) (by omega) (by omega) hi
        have hsplit : size - i = min (8 - s.bitsWrittenWriteByte) (size - i) +
            (size - (i + min (8 - s.bitsWrittenWriteByte) (size - i))) := by omega
        have hpos : 0 < min (8 - s.bitsWrittenWriteByte) (size - i) := by omega
        rw [if_pos hend, hsplit, ← cellBits_append, writeEach_append, heach, ← hindex]
        -- what is flushed or kept has fewer than eight bits pending
        generalize putWriteCells bitContainer size (8 - s.bitsWrittenWriteByte) i s = next at *
        obtain ⟨i', next⟩ := next
        simp only at hindex hcount ⊢
        by_cases hfull : next.bitsWrittenWriteByte = 8
        · simp only [hfull, if_true]
          cases hflush : writeByte depth next next.currentWriteByte with
          | error halt => rfl
          | ok s' =>
              have hzero := bitsWritten_writeByte hfull hflush
              exact ih (by omega) (by omega) (by omega)
        · simp only [hfull, if_false]
          exact ih (by omega) (by omega) (by omega)
      · have hnone : size - i = 0 := by omega
        rw [if_neg hend, hnone]
        rfl

/-- From every state, `writeBits` is `writeBit` on the first cells of the container. -/
theorem writeBits_eq_writeEach (depth : Nat) {s : Serial β} (hstream : s.bitStream = true)
    (hmarker : s.bitsWrittenWriteByte < 8) (bitContainer : List UInt8) (index : Nat) {size : Nat}
    (hsize : size < 2 ^ 31) :
    writeBits depth s bitContainer index size =
      writeEach (writeBit (depth + 1)) (cellBits bitContainer 0 size) s := by
  unfold writeBits
  rw [if_neg (by simp [hstream]), if_neg (by omega)]
  exact writeBitsLoop_eq depth bitContainer (size + 1) hmarker (Nat.zero_le size) (by omega)

/-- `size` calls of `writeBit`, for the cells from `index` on. -/
def writeCells (depth : Nat) (s : Serial β) (bitContainer : List UInt8) (index size : Nat) :
    Except Halt (Serial β) :=
  writeEach (fun s i => writeBit depth s (bitContainer.getD (index + i) 0 != 0))
    (List.range size) s

/-- `writeBits` leaves the same buffer, write index and pending bits as bits written one by one. -/
def WriteBitsAgrees (depth : Nat) (s : Serial β) (bitContainer : List UInt8)
    (index size : Nat) : Prop :=
  ∃ block each, writeBits depth s bitContainer index size = .ok block ∧
    writeCells depth s bitContainer index size = .ok each ∧ SameOutput block each

omit [Streambuf β] in
theorem writeEach_map {α ι : Type} (write : Serial β → α → Except Halt (Serial β)) (f : ι → α)
    (items : List ι) (s : Serial β) :
    writeEach write (items.map f) s = writeEach (fun s item => write s (f item)) items s := by
  induction items generalizing s with
  | nil => rfl
  | cons item rest ih =>
      simp only [List.map_cons, writeEach]
      exact bind_congr fun s' => ih s'

theorem getD_binary {bitContainer : List UInt8} (hbits : ∀ cell ∈ bitContainer, cell = 0 ∨ cell = 1)
    (j : Nat) : bitContainer.getD j 0 = 0 ∨ bitContainer.getD j 0 = 1 := by
  by_cases hj : j < bitContainer.length
  · rw [List.getD_eq_getElem _ _ hj]
    exact hbits _ (List.getElem_mem hj)
  · rw [List.getD_eq_default _ _ (by omega)]
    exact Or.inl rfl

/-- Of a cell that is 0 or 1, the conversion to `bool` and the mask are the same. -/
theorem writeCells_eq {bitContainer : List UInt8}
    (hbits : ∀ cell ∈ bitContainer, cell = 0 ∨ cell = 1) (depth : Nat) (s : Serial β)
    (index size : Nat) :
    writeCells depth s bitContainer index size =
      writeEach (writeBit depth) (cellBits bitContainer index size) s := by
  have hcell : ∀ j, (bitContainer.getD j 0 != 0) = cellBit (bitContainer.getD j 0) := by
    intro j
    rcases getD_binary hbits j with hzero | hone
    · rw [hzero]
      rfl
    · rw [hone]
      rfl
  rw [cellBits, List.range'_eq_map_range, List.map_map, writeEach_map]
  simp only [writeCells, hcell, Function.comp_apply]

end Writing

/-- The bits a writer was given determine its state. -/
theorem bitsWritten_unique {s s₁ s₂ : Serial β} {bits : List Bool}
    (hwritten : BitsWritten s bits s₁) (hwritten' : BitsWritten s bits s₂) : s₁ = s₂ := by
  obtain ⟨whole, pending, rfl, hwhole, hpending, rfl⟩ := hwritten
  obtain ⟨whole', pending', hsplit, hwhole', hpending', rfl⟩ := hwritten'
  have htotal := congrArg List.length hsplit
  rw [List.length_append, List.length_append] at htotal
  obtain ⟨rfl, rfl⟩ := List.append_inj hsplit (by omega)
  rfl

/-- A writer's memory and accumulator determine the bits it was given. -/
theorem bitsWritten_injective {s s₁ s₂ : Serial β} {bits bits' : List Bool}
    (hlength : bits.length = bits'.length) (hroom : s.Room (bits.length / 8))
    (hwritten : BitsWritten s bits s₁) (hwritten' : BitsWritten s bits' s₂)
    (hsame : SameOutput s₁ s₂) : bits = bits' := by
  obtain ⟨whole, pending, rfl, hwhole, hpending, rfl⟩ := hwritten
  obtain ⟨whole', pending', rfl, hwhole', hpending', rfl⟩ := hwritten'
  rw [List.length_append, List.length_append] at hlength
  rw [List.length_append] at hroom
  obtain ⟨hbuffer, -, hbits⟩ := hsame
  rw [pendingBits_withWriteBits _ hpending, pendingBits_withWriteBits _ hpending'] at hbits
  have hcount : (pack whole).length = whole.length / 8 := pack_length_of_dvd hwhole
  have hcount' : (pack whole').length = (pack whole).length := by
    rw [pack_length_of_dvd hwhole', hcount]
    omega
  -- the packed bytes are read back from the two buffers
  obtain ⟨hindex, hfits⟩ := hroom
  have hleft : slice (overwrite s.bufferPointer s.bufferWriteIndex.toNat (pack whole))
      s.bufferWriteIndex.toNat (pack whole).length = pack whole := slice_overwrite (by omega)
  have hright : slice (overwrite s.bufferPointer s.bufferWriteIndex.toNat (pack whole'))
      s.bufferWriteIndex.toNat (pack whole').length = pack whole' := slice_overwrite (by omega)
  have hpacked : pack whole = pack whole' := by
    rw [← hleft, ← hright, hcount']
    exact congrArg (fun memory => slice memory s.bufferWriteIndex.toNat (pack whole).length)
      hbuffer
  rw [hbits, ← unpack_pack_of_dvd hwhole, hpacked, unpack_pack_of_dvd hwhole']

/-- Two blocks of cells have the same bits exactly if they are the same. -/
theorem cellBits_eq_iff {bitContainer : List UInt8}
    (hbits : ∀ cell ∈ bitContainer, cell = 0 ∨ cell = 1) {index size : Nat}
    (hcells : index + size ≤ bitContainer.length) :
    cellBits bitContainer 0 size = cellBits bitContainer index size ↔
      ∀ i < size, bitContainer[i]? = bitContainer[index + i]? := by
  have hcell : ∀ i < size, (cellBit (bitContainer.getD i 0) =
      cellBit (bitContainer.getD (index + i) 0) ↔
        bitContainer[i]? = bitContainer[index + i]?) := by
    intro i hi
    have hleft : bitContainer[i]? = some (bitContainer.getD i 0) := by
      rw [List.getElem?_eq_getElem (by omega), List.getD_eq_getElem _ _ (by omega)]
    have hright : bitContainer[index + i]? = some (bitContainer.getD (index + i) 0) := by
      rw [List.getElem?_eq_getElem (by omega), List.getD_eq_getElem _ _ (by omega)]
    rw [hleft, hright]
    rcases getD_binary hbits i with hzero | hone <;>
      rcases getD_binary hbits (index + i) with hzero' | hone' <;> simp only [*] <;> decide
  constructor
  · intro hsame i hi
    have hat := congrArg (fun bits => bits[i]?) hsame
    rw [← hcell i hi]
    simpa [cellBits, hi] using hat
  · intro hall
    apply List.ext_getElem
    · simp [cellBits]
    · intro i hleft _
      have hi : i < size := by simpa [cellBits] using hleft
      simpa [cellBits] using (hcell i hi).mpr (hall i hi)

/-- **Blocks of bits.**  On a bit stream over a buffer, whatever is pending, `writeBits` leaves
what the cells from `index` on, written bit by bit, would leave exactly if the first cells of the
container are the same as those. -/
theorem writeBits_agrees_iff [Streambuf β] (depth : Nat) {s : Serial β} (hwriting : s.BitWriting)
    {bitContainer : List UInt8} (hbits : ∀ cell ∈ bitContainer, cell = 0 ∨ cell = 1)
    {index size : Nat} (hcells : index + size ≤ bitContainer.length) (hsize : size < 2 ^ 31)
    (hroom : s.Room ((s.pendingBits.length + size) / 8)) :
    WriteBitsAgrees (depth + 3) s bitContainer index size ↔
      ∀ i < size, bitContainer[i]? = bitContainer[index + i]? := by
  have hmode := bufferMode_withWriteBits hwriting.bufferMode 0 0
  have hlength : ∀ start, (cellBits bitContainer start size).length = size := by
    intro start
    simp [cellBits]
  have hfits : ∀ start, (s.withWriteBits 0 0).Room
      ((s.pendingBits ++ cellBits bitContainer start size).length / 8) := by
    intro start
    rw [List.length_append, hlength]
    exact hroom
  have hblock := writeBits_eq_writeEach (depth + 3) hwriting.bitStream hwriting.marker
    bitContainer index hsize
  have heach := writeCells_eq hbits (depth + 3) s index size
  -- `writeBits` takes its cells from 0 on, the single writes from `index` on
  obtain ⟨s₁, hwrite₁, hwritten₁⟩ := writeBits_bitsWritten hmode (depth + 1)
    (cellBits bitContainer 0 size) (hfits 0) hwriting.bitsWritten
  obtain ⟨s₂, hwrite₂, hwritten₂⟩ := writeBits_bitsWritten hmode depth
    (cellBits bitContainer index size) (hfits index) hwriting.bitsWritten
  rw [hwrite₁] at hblock
  rw [hwrite₂] at heach
  rw [← cellBits_eq_iff hbits hcells]
  constructor
  · rintro ⟨block, each, hleft, hright, hsame⟩
    rw [hblock] at hleft
    rw [heach] at hright
    cases hleft
    cases hright
    -- equally many bits were written, so equal buffers and pending bits mean equal cells
    have htotal := bitsWritten_injective (by rw [List.length_append, List.length_append, hlength,
      hlength]) (hfits 0) hwritten₁ hwritten₂ hsame
    exact List.append_cancel_left htotal
  · intro hsame
    rw [← hsame] at hwritten₂
    obtain rfl := bitsWritten_unique hwritten₁ hwritten₂
    exact ⟨s₁, s₁, hblock, heach, rfl, rfl, rfl⟩

/-- A container with the same cell twice, from its second cell on. -/
theorem writeBits_agrees_same :
    WriteBitsAgrees 3 (ofBuffer [0] true : Serial Stringbuf) [1, 1] 1 1 :=
  (writeBits_agrees_iff 0 ⟨bufferMode_ofBuffer (by decide) true, rfl, by decide, rfl⟩
    (by simp) (by decide) (by omega) ⟨by decide, by decide⟩).mpr (by decide)

/-- The second cell was to be written, and the first one is. -/
theorem not_writeBits_agrees :
    ¬WriteBitsAgrees 3 (ofBuffer [0] true : Serial Stringbuf) [1, 0] 1 1 ∧
      ∃ block each : Serial Stringbuf,
        writeBits 3 (ofBuffer [0] true) [1, 0] 1 1 = .ok block ∧
        writeCells 3 (ofBuffer [0] true) [1, 0] 1 1 = .ok each ∧
        block.pendingBits = [true] ∧ each.pendingBits = [false] := by
  refine ⟨?_, _, _, rfl, rfl, by decide, by decide⟩
  rintro ⟨block, each, hblock, heach, -, -, hbits⟩
  cases hblock
  cases heach
  exact absurd hbits (by decide)

end Serial
end Iostreams
