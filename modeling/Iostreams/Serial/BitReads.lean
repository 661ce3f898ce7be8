import Iostreams.Serial.BlockAlignment
import Iostreams.Serial.Input

/-!
# Reading blocks of bits

`readBits` stores bits into the cells of a container.  An inner loop takes bits from the current
byte as far as they go, and the outer loop refetches the byte through `readByte` when the marker is
eight.  After a byte that was read at a byte boundary the marker is zero, and the loop takes the
bits of that byte again, which `readBit` does not.

On a buffer every read returns.  From a state whose marker is not zero `readBits` ends in the very
state that `readBit` leads to (`readBitsLoop_eq`); from one whose marker is zero it ends one byte
behind, which a later block read shows.
-/

namespace Iostreams

open Foundation

namespace Serial

variable {β : Type}

/-- `(currentReadByte >> k) & 1` -/
def readCell (s : Serial β) (k : Nat) : UInt8 :=
  UInt8.ofNat (s.currentReadByte.toNat.testBit k).toNat

/-- `for (k = bitsReadReadByte; k < 8 && i < size; ++k, ++i, bitsReadReadByte++)`, with `k` in the
last `room` places of the byte. -/
def takeReadCells (index size : Nat) :
    Nat → Nat → List UInt8 → Serial β → Nat × List UInt8 × Serial β
  | 0, i, bitContainer, s => (i, bitContainer, s)
  | room + 1, i, bitContainer, s =>
      if i < size then
        takeReadCells index size room (i + 1)
          (bitContainer.set (i + index) (s.readCell (8 - (room + 1))))
          { s with bitsReadReadByte := s.bitsReadReadByte + 1 }
      else
        (i, bitContainer, s)

section Reading

variable [Streambuf β]

/-- `if (bitsReadReadByte == 8) readByte();` -/
def refillSpent (depth : Nat) (s : Serial β) : Except Halt (Serial β) :=
  if s.bitsReadReadByte = 8 then do
    let (_, s) ← readByte depth s
    .ok s
  else
    .ok s

def readBitsLoop (depth index size : Nat) :
    Nat → Nat → List UInt8 → Serial β → Except Halt (List UInt8 × Serial β)
  | 0, _, _, _ => .error .outOfFuel
  | rounds + 1, i, bitContainer, s =>
      if i < size then do
        let s ← refillSpent depth s
        let (i, bitContainer, s) :=
          takeReadCells index size (8 - s.bitsReadReadByte) i bitContainer s
        readBitsLoop depth index size rounds i bitContainer s
      else
        .ok (bitContainer, s)

/-- The index `i` is an `int`, which has to reach `size`. -/
def readBits (depth : Nat) (s : Serial β) (bitContainer : List UInt8) (index size : Nat) :
    Except Halt (List UInt8 × Serial β) :=
  if !s.bitStream then
    .error (.exception "readBits called and Serial is not a bitStream")
  else if 2 ^ 31 ≤ size then
    .error .outOfFuel
  else
    readBitsLoop depth index size (size + 1) 0 bitContainer s

/-- `count` calls of `readBit`, in order. -/
def readBitTimes (depth : Nat) : Nat → Serial β → Except Halt (List Bool × Serial β)
  | 0, s => .ok ([], s)
  | count + 1, s => do
      let (bit, s) ← readBit depth s
      let (bits, s) ← readBitTimes depth count s
      .ok (bit :: bits, s)

end Reading

/-! ## Runs -/

/-- A read of bits or of a byte. -/
inductive BitRead where
  | bit
  | byte
  | bits (count : Nat)
  deriving DecidableEq, Repr

/-- Any read; the size of a block is the one that is asked for. -/
inductive AnyRead where
  | bitwise (read : BitRead)
  | block (size : Nat)
  deriving DecidableEq, Repr

section Runs

variable [Streambuf β]

/-- The values a read delivers. -/
def BitRead.perform (depth : Nat) (r : Serial β) : BitRead → Except Halt (List UInt8 × Serial β)
  | .bit => do
      let (value, r) ← readBit depth r
      .ok ([UInt8.ofNat value.toNat], r)
  | .byte => do
      let (value, r) ← readByte depth r
      .ok ([value], r)
  | .bits count => readBits depth r (List.replicate count 0) 0 count

/-- The count a read returns and the values it delivers. -/
def AnyRead.perform (depth : Nat) (r : Serial β) :
    AnyRead → Except Halt ((Int × List UInt8) × Serial β)
  | .bitwise read => do
      let (values, r) ← read.perform depth r
      .ok ((values.length, values), r)
  | .block size => do
      let (count, dest, r) ← readBytes depth r (List.replicate size 0) size
      .ok ((count, dest), r)

/-- Whatever is read later has the same results. -/
def ContinuesAlike (depth : Nat) (r r' : Serial β) : Prop :=
  ∀ reads, (runEach (AnyRead.perform depth) reads r).map Prod.fst =
    (runEach (AnyRead.perform depth) reads r').map Prod.fst

/-- `readBits` stores the values of `size` calls of `readBit` at `index` and nothing else, and
what is read later goes on as after those. -/
def ReadBitsAgrees (depth : Nat) (r : Serial β) (bitContainer : List UInt8) (index size : Nat) :
    Prop :=
  ∃ bits block each,
    readBits depth r bitContainer index size =
      .ok (overwrite bitContainer index (bits.map fun bit => UInt8.ofNat bit.toNat), block) ∧
    readBitTimes depth size r = .ok (bits, each) ∧ ContinuesAlike depth block each

end Runs

/-! ## Reads on a buffer -/

/-- A bit-stream reader whose read index lies in its buffer. -/
def BitCursor (r : Serial β) : Prop :=
  BitReading r ∧ r.bufferReadIndex ≤ r.bufferPointer.length

/-- The reader after the current byte was refilled, if there was a byte left. -/
def fetched (r : Serial β) : Serial β :=
  if r.bufferReadIndex < r.bufferPointer.length then
    (r.advanced 1).withReadBits (r.bufferPointer.getD r.bufferReadIndex.toNat 0) 0
  else
    r.withReadBits r.currentReadByte 0

/-- The next `count` bits of the current byte. -/
def takenBits (r : Serial β) (count : Nat) : List Bool :=
  (List.range' r.bitsReadReadByte count).map fun k => r.currentReadByte.toNat.testBit k

/-- The reader after `count` bits of the current byte were taken. -/
def taken (r : Serial β) (count : Nat) : Serial β :=
  r.withReadBits r.currentReadByte (r.bitsReadReadByte + count)

theorem BitCursor.withReadBits {r : Serial β} (hcursor : r.BitCursor) (byte : UInt8) {count : Nat}
    (hcount : count ≤ 8) : (r.withReadBits byte count).BitCursor := by
  obtain ⟨⟨hmode, hstream, hoffset, -, hindex⟩, hrange⟩ := hcursor
  exact ⟨⟨⟨hmode.notCount, hmode.isBuffer, hmode.size_eq, hmode.size_lt, hmode.noMismatch,
    hmode.noLastMismatch⟩, hstream, hoffset, hcount, hindex⟩, hrange⟩

theorem BitCursor.fetched {r : Serial β} (hcursor : r.BitCursor) : r.fetched.BitCursor := by
  unfold Serial.fetched
  split
  · next hleft => exact ⟨hcursor.1.advance _ (Nat.zero_le 8), hleft⟩
  · exact hcursor.withReadBits _ (Nat.zero_le 8)

@[simp] theorem bitsRead_fetched (r : Serial β) : r.fetched.bitsReadReadByte = 0 := by
  unfold fetched
  split <;> rfl

section Cursor

variable [Streambuf β]

/-- A refill returns, and stores the next byte if there is one. -/
theorem readBytes_fetched {r : Serial β} (hcursor : r.BitCursor) (depth : Nat) :
    ∃ count dest s, readBytes (depth + 1) r [r.currentReadByte] 1 = .ok (count, dest, s) ∧
      s.refilled dest = r.fetched := by
  obtain ⟨hreading, hrange⟩ := hcursor
  have hindex := hreading.index_nonneg
  unfold fetched
  by_cases hleft : r.bufferReadIndex < r.bufferPointer.length
  · have hholds : r.Holds [r.bufferPointer.getD r.bufferReadIndex.toNat 0] := by
      have hnext : r.bufferReadIndex.toNat < r.bufferPointer.length := by omega
      refine ⟨hindex, by rw [List.length_singleton]; omega, ?_⟩
      rw [List.length_singleton, slice, List.getD_eq_getElem _ _ hnext,
        List.drop_eq_getElem_cons hnext, List.take_succ_cons, List.take_zero]
    refine ⟨_, _, _, readBytes_nextByte hreading hholds depth, ?_⟩
    rw [if_pos hleft]
    rfl
  · refine ⟨_, _, _, readBytes_buffer_short hreading.bufferMode (by omega) (by omega) depth _, ?_⟩
    rw [if_neg hleft]
    rfl

theorem readBit_aligned {r : Serial β} (hcursor : r.BitCursor)
    (haligned : r.bitsReadReadByte = 0 ∨ r.bitsReadReadByte = 8) (depth : Nat) :
    readBit (depth + 2) r = .ok r.fetched.takeReadBit := by
  obtain ⟨count, dest, s, hread, hfetched⟩ := readBytes_fetched hcursor depth
  have hneeded : r.needsReadByte = (true, r) := if_pos hcursor.1.noOffset
  rw [readBit, if_pos haligned, hneeded]
  simp only [if_true, hread, ok_bind, hfetched]

theorem readBit_pending {r : Serial β} (hpending : 0 < r.bitsReadReadByte)
    (hmarker : r.bitsReadReadByte < 8) (depth : Nat) :
    readBit (depth + 1) r = .ok r.takeReadBit := by
  rw [readBit, if_neg (by omega)]

theorem readByte_aligned {r : Serial β} (hcursor : r.BitCursor)
    (haligned : r.bitsReadReadByte = 0 ∨ r.bitsReadReadByte = 8) (depth : Nat) :
    readByte (depth + 2) r = .ok (r.fetched.currentReadByte, r.fetched) := by
  obtain ⟨count, dest, s, hread, hfetched⟩ := readBytes_fetched hcursor depth
  rw [readByte, if_neg (by omega), hread]
  simp only [ok_bind, hfetched]

/-- Bits of the current byte, which needs no refill. -/
theorem readBitTimes_pending (depth count : Nat) {r : Serial β} (hpos : 0 < r.bitsReadReadByte)
    (hcount : r.bitsReadReadByte + count ≤ 8) :
    readBitTimes (depth + 1) count r = .ok (r.takenBits count, r.taken count) := by
  induction count generalizing r with
  | zero => rfl
  | succ count ih =>
      have hmin : min r.bitsReadReadByte 7 = r.bitsReadReadByte := by omega
      have hrest := @ih { r with bitsReadReadByte := r.bitsReadReadByte + 1 } (Nat.succ_pos _)
        (by show r.bitsReadReadByte + 1 + count ≤ 8; omega)
      rw [readBitTimes, readBit_pending hpos (by omega), takeReadBit, hmin]
      simp only [ok_bind, hrest]
      simp only [takenBits, taken, withReadBits, List.range'_succ, List.map_cons, add_assoc,
        add_comm 1 count]

/-- Bits of the byte that the first of the reads fetches. -/
theorem readBitTimes_fetched (depth : Nat) {count : Nat} {r : Serial β} (hcursor : r.BitCursor)
    (haligned : r.bitsReadReadByte = 0 ∨ r.bitsReadReadByte = 8) (hpos : 0 < count)
    (hcount : count ≤ 8) :
    readBitTimes (depth + 2) count r =
      .ok (r.fetched.takenBits count, r.fetched.taken count) := by
  obtain ⟨count, rfl⟩ : ∃ m, count = m + 1 := ⟨count - 1, by omega⟩
  have hzero := bitsRead_fetched r
  have hrest := @readBitTimes_pending _ _ (depth + 1) count
    { r.fetched with bitsReadReadByte := r.fetched.bitsReadReadByte + 1 } (Nat.succ_pos _)
    (by show r.fetched.bitsReadReadByte + 1 + count ≤ 8; omega)
  rw [readBitTimes, readBit_aligned hcursor haligned, takeReadBit, hzero]
  rw [hzero] at hrest
  simp only [ok_bind, hrest]
  simp only [takenBits, taken, withReadBits, hzero, List.range'_succ, List.map_cons,
    add_comm 1 count, Nat.zero_add, Nat.zero_min]

theorem readBitTimes_add (depth m n : Nat) (r : Serial β) :
    readBitTimes depth (m + n) r = (do
      let (front, r) ← readBitTimes depth m r
      let (back, r) ← readBitTimes depth n r
      .ok (front ++ back, r)) := by
  induction m generalizing r with
  | zero =>
      rw [Nat.zero_add]
      exact (bind_pure _).symm
  | succ m ih =>
      rw [Nat.succ_add]
      simp only [readBitTimes, ih, bind_assoc, ok_bind]
      rfl

end Cursor

/-- The inner loop stores the bits that are left in the byte, as many as are asked for. -/
theorem takeReadCells_eq (index : Nat) {size : Nat} (room : Nat) {i : Nat}
    {bitContainer : List UInt8} {r : Serial β} (hroom : r.bitsReadReadByte + room = 8)
    (hi : i ≤ size) (hcells : index + size ≤ bitContainer.length) :
    takeReadCells index size room i bitContainer r =
      (i + min room (size - i),
        overwrite bitContainer (index + i)
          ((r.takenBits (min room (size - i))).map fun bit => UInt8.ofNat bit.toNat),
        r.taken (min room (size - i))) := by
  induction room generalizing i bitContainer r with
  | zero =>
      rw [Nat.zero_min]
      simp [takeReadCells, takenBits, taken]
  | succ room ih =>
      unfold takeReadCells
      by_cases hend : i < size
      · -- the cell of this step is stored first, and the rest behind it
        have hk : 8 - (room + 1) = r.bitsReadReadByte := by omega
        have hmin : min (room + 1) (size - i) = min room (size - (i + 1)) + 1 := by omega
        have hstore : bitContainer.set (i + index) (r.readCell (8 - (room + 1))) =
            overwrite bitContainer (index + i) [r.readCell r.bitsReadReadByte] := by
          rw [hk, Nat.add_comm i index, overwrite_eq (by rw [List.length_singleton]; omega),
            List.set_eq_take_append_cons_drop, if_pos (by omega), List.length_singleton,
            List.append_assoc, List.singleton_append]
        have hnext := @ih (i + 1)
          (overwrite bitContainer (index + i) [r.readCell r.bitsReadReadByte])
          { r with bitsReadReadByte := r.bitsReadReadByte + 1 }
          (by show r.bitsReadReadByte + 1 + room = 8; omega) hend
          (by rw [overwrite_length]; exact hcells)
        have hbits : r.takenBits (min room (size - (i + 1)) + 1) =
            r.currentReadByte.toNat.testBit r.bitsReadReadByte ::
              takenBits { r with bitsReadReadByte := r.bitsReadReadByte + 1 }
                (min room (size - (i + 1))) := by
          simp only [takenBits, List.range'_succ, List.map_cons]
        have hcount : index + (i + 1) =
            index + i + [r.readCell r.bitsReadReadByte].length := rfl
        have hfits : (takenBits { r with bitsReadReadByte := r.bitsReadReadByte + 1 }
            (min room (size - (i + 1)))).length = min room (size - (i + 1)) := by
          simp [takenBits]
        rw [if_pos hend, hstore, hnext, hmin, hbits, hcount,
          overwrite_overwrite (by rw [List.length_singleton, List.length_map, hfits]; omega)]
        simp only [List.map_cons, List.singleton_append, readCell, taken, withReadBits]
        refine Prod.ext (by show _ = i + (_ + 1); omega) (Prod.ext rfl ?_)
        simp only [add_assoc, add_comm 1]
      · have hnone : min (room + 1) (size - i) = 0 := by omega
        rw [if_neg hend, hnone]
        simp [takenBits, taken]

section Loop

variable [Streambuf β]

/-- The byte a round of the loop works on, when the marker is not zero: bits taken from it are
those that `readBit` delivers. -/
theorem round_eq {r : Serial β} (hcursor : r.BitCursor) (hpos : 0 < r.bitsReadReadByte)
    (depth : Nat) :
    ∃ t, refillSpent (depth + 2) r = .ok t ∧ t.BitCursor ∧ t.bitsReadReadByte < 8 ∧
      ∀ count, 0 < count → t.bitsReadReadByte + count ≤ 8 →
        readBitTimes (depth + 2) count r = .ok (t.takenBits count, t.taken count) := by
  by_cases hfull : r.bitsReadReadByte = 8
  · have hzero := bitsRead_fetched r
    refine ⟨r.fetched, ?_, hcursor.fetched, by omega, fun count hcount hle => ?_⟩
    · rw [refillSpent, if_pos hfull, readByte_aligned hcursor (Or.inr hfull), ok_bind]
    · exact readBitTimes_fetched depth hcursor (Or.inr hfull) hcount (by omega)
  · have hmarker := hcursor.1.marker
    exact ⟨r, if_neg hfull, hcursor, by omega, fun count hcount hle =>
      readBitTimes_pending (depth + 1) count hpos hle⟩

/-- From a marker that is not zero, the loop leads to the state and the bits of `readBit`. -/
theorem readBitsLoop_eq (depth rounds : Nat) {index size i : Nat} {bitContainer : List UInt8}
    {r : Serial β} (hcursor : r.BitCursor) (hpos : 0 < r.bitsReadReadByte) (hi : i ≤ size)
    (hrounds : size - i < rounds) (hcells : index + size ≤ bitContainer.length) :
    ∃ bits r', bits.length = size - i ∧
      readBitsLoop (depth + 2) index size rounds i bitContainer r =
        .ok (overwrite bitContainer (index + i) (bits.map fun bit => UInt8.ofNat bit.toNat), r') ∧
      readBitTimes (depth + 2) (size - i) r = .ok (bits, r') ∧ r'.BitCursor := by
  induction rounds generalizing i bitContainer r with
  | zero => omega
  | succ rounds ih =>
      unfold readBitsLoop
      by_cases hend : i < size
      · obtain ⟨t, hround, hcursor', hmarker, htimes⟩ := round_eq hcursor hpos depth
        -- one round takes `n` bits of the byte, and the marker stays positive for the next
        obtain ⟨n, hn⟩ : ∃ n, n = min (8 - t.bitsReadReadByte) (size - i) := ⟨_, rfl⟩
        have hstored : ((t.takenBits n).map fun bit => UInt8.ofNat bit.toNat).length = n := by
          simp [takenBits]
        obtain ⟨bits, r', hlength, hloop, hrest, hcursor''⟩ := @ih (i + n)
          (overwrite bitContainer (index + i)
            ((t.takenBits n).map fun bit => UInt8.ofNat bit.toNat)) (t.taken n)
          (hcursor'.withReadBits _ (by omega))
          (by show 0 < t.bitsReadReadByte + n; omega) (by omega) (by omega)
          (by rw [overwrite_length]; exact hcells)
        refine ⟨t.takenBits n ++ bits, r', ?_, ?_, ?_, hcursor''⟩
        · rw [List.length_append, hlength]
          simp only [takenBits, List.length_map, List.length_range']
          omega
        · have hnext : index + (i + n) = index + i +
              ((t.takenBits n).map fun bit => UInt8.ofNat bit.toNat).length := by
            rw [hstored, Nat.add_assoc]
          rw [if_pos hend, hround, ok_bind, takeReadCells_eq index _ (by omega) hi hcells, ← hn]
          simp only
          rw [hloop, hnext, overwrite_overwrite
            (by rw [hstored, List.length_map, hlength]; omega), List.map_append]
        · have hsplit : size - i = n + (size - (i + n)) := by omega
          rw [hsplit, readBitTimes_add, htimes n (by omega) (by omega)]
          simp only [ok_bind, hrest]
      · have hnone : size - i = 0 := by omega
        rw [if_neg hend, hnone]
        exact ⟨[], r, rfl, by simp, rfl, hcursor⟩

/-- From the marker zero, the loop first takes bits of the current byte again. -/
theorem readBitsLoop_stale (depth : Nat) {index size : Nat} {bitContainer : List UInt8}
    {r : Serial β} (hcursor : r.BitCursor) (hzero : r.bitsReadReadByte = 0) (hpos : 0 < size)
    (hcells : index + size ≤ bitContainer.length) :
    ∃ n stored bits r', 0 < n ∧ n ≤ 8 ∧ n ≤ size ∧
      readBitsLoop (depth + 2) index size (size + 1) 0 bitContainer r = .ok (stored, r') ∧
      readBitTimes (depth + 2) (size - n) (r.taken n) = .ok (bits, r') ∧ r'.BitCursor := by
  obtain ⟨n, hn⟩ : ∃ n, n = min (8 - r.bitsReadReadByte) (size - 0) := ⟨_, rfl⟩
  have hroom : index + size ≤ (overwrite bitContainer (index + 0)
      ((r.takenBits n).map fun bit => UInt8.ofNat bit.toNat)).length := by
    rw [overwrite_length]
    exact hcells
  have hstart : 0 + n ≤ size := by omega
  obtain ⟨bits, r', -, hloop, htimes, hcursor'⟩ := readBitsLoop_eq depth size (r := r.taken n)
    (hcursor.withReadBits _ (by omega)) (by show 0 < r.bitsReadReadByte + n; omega) hstart
    (by omega) hroom
  have hkept : refillSpent (depth + 2) r = .ok r := if_neg (by omega)
  rw [Nat.zero_add] at hloop htimes
  have hround : readBitsLoop (depth + 2) index size (size + 1) 0 bitContainer r =
      readBitsLoop (depth + 2) index size size n (overwrite bitContainer (index + 0)
        ((r.takenBits n).map fun bit => UInt8.ofNat bit.toNat)) (r.taken n) := by
    rw [readBitsLoop, if_pos hpos, hkept, ok_bind,
      takeReadCells_eq index _ (by omega) (Nat.zero_le size) hcells, ← hn]
    simp only [Nat.zero_add]
  exact ⟨n, _, bits, r', by omega, by omega, by omega, hround.trans hloop, htimes, hcursor'⟩

theorem readBits_eq_loop (depth : Nat) {r : Serial β} (hcursor : r.BitCursor)
    (bitContainer : List UInt8) (index : Nat) {size : Nat} (hsize : size < 2 ^ 31) :
    readBits depth r bitContainer index size =
      readBitsLoop depth index size (size + 1) 0 bitContainer r := by
  unfold readBits
  rw [if_neg (by simp [hcursor.1.bitStream]), if_neg (by omega)]

/-- A block of bits is read from every state. -/
theorem readBits_cursor (depth : Nat) {r : Serial β} (hcursor : r.BitCursor)
    {bitContainer : List UInt8} {index size : Nat} (hcells : index + size ≤ bitContainer.length)
    (hsize : size < 2 ^ 31) :
    ∃ stored r', readBits (depth + 2) r bitContainer index size = .ok (stored, r') ∧
      r'.BitCursor := by
  rw [readBits_eq_loop _ hcursor _ _ hsize]
  by_cases hpos : 0 < r.bitsReadReadByte
  · obtain ⟨bits, r', -, hloop, -, hcursor'⟩ := readBitsLoop_eq depth (size + 1) hcursor hpos
      (Nat.zero_le size) (by omega) hcells
    exact ⟨_, r', hloop, hcursor'⟩
  · by_cases hnone : size = 0
    · subst hnone
      exact ⟨bitContainer, r, rfl, hcursor⟩
    · obtain ⟨-, stored, -, r', -, -, -, hloop, -, hcursor'⟩ := readBitsLoop_stale depth hcursor
        (by omega) (by omega) hcells
      exact ⟨stored, r', hloop, hcursor'⟩

theorem readBit_cursor (depth : Nat) {r : Serial β} (hcursor : r.BitCursor) :
    ∃ bit r', readBit (depth + 2) r = .ok (bit, r') ∧ r'.BitCursor := by
  have hmarker := hcursor.1.marker
  by_cases haligned : r.bitsReadReadByte = 0 ∨ r.bitsReadReadByte = 8
  · have hzero := bitsRead_fetched r
    exact ⟨_, _, readBit_aligned hcursor haligned depth,
      hcursor.fetched.withReadBits r.fetched.currentReadByte (by omega)⟩
  · exact ⟨_, _, readBit_pending (by omega) (by omega) (depth + 1),
      hcursor.withReadBits r.currentReadByte (by omega)⟩

theorem readByteBits_cursor (depth count : Nat) (byte : UInt8) {r : Serial β}
    (hcursor : r.BitCursor) :
    ∃ byte' r', readByteBits (readBit (depth + 2)) count byte r = .ok (byte', r') ∧
      r'.BitCursor := by
  induction count generalizing byte r with
  | zero => exact ⟨byte, r, rfl, hcursor⟩
  | succ count ih =>
      obtain ⟨bit, r₁, hbit, hcursor₁⟩ := readBit_cursor depth hcursor
      obtain ⟨byte', r₂, hrest, hcursor₂⟩ :=
        ih (byte ||| UInt8.ofNat (bit.toNat <<< (8 - (count + 1)))) hcursor₁
      refine ⟨byte', r₂, ?_, hcursor₂⟩
      rw [readByteBits, hbit, ok_bind]
      exact hrest

theorem readByte_cursor (depth : Nat) {r : Serial β} (hcursor : r.BitCursor) :
    ∃ byte r', readByte (depth + 3) r = .ok (byte, r') ∧ r'.BitCursor := by
  have hmarker := hcursor.1.marker
  by_cases haligned : r.bitsReadReadByte = 0 ∨ r.bitsReadReadByte = 8
  · exact ⟨_, _, readByte_aligned hcursor haligned (depth + 1), hcursor.fetched⟩
  · obtain ⟨byte, r', hread, hcursor'⟩ := readByteBits_cursor depth 8 0 hcursor
    refine ⟨byte, r', ?_, hcursor'⟩
    rw [readByte, if_pos ⟨hcursor.1.bitStream, by omega, by omega⟩, hread]

/-- Every read keeps the invariant. -/
theorem BitRead.perform_cursor (depth : Nat) (read : BitRead) {r r' : Serial β}
    {values : List UInt8} (hcursor : r.BitCursor)
    (hread : read.perform (depth + 3) r = .ok (values, r')) : r'.BitCursor := by
  cases read with
  | bit =>
      obtain ⟨bit, r₁, hbit, hcursor₁⟩ := readBit_cursor (depth + 1) hcursor
      rw [BitRead.perform, hbit, ok_bind] at hread
      cases hread
      exact hcursor₁
  | byte =>
      obtain ⟨byte, r₁, hbyte, hcursor₁⟩ := readByte_cursor depth hcursor
      rw [BitRead.perform, hbyte, ok_bind] at hread
      cases hread
      exact hcursor₁
  | bits count =>
      by_cases hsize : count < 2 ^ 31
      · have hcells : 0 + count ≤ (List.replicate count (0 : UInt8)).length := by simp
        obtain ⟨stored, r₁, hbits, hcursor₁⟩ := readBits_cursor (depth + 1) hcursor hcells hsize
        rw [BitRead.perform, hbits] at hread
        cases hread
        exact hcursor₁
      · rw [BitRead.perform, readBits, if_neg (by simp [hcursor.1.bitStream]),
          if_pos (by omega)] at hread
        cases hread

theorem runEach_cursor (depth : Nat) (history : List BitRead) {r r' : Serial β}
    {results : List (List UInt8)} (hcursor : r.BitCursor)
    (hrun : runEach (BitRead.perform (depth + 3)) history r = .ok (results, r')) :
    r'.BitCursor := by
  induction history generalizing r results with
  | nil =>
      cases hrun
      exact hcursor
  | cons read rest ih =>
      obtain ⟨values, r₁, later, hread, hrest, -⟩ := runEach_cons_ok hrun
      exact ih (read.perform_cursor depth hcursor hread) hrest

/-! ## The two ways compared -/

/-- Bits read one by one are the first of the unread ones. -/
theorem readBitTimes_unread (depth count : Nat) {r : Serial β} (hcursor : r.BitCursor)
    (hcount : count ≤ (unreadBits r).length) :
    ∃ r', readBitTimes (depth + 2) count r = .ok ((unreadBits r).take count, r') ∧
      r'.BitCursor ∧ unreadBits r' = (unreadBits r).drop count ∧
      r'.bufferPointer = r.bufferPointer := by
  induction count generalizing r with
  | zero => exact ⟨r, rfl, hcursor, rfl, rfl⟩
  | succ count ih =>
      cases hunread : unreadBits r with
      | nil =>
          rw [hunread, List.length_nil] at hcount
          omega
      | cons bit rest =>
          obtain ⟨r₁, hbit, hreading₁, hunread₁, hsame₁⟩ := readBit_unread hcursor.1 hunread depth
          rw [hunread, List.length_cons] at hcount
          obtain ⟨r₂, hrest, hcursor₂, hunread₂, hmemory₂⟩ :=
            ih ⟨hreading₁, hsame₁.2.1 hcursor.2⟩ (by rw [hunread₁]; omega)
          rw [hunread₁] at hrest hunread₂
          refine ⟨r₂, ?_, hcursor₂, hunread₂, hmemory₂.trans hsame₁.1⟩
          simp only [readBitTimes, hbit, ok_bind, hrest, List.take_succ_cons]

omit [Streambuf β] in
theorem unreadBits_length (r : Serial β) :
    (unreadBits r).length =
      r.currentBits.length + 8 * (r.bufferPointer.length - r.bufferReadIndex.toNat) := by
  rw [unreadBits_eq, List.length_append, unpack_length, List.length_drop]

/-- A reader that is a byte behind another has a block that the other has not. -/
theorem not_continuesAlike (depth : Nat) {r r' : Serial β} (hcursor : r.BitCursor)
    (hcursor' : r'.BitCursor) (hmemory : r.bufferPointer = r'.bufferPointer)
    (hbehind : r.bufferReadIndex < r'.bufferReadIndex) : ¬ContinuesAlike (depth + 1) r r' := by
  have hindex := hcursor.1.index_nonneg
  have hrange := hcursor'.2
  rw [← hmemory] at hrange
  have hlimit := hcursor.1.bufferMode.size_lt
  obtain ⟨bytes, hbytes⟩ : ∃ bytes, bytes = slice r.bufferPointer r.bufferReadIndex.toNat
      (r.bufferPointer.length - r.bufferReadIndex.toNat) := ⟨_, rfl⟩
  have hlength : bytes.length = r.bufferPointer.length - r.bufferReadIndex.toNat := by
    rw [hbytes]
    exact slice_length (by omega)
  have hholds : r.Holds bytes := ⟨hindex, by omega, by rw [hlength, hbytes]⟩
  have hblock := readBytes_buffer hcursor.1.bufferMode hholds depth
    (List.replicate bytes.length 0)
  have hpast : (r'.bufferPointer.length : Int) < r'.bufferReadIndex + bytes.length := by
    rw [← hmemory]
    omega
  have hshort := readBytes_buffer_short hcursor'.1.bufferMode (by omega) hpast depth
    (List.replicate bytes.length 0)
  intro halike
  have hsame := halike [.block bytes.length]
  simp only [runEach, AnyRead.perform, hblock, hshort, ok_bind, Except.map] at hsame
  injection hsame with hsame
  injection hsame with hsame
  have hcount : (bytes.length : Int) = 0 := congrArg Prod.fst hsame
  omega

/-- From the marker zero the reader of `readBits` ends one byte behind. -/
theorem readBits_behind (depth : Nat) {r : Serial β} (hcursor : r.BitCursor)
    (hzero : r.bitsReadReadByte = 0) {bitContainer : List UInt8} {index size : Nat}
    (hpos : 0 < size) (hcells : index + size ≤ bitContainer.length) (hsize : size < 2 ^ 31)
    (hunread : size ≤ (unreadBits r).length) :
    ∃ stored block bits each,
      readBits (depth + 2) r bitContainer index size = .ok (stored, block) ∧
      readBitTimes (depth + 2) size r = .ok (bits, each) ∧
      ¬ContinuesAlike (depth + 2) block each := by
  obtain ⟨n, stored, bits, block, hn, height, hnsize, hloop, htimes, -⟩ :=
    readBitsLoop_stale depth hcursor hzero hpos hcells
  obtain ⟨each, heach, hcursorEach, hunreadEach, hmemoryEach⟩ :=
    readBitTimes_unread depth size hcursor hunread
  have hcursorTaken : (r.taken n).BitCursor := hcursor.withReadBits _ (by omega)
  have hstart : (unreadBits r).length = 8 * (r.bufferPointer.length - r.bufferReadIndex.toNat) := by
    rw [unreadBits_length, currentBits, if_pos (Or.inl hzero), List.length_nil, Nat.zero_add]
  have htaken : (unreadBits (r.taken n)).length = 8 - n + (unreadBits r).length := by
    have hcurrent : (r.taken n).currentBits.length = 8 - n := by
      have hmarker : (r.taken n).bitsReadReadByte = n := by
        show r.bitsReadReadByte + n = n
        omega
      rw [currentBits, hmarker]
      by_cases hall : n = 8
      · rw [if_pos (Or.inr hall), hall]
        rfl
      · rw [if_neg (by omega), List.length_drop, byteBits_length]
    rw [hstart, unreadBits_length, hcurrent]
    rfl
  obtain ⟨block', hblock, hcursorBlock, hunreadBlock, hmemoryBlock⟩ :=
    readBitTimes_unread depth (size - n) hcursorTaken (by omega)
  rw [htimes] at hblock
  cases hblock
  refine ⟨stored, block, _, each, ?_, heach, not_continuesAlike (depth + 1) hcursorBlock
    hcursorEach (hmemoryBlock.trans hmemoryEach.symm) ?_⟩
  · rw [readBits_eq_loop _ hcursor _ _ hsize, hloop]
  · -- eight bits more are left, and fewer than eight are left of a current byte
    have hleft := congrArg List.length hunreadBlock
    have hright := congrArg List.length hunreadEach
    have hshort := currentBits_length hcursorBlock.1.marker
    have hindex := hcursorBlock.1.index_nonneg
    have hindex' := hcursorEach.1.index_nonneg
    have hrange := hcursorBlock.2
    have hrange' := hcursorEach.2
    rw [unreadBits_length, List.length_drop, hmemoryBlock] at hleft
    rw [unreadBits_length, List.length_drop, hmemoryEach] at hright
    rw [hmemoryBlock] at hrange
    rw [hmemoryEach] at hrange'
    have hsame : (r.taken n).bufferPointer = r.bufferPointer := rfl
    rw [hsame] at hleft hrange
    omega

/-- **Blocks of bits.**  In every state that a bit stream over a buffer reaches by reading bits,
bytes and blocks of bits, `readBits` stores what `readBit` would deliver, and leaves a reader that
goes on as after it, exactly if the marker of the current byte is not zero or nothing is read. -/
theorem readBits_agrees_iff (depth : Nat) {memory : List UInt8} (hmemory : memory.length < 2 ^ 63)
    (history : List BitRead) {results : List (List UInt8)} {r : Serial β}
    (hrun : runEach (BitRead.perform (depth + 3)) history (ofBuffer memory true) =
      .ok (results, r))
    {bitContainer : List UInt8} {index size : Nat} (hcells : index + size ≤ bitContainer.length)
    (hsize : size < 2 ^ 31) (hunread : size ≤ (unreadBits r).length) :
    ReadBitsAgrees (depth + 3) r bitContainer index size ↔
      size = 0 ∨ r.bitsReadReadByte ≠ 0 := by
  have hfresh : (ofBuffer memory true : Serial β).BitCursor :=
    ⟨⟨bufferMode_ofBuffer hmemory true, rfl, rfl, Nat.le_refl 8, Int.le_refl 0⟩,
      Int.natCast_nonneg _⟩
  have hcursor := runEach_cursor depth history hfresh hrun
  constructor
  · rintro ⟨bits, block, each, hblock, heach, halike⟩
    by_contra hneither
    rw [not_or, not_not] at hneither
    obtain ⟨hpos, hzero⟩ := hneither
    obtain ⟨stored, block', bits', each', hblock', heach', hnot⟩ := readBits_behind (depth + 1)
      hcursor hzero (by omega) hcells hsize hunread
    rw [hblock] at hblock'
    rw [heach] at heach'
    cases hblock'
    cases heach'
    exact hnot halike
  · intro heither
    by_cases hnone : size = 0
    · subst hnone
      refine ⟨[], r, r, ?_, rfl, fun _ => rfl⟩
      rw [readBits_eq_loop _ hcursor _ _ hsize, List.map_nil, overwrite_nil]
      rfl
    · obtain ⟨bits, r', -, hloop, htimes, -⟩ := readBitsLoop_eq (depth + 1) (size + 1) hcursor
        (by omega) (Nat.zero_le size) (by omega) hcells
      refine ⟨bits, r', r', ?_, htimes, fun _ => rfl⟩
      rw [readBits_eq_loop _ hcursor _ _ hsize]
      exact hloop

end Loop

/-- Two bits, and then four more from the same byte. -/
theorem readBits_agrees_pending :
    ∃ r : Serial Stringbuf,
      runEach (BitRead.perform 3) [.bits 2] (ofBuffer [13] true) = .ok ([[1, 0]], r) ∧
      ReadBitsAgrees 3 r [7, 7, 7, 7, 7] 1 4 := by
  have hmemory : ([13] : List UInt8).length < 2 ^ 63 := by decide
  exact ⟨_, rfl, (readBits_agrees_iff 0 hmemory [.bits 2] rfl (by decide) (by decide)
    (by decide)).mpr (Or.inr (by decide))⟩

/-- After a byte at a byte boundary, `readBits` delivers that byte again. -/
theorem not_readBits_agrees :
    ∃ r block each : Serial Stringbuf,
      runEach (BitRead.perform 3) [.byte] (ofBuffer [3, 0] true) = .ok ([[3]], r) ∧
      (unreadBits r).length = 8 ∧
      readBits 3 r [0, 0] 0 2 = .ok ([1, 1], block) ∧
      readBitTimes 3 2 r = .ok ([false, false], each) ∧ ¬ReadBitsAgrees 3 r [0, 0] 0 2 := by
  refine ⟨_, _, _, rfl, by decide, rfl, rfl, ?_⟩
  rintro ⟨bits, block, each, hblock, heach, -⟩
  cases heach
  cases hblock

end Serial
end Iostreams
