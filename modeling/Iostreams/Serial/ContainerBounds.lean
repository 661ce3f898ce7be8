import Iostreams.Foundation.Extents
import Iostreams.Serial.BytesLeft

/-!
# How far container decoders go

The helpers for containers read a count and then that many elements, and add each of them; nobody
looks at what a read delivered.  With `r` bytes left and elements of at least `w` bytes they add at
most `r / w` elements, and none whose bytes were not all there, exactly if as many complete
elements as the count announces are left behind it.  Before their end only an exception stops them:
of `reserve`, or of the `operator>>` of an element, where its own length is too large.
-/

namespace Iostreams

open Foundation

/-- How `serial >> v` reads an element of some type into a local `v`: where it ends if its encoding
is complete (`extent`), and what it leaves in any case, unless it throws (`reader`).  Both are the
ones for a reader on which the mismatch of an earlier read may have been acknowledged; what a short
read leaves is not the same on a buffer and on a stream. -/
structure ElementType (β γ α : Type) [ArrivalSource β] [Streambuf γ] where
  get : Reader β γ → Except Halt (α × Reader β γ)
  extent : Bool → Extent UInt8
  width : Nat
  width_pos : 0 < width
  extent_atLeast : ∀ acknowledged, (extent acknowledged).AtLeast width
  reader : (isBuffer acknowledged : Bool) → Extent UInt8
  reader_agrees : ∀ isBuffer acknowledged,
    (extent acknowledged).Agrees (reader isBuffer acknowledged)
  get_throws : ∀ {s : Serial β}, s.Feeding →
    reader s.isBufferSerial s.lastSizeMismatchFlag s.bytesLeft = none →
    ∃ what, get ⟨s, none⟩ = .error (.exception what)
  get_returns : ∀ {s : Serial β} {rest : List UInt8}, s.Feeding →
    reader s.isBufferSerial s.lastSizeMismatchFlag s.bytesLeft = some rest →
    ∃ item s', get ⟨s, none⟩ = .ok (item, ⟨s', none⟩) ∧ s.Leaves rest s'

namespace Reader

variable {β γ α σ : Type}

/-- The element reads of the loop: the reader before each of them and the element it is followed
by, which is added, unless it does not return. -/
def elementReads (get : Reader β γ → Except Halt (α × Reader β γ)) :
    Nat → Reader β γ → List (Reader β γ × Option α)
  | 0, _ => []
  | count + 1, r =>
      match get r with
      | .ok (item, r') => (r, some item) :: elementReads get count r'
      | .error _ => [(r, none)]

/-- `push_back`, `insert` and `kv[k] = v` are called with the elements that were read. -/
theorem getEach_elementReads {get : Reader β γ → Except Halt (α × Reader β γ)}
    {insert : σ → α → σ} {count : Nat} {target target' : σ} {r r' : Reader β γ}
    (hloop : getEach get insert count target r = .ok (target', r')) :
    target' = ((elementReads get count r).filterMap Prod.snd).foldl insert target := by
  induction count generalizing target r with
  | zero =>
      cases hloop
      rfl
  | succ count ih =>
      rw [getEach] at hloop
      rw [elementReads]
      cases hget : get r with
      | error halt =>
          rw [hget] at hloop
          cases hloop
      | ok read =>
          obtain ⟨item, between⟩ := read
          rw [hget] at hloop
          exact ih hloop

variable [Streambuf β] [Streambuf γ]

/-- `size_t size = 0; serial >> size; st.reserve(size);` and the loop, where `reserve` may throw. -/
def deserializeReserved (reserve : Nat → Option String) (depth : Nat)
    (get : Reader β γ → Except Halt (α × Reader β γ)) (insert : σ → α → σ) (target : σ)
    (r : Reader β γ) : Except Halt (σ × Reader β γ) := do
  let (size, r) ← r.getSize depth 0
  match reserve size with
  | some what => .error (.exception what)
  | none => getEach get insert size target r

/-- Its element reads. -/
def reservedReads (reserve : Nat → Option String) (depth : Nat)
    (get : Reader β γ → Except Halt (α × Reader β γ)) (r : Reader β γ) :
    List (Reader β γ × Option α) :=
  match r.getSize depth 0 with
  | .error _ => []
  | .ok (size, r) =>
      match reserve size with
      | some _ => []
      | none => elementReads get size r

def deserializeVectorReserved (reserve : Nat → Option String) (depth : Nat)
    (get : Reader β γ → Except Halt (α × Reader β γ)) (st : List α) (r : Reader β γ) :
    Except Halt (List α × Reader β γ) :=
  deserializeReserved reserve depth get (fun st v => st ++ [v]) st r

/-- Sets and maps reserve nothing. -/
theorem deserializeReserved_none (depth : Nat)
    (get : Reader β γ → Except Halt (α × Reader β γ)) (insert : σ → α → σ) (target : σ) :
    deserializeReserved (fun _ => none) depth get insert target =
      deserializeElements depth get insert target := rfl

end Reader

namespace ElementType

variable {β γ α κ ν σ : Type} [ArrivalSource β] [Streambuf γ]

/-! ## Bounded decoders -/

/-- The bytes left begin with a complete element. -/
def Complete (E : ElementType β γ α) (r : Reader β γ) : Prop :=
  (E.extent r.serial.lastSizeMismatchFlag r.serial.bytesLeft).isSome

/-- With `left` bytes, what a run of a decoder on `target` and its element reads are to be. -/
structure Bounded (E : ElementType β γ α) (left : Nat) (size : σ → Nat) (target : σ)
    (run : Except Halt (σ × Reader β γ)) (reads : List (Reader β γ × Option α)) : Prop where
  grown_le : ∀ target' r, run = .ok (target', r) → size target' ≤ size target + left / E.width
  added_le : (reads.filterMap Prod.snd).length ≤ left / E.width
  reads_le : reads.length ≤ left / E.width + 1
  complete : ∀ r item, (r, some item) ∈ reads → E.Complete r

/-- The announced elements are complete, all of them or up to the first whose read throws. -/
def Guarded (E : ElementType β γ α) (s : Serial β) : Prop :=
  (E.extent s.lastSizeMismatchFlag).Covered (E.reader s.isBufferSerial s.lastSizeMismatchFlag)
    s.announced (s.bytesLeft.drop 8)

/-- Every element that is added was complete exactly if the reads are covered. -/
theorem elementReads_complete_iff (E : ElementType β γ α) {s : Serial β} (hfeeding : s.Feeding)
    (count : Nat) :
    (∀ r item, (r, some item) ∈ Reader.elementReads E.get count ⟨s, none⟩ → E.Complete r) ↔
      (E.extent s.lastSizeMismatchFlag).Covered (E.reader s.isBufferSerial s.lastSizeMismatchFlag)
        count s.bytesLeft := by
  induction count generalizing s with
  | zero => exact iff_of_true (fun _ _ hmem => absurd hmem List.not_mem_nil) trivial
  | succ count ih =>
      rw [Reader.elementReads]
      cases hreader : E.reader s.isBufferSerial s.lastSizeMismatchFlag s.bytesLeft with
      | none =>
          obtain ⟨what, hget⟩ := E.get_throws hfeeding hreader
          rw [hget]
          refine iff_of_true (fun r item hmem => ?_) (Extent.covered_of_none hreader count)
          cases List.mem_singleton.mp hmem
      | some rest =>
          -- the read returns, and what it left in the local is added
          obtain ⟨item, s', hget, hleaves⟩ := E.get_returns hfeeding hreader
          have hrest := ih hleaves.feeding
          rw [hleaves.flag, hleaves.buffer, hleaves.left] at hrest
          rw [hget, Extent.covered_of_some hreader, ← hrest]
          constructor
          · intro hall
            exact ⟨hall ⟨s, none⟩ item List.mem_cons_self, fun r item' hmem =>
              hall r item' (List.mem_cons_of_mem _ hmem)⟩
          · rintro ⟨hfirst, hall⟩ r item' hmem
            rcases List.mem_cons.mp hmem with heq | hmem
            · rw [(Prod.mk.inj heq).1]
              exact hfirst
            · exact hall r item' hmem

/-- Complete elements take their bytes, and at most one read is not followed by an element. -/
theorem elementReads_bounds (E : ElementType β γ α) {s : Serial β} (hfeeding : s.Feeding)
    {count : Nat} (hcovered : (E.extent s.lastSizeMismatchFlag).Covered
      (E.reader s.isBufferSerial s.lastSizeMismatchFlag) count s.bytesLeft) :
    ((Reader.elementReads E.get count ⟨s, none⟩).filterMap Prod.snd).length * E.width ≤
        s.bytesLeft.length ∧
      (Reader.elementReads E.get count ⟨s, none⟩).length ≤
        ((Reader.elementReads E.get count ⟨s, none⟩).filterMap Prod.snd).length + 1 := by
  induction count generalizing s with
  | zero => simp [Reader.elementReads]
  | succ count ih =>
      rw [Reader.elementReads]
      cases hreader : E.reader s.isBufferSerial s.lastSizeMismatchFlag s.bytesLeft with
      | none =>
          obtain ⟨what, hget⟩ := E.get_throws hfeeding hreader
          rw [hget]
          simp
      | some rest =>
          obtain ⟨item, s', hget, hleaves⟩ := E.get_returns hfeeding hreader
          obtain ⟨hcomplete, hmore⟩ := (Extent.covered_of_some hreader count).mp hcovered
          obtain ⟨behind, hextent⟩ := Option.isSome_iff_exists.mp hcomplete
          obtain rfl := E.reader_agrees _ _ _ _ _ hextent hreader
          have hwidth := E.extent_atLeast _ _ _ hextent
          rw [← hleaves.flag, ← hleaves.buffer, ← hleaves.left] at hmore
          obtain ⟨hadded, hreads⟩ := ih hleaves.feeding hmore
          rw [hleaves.left] at hadded
          rw [hget]
          simp only [List.filterMap_cons, List.length_cons, Nat.succ_mul]
          omega

/-- A container does not grow by more than was added. -/
theorem size_foldl_le {insert : σ → α → σ} {size : σ → Nat}
    (hinsert : ∀ target item, size (insert target item) ≤ size target + 1) (items : List α)
    (target : σ) : size (items.foldl insert target) ≤ size target + items.length := by
  induction items generalizing target with
  | nil => exact Nat.le_refl _
  | cons item items ih =>
      have hrest := ih (insert target item)
      have hfirst := hinsert target item
      rw [List.foldl_cons, List.length_cons]
      omega

/-- Behind the count, the announced elements are what is left. -/
theorem guarded_iff (E : ElementType β γ α) (s : Serial β) :
    E.Guarded s ↔ (E.extent s.lastSizeMismatchFlag).Covered
      (E.reader s.isBufferSerial s.lastSizeMismatchFlag) s.announced s.behindCount := by
  unfold Guarded
  by_cases hzero : s.announced = 0
  · rw [hzero]
    exact Iff.rfl
  · rw [Serial.behindCount_of_announced hzero]

/-- The decoder of a container with elements of any type. -/
theorem bounded_iff (E : ElementType β γ α) {insert : σ → α → σ} {size : σ → Nat}
    (hinsert : ∀ target item, size (insert target item) ≤ size target + 1) (target : σ)
    (reserve : Nat → Option String) (depth : Nat) {s : Serial β} (hfeeding : s.Feeding) :
    E.Bounded s.bytesLeft.length size target
        (Reader.deserializeReserved reserve (depth + 1) E.get insert target ⟨s, none⟩)
        (Reader.reservedReads reserve (depth + 1) E.get ⟨s, none⟩) ↔
      (reserve s.announced).isSome ∨ E.Guarded s := by
  obtain ⟨s', hsize, hleaves⟩ := hfeeding.getSize (γ := γ) depth
  have hcovered := E.guarded_iff s
  rw [← hleaves.flag, ← hleaves.buffer, ← hleaves.left] at hcovered
  unfold Reader.deserializeReserved Reader.reservedReads
  rw [hsize, ok_bind]
  simp only
  cases hreserve : reserve s.announced with
  | some what =>
      refine iff_of_true ⟨?_, Nat.zero_le _, Nat.zero_le _, ?_⟩ (Or.inl rfl)
      · intro target' r hrun
        cases hrun
      · intro r item hmem
        cases hmem
  | none =>
      simp only [Option.isSome_none, Bool.false_eq_true, false_or]
      rw [hcovered]
      have hcomplete := E.elementReads_complete_iff hleaves.feeding s.announced
      constructor
      · intro hbounded
        exact hcomplete.mp hbounded.complete
      · intro hguarded
        obtain ⟨hadded, hreads⟩ := E.elementReads_bounds hleaves.feeding hguarded
        have hless := s.behindCount_length_le
        have hle : ((Reader.elementReads E.get s.announced ⟨s', none⟩).filterMap
            Prod.snd).length ≤ s.bytesLeft.length / E.width := by
          rw [Nat.le_div_iff_mul_le E.width_pos]
          rw [hleaves.left] at hadded
          omega
        refine ⟨?_, hle, by omega, hcomplete.mpr hguarded⟩
        intro target' r hrun
        have hgrown := size_foldl_le hinsert ((Reader.elementReads E.get s.announced
          ⟨s', none⟩).filterMap Prod.snd) target
        rw [Reader.getEach_elementReads hrun]
        omega

/-! ## Element types -/

section Types

variable (depth : Nat)

def bool : ElementType β γ Bool where
  get := Reader.getBool (depth + 2)
  extent _ := Extent.block 1
  width := 1
  width_pos := Nat.one_pos
  extent_atLeast _ := Extent.block_atLeast 1
  reader isBuffer _ := Extent.taken isBuffer 1
  reader_agrees isBuffer _ := Extent.agrees_block isBuffer 1
  get_throws := by
    intro s hfeeding hthrows
    obtain ⟨-, -, -, rest, -, hrest, -⟩ :=
      hfeeding.readBytes (show 1 < 2 ^ 63 by norm_num) depth [s.currentReadByte]
    rw [hthrows] at hrest
    cases hrest
  get_returns := by
    intro s rest hfeeding hreader
    obtain ⟨count, dest, s', left, hread, hleft, hleaves⟩ :=
      hfeeding.readBytes (show 1 < 2 ^ 63 by norm_num) depth [s.currentReadByte]
    rw [hreader] at hleft
    obtain rfl := Option.some.inj hleft
    refine ⟨dest.headD 0 != 0, s'.refilled dest, ?_, hleaves.withReadBits (dest.headD 0) 0⟩
    simp only [Reader.getBool, hfeeding.plain, Serial.readByte, hread, ok_bind,
      Bool.false_eq_true, false_and, if_false]
    rfl

/-- A trivially copyable type, and what a local of it holds before. -/
def scalar {size : Nat} (hpos : 0 < size) (hlt : size < 2 ^ 63)
    (indeterminate : { bytes : List UInt8 // bytes.length = size }) :
    ElementType β γ { bytes : List UInt8 // bytes.length = size } where
  get r := do
    let (bytes, r) ← r.getBytes (depth + 1) indeterminate.val
    .ok (Reader.asObject size bytes, r)
  extent _ := Extent.block size
  width := size
  width_pos := hpos
  extent_atLeast _ := Extent.block_atLeast size
  reader isBuffer _ := Extent.taken isBuffer size
  reader_agrees isBuffer _ := Extent.agrees_block isBuffer size
  get_throws := by
    intro s hfeeding hthrows
    obtain ⟨-, -, -, rest, -, hrest, -⟩ := hfeeding.readBytes hlt depth indeterminate.val
    rw [hthrows] at hrest
    cases hrest
  get_returns := by
    intro s rest hfeeding hreader
    obtain ⟨count, dest, s', left, hread, hleft, hleaves⟩ :=
      hfeeding.readBytes hlt depth indeterminate.val
    rw [hreader] at hleft
    obtain rfl := Option.some.inj hleft
    refine ⟨Reader.asObject size dest, s', ?_, hleaves⟩
    simp only [Reader.getBytes, Reader.readInto, indeterminate.property, hread, ok_bind]

/-- A string is left after its length where a mismatch has been acknowledged. -/
def stringExtent (acknowledged : Bool) : Extent UInt8 :=
  Extent.counted 8 leValue fun size => Extent.block (if acknowledged then 0 else size)

theorem stringExtent_atLeast (acknowledged : Bool) : (stringExtent acknowledged).AtLeast 8 :=
  Extent.AtLeast.counted fun _ => (Extent.block_atLeast _).mono (Nat.zero_le _)

/-- The characters of an empty string that is resized, which may throw. -/
def charactersReader (allocation : Reader.StringAllocation) (isBuffer acknowledged : Bool)
    (size : Nat) : Extent UInt8 := fun bytes =>
  if acknowledged then some bytes
  else if 0 < size ∧ (allocation.throws size).isSome then none
  else Extent.taken isBuffer size bytes

theorem agrees_charactersReader (allocation : Reader.StringAllocation)
    (isBuffer acknowledged : Bool) (size : Nat) :
    (Extent.block (if acknowledged then 0 else size)).Agrees
      (charactersReader allocation isBuffer acknowledged size) := by
  intro items rest left hblock hleft
  unfold charactersReader at hleft
  cases acknowledged with
  | true =>
      obtain ⟨-, rfl⟩ := Extent.block_some hblock
      exact (Option.some.inj hleft).symm
  | false =>
      rw [if_neg Bool.false_ne_true] at hleft
      split at hleft
      · cases hleft
      · exact Extent.agrees_block isBuffer size items rest left hblock hleft

/-- The size read by `serial >> size` behind which an encoding goes on. -/
theorem getSize_prefixed {s : Serial β} (hfeeding : s.Feeding) {body : Nat → Extent UInt8}
    {result : Option (List UInt8)}
    (hreader : Extent.prefixed s.isBufferSerial 8 leValue body s.bytesLeft = result) :
    ∃ s' : Serial β, Reader.getSize (depth + 1) 0 (⟨s, none⟩ : Reader β γ) =
        .ok (s.announced, ⟨s', none⟩) ∧
      s.Leaves s.behindCount s' ∧ body s.announced s'.bytesLeft = result := by
  obtain ⟨s', hsize, hleaves⟩ := hfeeding.getSize (γ := γ) depth
  rw [s.prefixed_eq] at hreader
  exact ⟨s', hsize, hleaves, hleaves.left ▸ hreader⟩

theorem string_throws (allocation : Reader.StringAllocation) {s : Serial β} (hfeeding : s.Feeding)
    (hthrows : Extent.prefixed s.isBufferSerial 8 leValue
      (charactersReader allocation s.isBufferSerial s.lastSizeMismatchFlag) s.bytesLeft = none) :
    ∃ what, Reader.deserializeStringWith allocation (depth + 1) [] (⟨s, none⟩ : Reader β γ) =
      .error (.exception what) := by
  obtain ⟨s', hsize, hleaves, hbody⟩ := getSize_prefixed (γ := γ) depth hfeeding hthrows
  unfold charactersReader at hbody
  by_cases hacknowledged : s.lastSizeMismatchFlag = true
  · rw [if_pos hacknowledged] at hbody
    cases hbody
  rw [if_neg hacknowledged] at hbody
  by_cases hlarge : 0 < s.announced ∧ (allocation.throws s.announced).isSome
  · obtain ⟨what, hwhat⟩ := Option.isSome_iff_exists.mp hlarge.2
    have hstands : ¬s'.lastSizeMismatchFlag = true := hleaves.flag ▸ hacknowledged
    refine ⟨what, ?_⟩
    simp only [Reader.deserializeStringWith, List.length_nil, hsize, ok_bind,
      Serial.lastDidNotReadWholeSize, hstands, if_pos hlarge.1, hwhat, Bool.false_eq_true,
      if_false]
  · rw [if_neg hlarge, Extent.taken] at hbody
    split at hbody <;> cases hbody

theorem string_returns (allocation : Reader.StringAllocation) {s : Serial β} {rest : List UInt8}
    (hfeeding : s.Feeding)
    (hreader : Extent.prefixed s.isBufferSerial 8 leValue
      (charactersReader allocation s.isBufferSerial s.lastSizeMismatchFlag) s.bytesLeft =
        some rest) :
    ∃ item s', Reader.deserializeStringWith allocation (depth + 1) [] (⟨s, none⟩ : Reader β γ) =
      .ok (item, ⟨s', none⟩) ∧ s.Leaves rest s' := by
  obtain ⟨s', hsize, hleaves, hbody⟩ := getSize_prefixed (γ := γ) depth hfeeding hreader
  unfold charactersReader at hbody
  by_cases hacknowledged : s.lastSizeMismatchFlag = true
  · rw [if_pos hacknowledged] at hbody
    obtain rfl := Option.some.inj hbody
    have hstands : s'.lastSizeMismatchFlag = true := hleaves.flag.trans hacknowledged
    exact ⟨[], s', Reader.deserializeStringWith_acknowledged hsize hstands,
      hleaves.left ▸ hleaves⟩
  rw [if_neg hacknowledged] at hbody
  have hstands : s'.lastDidNotReadWholeSize = false :=
    hleaves.flag.trans (eq_false_of_ne_true hacknowledged)
  by_cases hlarge : 0 < s.announced ∧ (allocation.throws s.announced).isSome
  · rw [if_pos hlarge] at hbody
    cases hbody
  rw [if_neg hlarge] at hbody
  have hreturns : 0 < s.announced → allocation.throws s.announced = none := fun hpos =>
    Option.not_isSome_iff_eq_none.mp fun hthrows => hlarge ⟨hpos, hthrows⟩
  have hlt : s.announced < 2 ^ 63 := by
    by_contra hnot
    have hthrows := allocation.throws_large s.announced (by omega)
    rw [hreturns (by omega)] at hthrows
    cases hthrows
  obtain ⟨count, dest, s'', left, hread, hleft, hleaves'⟩ :=
    hleaves.feeding.readBytes hlt depth (Reader.resize [] s.announced)
  rw [hleaves.buffer, hbody] at hleft
  obtain rfl := Option.some.inj hleft
  refine ⟨dest, s'', ?_, hleaves.trans hleaves'⟩
  have hcharacters := Reader.deserializeStringWith_sized [] hsize hstands hreturns
  rw [hcharacters]
  simp only [Reader.readInto, hread, ok_bind]

def string (allocation : Reader.StringAllocation) : ElementType β γ (List UInt8) where
  get := Reader.deserializeStringWith allocation (depth + 1) []
  extent := stringExtent
  width := 8
  width_pos := Nat.succ_pos 7
  extent_atLeast := stringExtent_atLeast
  reader isBuffer acknowledged :=
    Extent.prefixed isBuffer 8 leValue (charactersReader allocation isBuffer acknowledged)
  reader_agrees isBuffer acknowledged :=
    Extent.Agrees.counted (agrees_charactersReader allocation isBuffer acknowledged)
  get_throws := string_throws depth allocation
  get_returns := string_returns depth allocation

/-- `serial >> k >> v` -/
def binding (K : ElementType β γ κ) (V : ElementType β γ ν) : ElementType β γ (κ × ν) where
  get := Reader.getBinding K.get V.get
  extent acknowledged := (K.extent acknowledged).andThen (V.extent acknowledged)
  width := K.width + V.width
  width_pos := Nat.add_pos_left K.width_pos _
  extent_atLeast acknowledged := (K.extent_atLeast acknowledged).andThen
    (V.extent_atLeast acknowledged)
  reader isBuffer acknowledged :=
    (K.reader isBuffer acknowledged).andThen (V.reader isBuffer acknowledged)
  reader_agrees isBuffer acknowledged :=
    (K.reader_agrees isBuffer acknowledged).andThen (V.reader_agrees isBuffer acknowledged)
  get_throws := by
    intro s hfeeding hthrows
    cases hkey : K.reader s.isBufferSerial s.lastSizeMismatchFlag s.bytesLeft with
    | none =>
        obtain ⟨what, hget⟩ := K.get_throws hfeeding hkey
        exact ⟨what, by rw [Reader.getBinding, hget]; rfl⟩
    | some between =>
        obtain ⟨key, s', hgetKey, hleaves⟩ := K.get_returns hfeeding hkey
        rw [Extent.andThen_of_some hkey, ← hleaves.flag, ← hleaves.buffer, ← hleaves.left]
          at hthrows
        obtain ⟨what, hget⟩ := V.get_throws hleaves.feeding hthrows
        refine ⟨what, ?_⟩
        rw [Reader.getBinding, hgetKey, ok_bind]
        simp only [hget]
        rfl
  get_returns := by
    intro s rest hfeeding hreader
    obtain ⟨between, hkey, hvalue⟩ := Extent.andThen_some hreader
    obtain ⟨key, s', hgetKey, hleaves⟩ := K.get_returns hfeeding hkey
    rw [← hleaves.flag, ← hleaves.buffer, ← hleaves.left] at hvalue
    obtain ⟨value, s'', hgetValue, hleaves'⟩ := V.get_returns hleaves.feeding hvalue
    refine ⟨(key, value), s'', ?_, hleaves.trans hleaves'⟩
    simp only [Reader.getBinding, hgetKey, hgetValue, ok_bind]

theorem getEach_throws (E : ElementType β γ α) (insert : σ → α → σ) {count : Nat} (target : σ)
    {s : Serial β} (hfeeding : s.Feeding)
    (hthrows : (E.reader s.isBufferSerial s.lastSizeMismatchFlag).times count s.bytesLeft = none) :
    ∃ what, Reader.getEach E.get insert count target ⟨s, none⟩ = .error (.exception what) := by
  induction count generalizing target s with
  | zero => cases hthrows
  | succ count ih =>
      rw [Extent.times] at hthrows
      cases hfirst : E.reader s.isBufferSerial s.lastSizeMismatchFlag s.bytesLeft with
      | none =>
          obtain ⟨what, hget⟩ := E.get_throws hfeeding hfirst
          exact ⟨what, by rw [Reader.getEach, hget]; rfl⟩
      | some between =>
          obtain ⟨item, s', hget, hleaves⟩ := E.get_returns hfeeding hfirst
          rw [Extent.andThen_of_some hfirst, ← hleaves.flag, ← hleaves.buffer, ← hleaves.left]
            at hthrows
          obtain ⟨what, hloop⟩ := ih (insert target item) hleaves.feeding hthrows
          exact ⟨what, by rw [Reader.getEach, hget, ok_bind]; exact hloop⟩

theorem getEach_returns (E : ElementType β γ α) (insert : σ → α → σ) {count : Nat} (target : σ)
    {s : Serial β} {rest : List UInt8} (hfeeding : s.Feeding)
    (htimes : (E.reader s.isBufferSerial s.lastSizeMismatchFlag).times count s.bytesLeft =
      some rest) :
    ∃ target' s', Reader.getEach E.get insert count target ⟨s, none⟩ =
        .ok (target', ⟨s', none⟩) ∧ s.Leaves rest s' := by
  induction count generalizing target s with
  | zero =>
      cases htimes
      exact ⟨target, s, rfl, hfeeding.leaves_self⟩
  | succ count ih =>
      obtain ⟨between, hfirst, hmore⟩ := Extent.andThen_some htimes
      obtain ⟨item, s', hget, hleaves⟩ := E.get_returns hfeeding hfirst
      rw [← hleaves.flag, ← hleaves.buffer, ← hleaves.left] at hmore
      obtain ⟨target', s'', hloop, hleaves'⟩ := ih (insert target item) hleaves.feeding hmore
      refine ⟨target', s'', ?_, hleaves.trans hleaves'⟩
      simp only [Reader.getEach, hget, ok_bind, hloop]

/-- The elements of a container, where `reserve` does not throw. -/
def elementsReader (reserve : Nat → Option String) (each : Extent UInt8) (count : Nat) :
    Extent UInt8 := fun bytes =>
  if (reserve count).isSome then none else each.times count bytes

theorem agrees_elementsReader (E : ElementType β γ α) (reserve : Nat → Option String)
    (isBuffer acknowledged : Bool) (count : Nat) :
    ((E.extent acknowledged).times count).Agrees
      (elementsReader reserve (E.reader isBuffer acknowledged) count) := by
  intro items rest left htimes hleft
  unfold elementsReader at hleft
  split at hleft
  · cases hleft
  · exact (E.reader_agrees isBuffer acknowledged).times count items rest left htimes hleft

theorem container_throws (reserve : Nat → Option String) (E : ElementType β γ α)
    (insert : σ → α → σ) (empty : σ) {s : Serial β} (hfeeding : s.Feeding)
    (hthrows : Extent.prefixed s.isBufferSerial 8 leValue (elementsReader reserve
      (E.reader s.isBufferSerial s.lastSizeMismatchFlag)) s.bytesLeft = none) :
    ∃ what, Reader.deserializeReserved reserve (depth + 1) E.get insert empty ⟨s, none⟩ =
      .error (.exception what) := by
  obtain ⟨s', hsize, hleaves, hbody⟩ := getSize_prefixed (γ := γ) depth hfeeding hthrows
  unfold elementsReader at hbody
  cases hreserve : reserve s.announced with
  | some what =>
      refine ⟨what, ?_⟩
      simp only [Reader.deserializeReserved, hsize, ok_bind, hreserve]
  | none =>
      rw [hreserve, ← hleaves.flag, ← hleaves.buffer] at hbody
      obtain ⟨what, hloop⟩ := E.getEach_throws insert empty hleaves.feeding hbody
      refine ⟨what, ?_⟩
      simp only [Reader.deserializeReserved, hsize, ok_bind, hreserve, hloop]

theorem container_returns (reserve : Nat → Option String) (E : ElementType β γ α)
    (insert : σ → α → σ) (empty : σ) {s : Serial β} {rest : List UInt8} (hfeeding : s.Feeding)
    (hreader : Extent.prefixed s.isBufferSerial 8 leValue (elementsReader reserve
      (E.reader s.isBufferSerial s.lastSizeMismatchFlag)) s.bytesLeft = some rest) :
    ∃ target s', Reader.deserializeReserved reserve (depth + 1) E.get insert empty ⟨s, none⟩ =
      .ok (target, ⟨s', none⟩) ∧ s.Leaves rest s' := by
  obtain ⟨s', hsize, hleaves, hbody⟩ := getSize_prefixed (γ := γ) depth hfeeding hreader
  unfold elementsReader at hbody
  cases hreserve : reserve s.announced with
  | some what =>
      rw [hreserve] at hbody
      cases hbody
  | none =>
      rw [hreserve, ← hleaves.flag, ← hleaves.buffer] at hbody
      obtain ⟨target, s'', hloop, hleaves'⟩ := E.getEach_returns insert empty hleaves.feeding hbody
      refine ⟨target, s'', ?_, hleaves.trans hleaves'⟩
      simp only [Reader.deserializeReserved, hsize, ok_bind, hreserve, hloop]

/-- A container of elements, read into an empty one. -/
def container (reserve : Nat → Option String) (E : ElementType β γ α) (insert : σ → α → σ)
    (empty : σ) : ElementType β γ σ where
  get := Reader.deserializeReserved reserve (depth + 1) E.get insert empty
  extent acknowledged := Extent.counted 8 leValue (E.extent acknowledged).times
  width := 8
  width_pos := Nat.succ_pos 7
  extent_atLeast acknowledged := Extent.AtLeast.counted fun count =>
    ((E.extent_atLeast acknowledged).times count).mono (Nat.zero_le _)
  reader isBuffer acknowledged :=
    Extent.prefixed isBuffer 8 leValue (elementsReader reserve (E.reader isBuffer acknowledged))
  reader_agrees isBuffer acknowledged :=
    Extent.Agrees.counted (E.agrees_elementsReader reserve isBuffer acknowledged)
  get_throws := container_throws depth reserve E insert empty
  get_returns := container_returns depth reserve E insert empty

theorem get_binding {K : ElementType β γ κ} {V : ElementType β γ ν}
    {getKey : Reader β γ → Except Halt (κ × Reader β γ)}
    {getValue : Reader β γ → Except Halt (ν × Reader β γ)} (hkey : K.get = getKey)
    (hvalue : V.get = getValue) : (K.binding V).get = Reader.getBinding getKey getValue := by
  rw [← hkey, ← hvalue]
  rfl

/-- Where nothing is reserved, or `reserve` never throws. -/
theorem get_container {E : ElementType β γ α} {get : Reader β γ → Except Halt (α × Reader β γ)}
    (hget : E.get = get) (insert : σ → α → σ) (empty : σ) :
    (E.container depth (fun _ => none) insert empty).get =
      Reader.deserializeElements (depth + 1) get insert empty := by
  rw [← hget]
  rfl

def vector (reserve : Nat → Option String) (E : ElementType β γ α) : ElementType β γ (List α) :=
  E.container depth reserve (fun st v => st ++ [v]) []

def set (E : ElementType β γ α) (keys : KeyEquiv α) : ElementType β γ (Multiset α) :=
  E.container depth (fun _ => none) (insertKey keys) 0

def map (K : ElementType β γ κ) (V : ElementType β γ ν) (keys : KeyEquiv κ) :
    ElementType β γ (Multiset (κ × ν)) :=
  (K.binding V).container depth (fun _ => none) (assignKey keys) 0

end Types

end ElementType

/-- Every type that can be written is such a type, whatever the strings and vectors of a program
throw when they grow. -/
def Ty.elementType {T : ScalarTypes} {β γ : Type} [ArrivalSource β] [Streambuf γ] (K : Keys T)
    (allocation : Reader.StringAllocation) (reserve : Ty T → Nat → Option String) (depth : Nat) :
    (t : Ty T) → ElementType β γ t.Value
  | .bool => ElementType.bool depth
  | .scalar name =>
      ElementType.scalar (depth + 1) (T.sizeof_pos name) (T.sizeof_lt name) (T.indeterminate name)
  | .string => ElementType.string (depth + 1) allocation
  | .vector element =>
      (element.elementType K allocation reserve depth).vector (depth + 1) (reserve element)
  | .set element =>
      (element.elementType K allocation reserve depth).set (depth + 1) (K.ordered element)
  | .unorderedSet element =>
      (element.elementType K allocation reserve depth).set (depth + 1) (K.hashed element)
  | .map key value =>
      (key.elementType K allocation reserve depth).map (depth + 1)
        (value.elementType K allocation reserve depth) (K.ordered key)
  | .unorderedMap key value =>
      (key.elementType K allocation reserve depth).map (depth + 1)
        (value.elementType K allocation reserve depth) (K.hashed key)

/-- Where memory is not exhausted it is read as the model reads it. -/
theorem Ty.get_elementType {T : ScalarTypes} {β γ : Type} [ArrivalSource β] [Streambuf γ]
    (K : Keys T) (depth : Nat) (t : Ty T) :
    (t.elementType K .objects (fun _ _ => none) depth : ElementType β γ t.Value).get =
      Reader.get K (depth + 2) t t.fresh := by
  induction t with
  | bool => rfl
  | scalar name => rfl
  | string => rfl
  | vector element ih => exact ElementType.get_container (depth + 1) ih _ _
  | set element ih => exact ElementType.get_container (depth + 1) ih _ _
  | unorderedSet element ih => exact ElementType.get_container (depth + 1) ih _ _
  | map key value ihk ihv =>
      exact ElementType.get_container (depth + 1) (ElementType.get_binding ihk ihv) _ _
  | unorderedMap key value ihk ihv =>
      exact ElementType.get_container (depth + 1) (ElementType.get_binding ihk ihv) _ _

/-! ## The containers -/

namespace ElementType

variable {β γ α κ ν : Type} [ArrivalSource β] [Streambuf γ]

/-- **Bounds.**  Whatever bytes are left, a container is decoded within its input exactly if the
announced elements are there, all of them or up to one whose read throws; a vector also if the count
is one that `reserve` does not take. -/
theorem containers_bounded_iff (depth : Nat) (E : ElementType β γ α) (K : ElementType β γ κ)
    (V : ElementType β γ ν) (elements : KeyEquiv α) (keys : KeyEquiv κ) (st : List α)
    (set : Multiset α) (kv : Multiset (κ × ν)) (reserve : Nat → Option String) {s : Serial β}
    (hfeeding : s.Feeding) :
    (E.Bounded s.bytesLeft.length List.length st
        (Reader.deserializeVectorReserved reserve (depth + 1) E.get st ⟨s, none⟩)
        (Reader.reservedReads reserve (depth + 1) E.get ⟨s, none⟩) ↔
      (reserve s.announced).isSome ∨ E.Guarded s) ∧
    (E.Bounded s.bytesLeft.length Multiset.card set
        (Reader.deserializeSet (depth + 1) E.get elements set ⟨s, none⟩)
        (Reader.reservedReads (fun _ => none) (depth + 1) E.get ⟨s, none⟩) ↔ E.Guarded s) ∧
    (E.Bounded s.bytesLeft.length Multiset.card set
        (Reader.deserializeUnorderedSet (depth + 1) E.get elements set ⟨s, none⟩)
        (Reader.reservedReads (fun _ => none) (depth + 1) E.get ⟨s, none⟩) ↔ E.Guarded s) ∧
    ((K.binding V).Bounded s.bytesLeft.length Multiset.card kv
        (Reader.deserializeMap (depth + 1) K.get V.get keys kv ⟨s, none⟩)
        (Reader.reservedReads (fun _ => none) (depth + 1) (K.binding V).get ⟨s, none⟩) ↔
      (K.binding V).Guarded s) ∧
    ((K.binding V).Bounded s.bytesLeft.length Multiset.card kv
        (Reader.deserializeUnorderedMap (depth + 1) K.get V.get keys kv ⟨s, none⟩)
        (Reader.reservedReads (fun _ => none) (depth + 1) (K.binding V).get ⟨s, none⟩) ↔
      (K.binding V).Guarded s) := by
  have hset := E.bounded_iff (card_insertKey_le elements) set (fun _ => none) depth hfeeding
  have hmap := (K.binding V).bounded_iff (card_assignKey_le keys) kv (fun _ => none) depth hfeeding
  rw [Option.isSome_none, Reader.deserializeReserved_none] at hset hmap
  simp only [Bool.false_eq_true, false_or] at hset hmap
  refine ⟨?_, hset, hset, hmap, hmap⟩
  exact E.bounded_iff (fun st v => by rw [List.length_append, List.length_singleton]) st reserve
    depth hfeeding

/-- Two announced booleans, and both are there; one announced string of `2 ^ 64 - 1` characters,
which is not. -/
theorem containers_bounded_both :
    (ElementType.bool 0).Bounded 10 List.length []
        (Reader.deserializeVectorReserved (fun _ => none) 1 (ElementType.bool 0).get []
          (⟨Serial.ofBuffer [2, 0, 0, 0, 0, 0, 0, 0, 1, 0] false, none⟩ :
            Reader Stringbuf Stringbuf))
        (Reader.reservedReads (fun _ => none) 1 (ElementType.bool 0).get
          ⟨Serial.ofBuffer [2, 0, 0, 0, 0, 0, 0, 0, 1, 0] false, none⟩) ∧
      (ElementType.string 0 .objects).Bounded 16 List.length []
        (Reader.deserializeVectorReserved (fun _ => none) 1 (ElementType.string 0 .objects).get []
          (⟨Serial.ofBuffer [1, 0, 0, 0, 0, 0, 0, 0, 255, 255, 255, 255, 255, 255, 255, 255] false,
            none⟩ : Reader Stringbuf Stringbuf))
        (Reader.reservedReads (fun _ => none) 1 (ElementType.string 0 .objects).get
          ⟨Serial.ofBuffer [1, 0, 0, 0, 0, 0, 0, 0, 255, 255, 255, 255, 255, 255, 255, 255] false,
            none⟩) := by
  constructor
  · have hfeeding : (Serial.ofBuffer [2, 0, 0, 0, 0, 0, 0, 0, 1, 0] false :
        Serial Stringbuf).Feeding := Serial.feeding_ofBuffer (by decide)
    exact (containers_bounded_iff 0 (ElementType.bool 0) (ElementType.bool 0) (ElementType.bool 0)
      KeyEquiv.ofEq KeyEquiv.ofEq [] 0 0 (fun _ => none) hfeeding).1.mpr
      (Or.inr ⟨rfl, rfl, trivial⟩)
  · have hfeeding : (Serial.ofBuffer
        [1, 0, 0, 0, 0, 0, 0, 0, 255, 255, 255, 255, 255, 255, 255, 255] false :
          Serial Stringbuf).Feeding := Serial.feeding_ofBuffer (by decide)
    exact (containers_bounded_iff 0 (ElementType.string 0 .objects) (ElementType.bool 0)
      (ElementType.bool 0) KeyEquiv.ofEq KeyEquiv.ofEq [] 0 0 (fun _ => none) hfeeding).1.mpr
      (Or.inr trivial)

/-- Three announced strings of at least eight bytes, and nothing behind the count. -/
theorem not_containers_bounded :
    (Reader.deserializeVector 1 (ElementType.string 0 .objects).get []
        (⟨Serial.ofBuffer [3, 0, 0, 0, 0, 0, 0, 0] false, none⟩ :
          Reader Stringbuf Stringbuf)).map Prod.fst = .ok [[], [], []] ∧
      ¬(ElementType.string 0 .objects).Bounded 8 List.length []
        (Reader.deserializeVectorReserved (fun _ => none) 1 (ElementType.string 0 .objects).get []
          (⟨Serial.ofBuffer [3, 0, 0, 0, 0, 0, 0, 0] false, none⟩ :
            Reader Stringbuf Stringbuf))
        (Reader.reservedReads (fun _ => none) 1 (ElementType.string 0 .objects).get
          ⟨Serial.ofBuffer [3, 0, 0, 0, 0, 0, 0, 0] false, none⟩) := by
  refine ⟨by decide +kernel, fun hbounded => ?_⟩
  exact absurd hbounded.added_le (by decide +kernel)

end ElementType

end Iostreams
