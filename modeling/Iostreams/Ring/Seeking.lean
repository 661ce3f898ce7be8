import Iostreams.Foundation.Seeking
import Iostreams.Ring.Fifo
import Mathlib.Data.Nat.Prime.Basic

/-!
# Seeking in a ring buffer

`seekoff` moves `head` for output and `tail` for input, to any cell.  Whatever
the counters are, a ring buffer whose counters name cells holds the bytes
between them (`InRange.holds`), so that every call finds a state from which it
stays inside its memory and returns.

A relative seek adds the offset to an unsigned counter, and `%` comes after the
wrap: a seek below cell zero adds `2 ^ 64`, which the size of the buffer has to
divide for the cell to be the right one.
-/

namespace Iostreams

open Foundation

namespace Ringbuf

/-! ## `seekoff` -/

/-- Where a counter `own` is moved while the other one is `other`. -/
def seekCell (r : Ringbuf) (own other : Nat) (off : Int) : Seekdir → Nat
  | .beg => toSizeT off % r.ringbufferSize
  | .cur => toSizeT (own + off) % r.ringbufferSize
  | .end_ => other

def seekoff (r : Ringbuf) (off : Int) (way : Seekdir) (which : Openmode) : Int × Ringbuf :=
  if which.output then
    let pos := r.seekCell r.head r.tail off way
    (toInt64 pos, r.setHead pos)
  else if which.input then
    let pos := r.seekCell r.tail r.head off way
    (toInt64 pos, r.setTail pos)
  else (-1, r)

def seekpos (r : Ringbuf) (sp : Int) (which : Openmode) : Int × Ringbuf :=
  r.seekoff sp .beg which

end Ringbuf

/-! ## Calls and their copies -/

/-- A call on a ring buffer that may seek. -/
inductive RingOp where
  | sputn (s : Object)
  | sgetn (n : Streamsize)
  | seekoff (off : Int64) (way : Seekdir) (which : Openmode)
  | seekpos (sp : Int64) (which : Openmode)

/-- A `memcpy` between the ring and the memory of the caller. -/
structure RingCopy where
  ring : Memcpy
  caller : Memcpy
  deriving DecidableEq, Repr

/-- Both sides stay in their objects. -/
def RingCopy.Within (copy : RingCopy) (ringSize callerSize : Nat) : Prop :=
  copy.ring.Within ringSize ∧ copy.caller.Within callerSize

namespace Ringbuf

/-- The two `memcpy` of one chunk between cell `pos` on and offset `done` of the caller. -/
def chunkCopies (r : Ringbuf) (pos done chunk : Nat) : List RingCopy :=
  let end_ := min chunk (r.ringbufferSize - pos)
  ⟨⟨pos, end_⟩, ⟨done, end_⟩⟩ ::
    if end_ < chunk then [⟨⟨0, chunk - end_⟩, ⟨(done + end_ : Nat), chunk - end_⟩⟩] else []

/-- The copies of `write_internal`, round by round. -/
def writeCopies : Nat → Ringbuf → List UInt8 → Nat → Nat → List RingCopy
  | 0, _, _, _, _ => []
  | fuel + 1, r, s, written, fullSpins =>
      if written < s.length then
        let avail := r.availableWrite
        if avail = 0 then
          if r.nonBlocking then
            if 0 < written ∨ 100 < fullSpins then []
            else writeCopies fuel r s written (fullSpins + 1)
          else writeCopies fuel r s written fullSpins
        else
          let chunk := min avail (s.length - written)
          let h := r.head
          let r := r.copyIn h ((s.drop written).take chunk)
          r.chunkCopies h written chunk ++
            writeCopies fuel (r.setHead (r.advance h chunk)) s (written + chunk) fullSpins
      else []

/-- The copies of `read_internal`, round by round. -/
def readCopies : Nat → Ringbuf → Nat → List UInt8 → Nat → List RingCopy
  | 0, _, _, _, _ => []
  | fuel + 1, r, n, bytes, emptySpins =>
      if bytes.length < n then
        let avail := r.availableRead
        if avail = 0 then
          if r.nonBlocking then
            if 0 < bytes.length ∨ 1000000 < emptySpins then []
            else readCopies fuel r n bytes (emptySpins + 1)
          else readCopies fuel r n bytes emptySpins
        else
          let chunk := min avail (n - bytes.length)
          let t := r.tail
          r.chunkCopies t bytes.length chunk ++
            readCopies fuel (r.setTail (r.advance t chunk)) n (bytes ++ r.copyOut t chunk)
              emptySpins
      else []

end Ringbuf

namespace RingOp

/-- The result of a call and the buffer after it. -/
def perform (fuel : Nat) (r : Ringbuf) : RingOp → Option (Int × Ringbuf)
  | .sputn s => r.xsputn fuel s.val
  | .sgetn n => do
      let ((count, _), r) ← r.xsgetn fuel n.val
      return (count, r)
  | .seekoff off way which => some (r.seekoff off.toInt way which)
  | .seekpos sp which => some (r.seekpos sp.toInt which)

def copies (fuel : Nat) (r : Ringbuf) : RingOp → List RingCopy
  | .sputn s => r.writeCopies fuel s.val 0 0
  | .sgetn n => r.readCopies fuel n.val [] 0
  | .seekoff _ _ _ => []
  | .seekpos _ _ => []

/-- The size of the memory the caller passes. -/
def callerSize : RingOp → Nat
  | .sputn s => s.val.length
  | .sgetn n => n.val
  | .seekoff _ _ _ => 0
  | .seekpos _ _ => 0

end RingOp

namespace Ringbuf

/-! ## Counters that name cells -/

structure InRange (r : Ringbuf) : Prop where
  size_pos : 0 < r.ringbufferSize
  size_le : r.ringbufferSize ≤ 2 ^ 63
  head_lt : r.head < r.ringbufferSize
  tail_lt : r.tail < r.ringbufferSize

variable {r : Ringbuf}

theorem Holds.inRange {start : Nat} {items : List UInt8} (hholds : r.Holds start items) :
    r.InRange where
  size_pos := Nat.zero_lt_of_lt hholds.length_lt
  size_le := hholds.size_le
  head_lt := by
    rw [hholds.head_eq]
    exact Nat.mod_lt _ (Nat.zero_lt_of_lt hholds.length_lt)
  tail_lt := by
    rw [hholds.tail_eq]
    exact Nat.mod_lt _ (Nat.zero_lt_of_lt hholds.length_lt)

/-- The bytes from `tail` on up to `head`. -/
def content (r : Ringbuf) : List UInt8 :=
  window r.ringbufferSize r.ringbuffer r.tail r.availableRead

namespace InRange

theorem setHead (hrange : r.InRange) {head : Nat} (hhead : head < r.ringbufferSize) :
    (r.setHead head).InRange :=
  ⟨hrange.size_pos, hrange.size_le, hhead, hrange.tail_lt⟩

theorem setTail (hrange : r.InRange) {tail : Nat} (htail : tail < r.ringbufferSize) :
    (r.setTail tail).InRange :=
  ⟨hrange.size_pos, hrange.size_le, hrange.head_lt, htail⟩

theorem availableRead_eq (hrange : r.InRange) :
    r.availableRead = if r.tail ≤ r.head then r.head - r.tail
      else r.head + r.ringbufferSize - r.tail := by
  rcases hrange with ⟨hpos, hsize, hhead, htail⟩
  have hcast : toSizeT (r.head + r.ringbufferSize - r.tail) =
      r.head + r.ringbufferSize - r.tail := by
    unfold toSizeT
    omega
  rw [availableRead, availableReadAt, hcast]
  split
  · rw [Nat.mod_eq_sub_mod (by omega), Nat.mod_eq_of_lt (by omega)]
    omega
  · exact Nat.mod_eq_of_lt (by omega)

/-- Whatever the counters are, the buffer holds the bytes between them. -/
theorem holds (hrange : r.InRange) : r.Holds r.tail r.content := by
  have havail := hrange.availableRead_eq
  rcases hrange with ⟨hpos, hsize, hhead, htail⟩
  have hlength : r.content.length = r.availableRead := window_length _ _ _ _
  refine ⟨hsize, ?_, (Nat.mod_eq_of_lt htail).symm, ?_, ?_⟩
  · rw [hlength, havail]
    split <;> omega
  · -- the bytes go on from cell zero where `head` lies before `tail`
    rw [hlength, havail]
    split
    · rw [show r.tail + (r.head - r.tail) = r.head by omega, Nat.mod_eq_of_lt hhead]
    · rw [show r.tail + (r.head + r.ringbufferSize - r.tail) = r.head + r.ringbufferSize by omega,
        Nat.add_mod_right, Nat.mod_eq_of_lt hhead]
  · rw [hlength]
    rfl

/-- One cell is free, whatever the counters are. -/
theorem available_add (hrange : r.InRange) :
    r.availableRead + r.availableWrite = r.ringbufferSize - 1 := by
  have hholds := hrange.holds
  have hlt := hholds.length_lt
  rw [hholds.availableRead, hholds.availableWrite]
  omega

theorem availableRead_lt (hrange : r.InRange) : r.availableRead < r.ringbufferSize := by
  have hpos := hrange.size_pos
  have hadd := hrange.available_add
  omega

theorem advance_lt (hrange : r.InRange) (pos chunk : Nat) :
    r.advance pos chunk < r.ringbufferSize :=
  Nat.mod_lt _ hrange.size_pos

theorem seekCell_lt (hrange : r.InRange) {own other : Nat} (hother : other < r.ringbufferSize)
    (off : Int) (way : Seekdir) : r.seekCell own other off way < r.ringbufferSize := by
  cases way with
  | beg => exact Nat.mod_lt _ hrange.size_pos
  | cur => exact Nat.mod_lt _ hrange.size_pos
  | end_ => exact hother

theorem seekoff (hrange : r.InRange) (off : Int) (way : Seekdir) (which : Openmode) :
    (r.seekoff off way which).2.InRange ∧
      (r.seekoff off way which).2.ringbufferSize = r.ringbufferSize ∧
      (r.seekoff off way which).2.nonBlocking = r.nonBlocking := by
  unfold Ringbuf.seekoff
  split
  · exact ⟨hrange.setHead (hrange.seekCell_lt hrange.tail_lt off way), rfl, rfl⟩
  · split
    · exact ⟨hrange.setTail (hrange.seekCell_lt hrange.head_lt off way), rfl, rfl⟩
    · exact ⟨hrange, rfl, rfl⟩

end InRange

/-! ## Copies stay inside -/

/-- A chunk that leaves a cell free and that the caller has is copied inside both objects. -/
theorem chunkCopies_within {pos done chunk callerSize : Nat} (hpos : pos < r.ringbufferSize)
    (hchunk : chunk < r.ringbufferSize) (hdone : done + chunk ≤ callerSize) :
    ∀ copy ∈ r.chunkCopies pos done chunk, copy.Within r.ringbufferSize callerSize := by
  intro copy hcopy
  simp only [chunkCopies, List.mem_cons] at hcopy
  rcases hcopy with rfl | hsecond
  · constructor
    · apply Memcpy.within_of_le
      omega
    · apply Memcpy.within_of_le
      omega
  · split at hsecond
    · -- what does not fit behind the cell goes on from cell zero
      rw [List.mem_singleton] at hsecond
      subst hsecond
      constructor
      · apply @Memcpy.within_of_le 0
        omega
      · apply Memcpy.within_of_le
        omega
    · cases hsecond

/-- The invariant of the loop: the counters name cells and no more is written than there is. -/
theorem writeCopies_within (fuel : Nat) {s : List UInt8} {written : Nat} (hrange : r.InRange)
    (hwritten : written ≤ s.length) (fullSpins : Nat) :
    ∀ copy ∈ r.writeCopies fuel s written fullSpins,
      copy.Within r.ringbufferSize s.length := by
  induction fuel generalizing r written fullSpins with
  | zero =>
      intro copy hcopy
      cases hcopy
  | succ fuel ih =>
      intro copy hcopy
      unfold writeCopies at hcopy
      split at hcopy
      · simp only at hcopy
        split at hcopy
        · -- waiting changes nothing
          split at hcopy
          · split at hcopy
            · cases hcopy
            · exact ih hrange hwritten _ copy hcopy
          · exact ih hrange hwritten _ copy hcopy
        · have hadd := hrange.available_add
          have hpos := hrange.size_pos
          rcases List.mem_append.mp hcopy with hchunk | hlater
          · exact chunkCopies_within hrange.head_lt (show _ < r.ringbufferSize by omega)
              (by omega) copy hchunk
          · have hcopied : (r.copyIn r.head ((s.drop written).take
                (min r.availableWrite (s.length - written)))).InRange :=
              ⟨hpos, hrange.size_le, hrange.head_lt, hrange.tail_lt⟩
            exact ih (hcopied.setHead (hcopied.advance_lt _ _)) (by omega) _ copy hlater
      · cases hcopy

theorem readCopies_within (fuel : Nat) {n : Nat} {bytes : List UInt8} (hrange : r.InRange)
    (hbytes : bytes.length ≤ n) (emptySpins : Nat) :
    ∀ copy ∈ r.readCopies fuel n bytes emptySpins, copy.Within r.ringbufferSize n := by
  induction fuel generalizing r bytes emptySpins with
  | zero =>
      intro copy hcopy
      cases hcopy
  | succ fuel ih =>
      intro copy hcopy
      unfold readCopies at hcopy
      split at hcopy
      · simp only at hcopy
        split at hcopy
        · -- waiting changes nothing
          split at hcopy
          · split at hcopy
            · cases hcopy
            · exact ih hrange hbytes _ copy hcopy
          · exact ih hrange hbytes _ copy hcopy
        · have hlt := hrange.availableRead_lt
          have hholds := hrange.holds
          have hload : (r.copyOut r.tail (min r.availableRead (n - bytes.length))).length =
              min r.availableRead (n - bytes.length) := by
            rw [hholds.copyOut (by rw [← hholds.availableRead]; exact Nat.min_le_left _ _),
              List.length_take, ← hholds.availableRead]
            omega
          rcases List.mem_append.mp hcopy with hchunk | hlater
          · exact chunkCopies_within hrange.tail_lt (by omega) (by omega) copy hchunk
          · refine ih (hrange.setTail (hrange.advance_lt _ _)) ?_ _ copy hlater
            rw [List.length_append, hload]
            omega
      · cases hcopy

/-! ## Runs -/

/-- A call on a buffer whose counters name cells returns, and they name cells afterwards. -/
theorem InRange.perform (hrange : r.InRange) (hmode : r.nonBlocking = true) (op : RingOp)
    {fuel : Nat} (hfuel : waitingRounds ≤ fuel) :
    ∃ result next, op.perform fuel r = some (result, next) ∧ next.InRange ∧
      next.ringbufferSize = r.ringbufferSize ∧ next.nonBlocking = true := by
  have hholds := hrange.holds
  cases op with
  | sputn s =>
      obtain ⟨next, hwrite, hnext, hsize, hnextMode⟩ :=
        hholds.writeInternal hmode rfl s.val hfuel
      have hcall : r.xsputn fuel s.val =
          some (toInt64 (min r.availableWrite s.val.length : Nat), next) := by
        rw [xsputn, hwrite]
        rfl
      exact ⟨_, next, hcall, hnext.inRange, hsize, hnextMode⟩
  | sgetn n =>
      rcases hholds.readInternal hmode n.val hfuel with ⟨next, hread, hnext, hsize, hnextMode⟩
      have hn : toSizeT n.val = n.val := toSizeT_natCast (Nat.lt_trans n.property (by decide))
      have hcall : RingOp.perform fuel r (.sgetn n) =
          some (toInt64 (r.content.take n.val).length, next) := by
        rw [RingOp.perform, xsgetn, hn, hread]
        rfl
      exact ⟨_, next, hcall, hnext.inRange, hsize, hnextMode⟩
  | seekoff off way which =>
      rcases hrange.seekoff off.toInt way which with ⟨hnext, hsize, hnextMode⟩
      exact ⟨_, _, rfl, hnext, hsize, hnextMode.trans hmode⟩
  | seekpos sp which =>
      rcases hrange.seekoff sp.toInt .beg which with ⟨hnext, hsize, hnextMode⟩
      exact ⟨_, _, rfl, hnext, hsize, hnextMode.trans hmode⟩

theorem InRange.copies_within (hrange : r.InRange) (op : RingOp) (fuel : Nat) :
    ∀ copy ∈ op.copies fuel r, copy.Within r.ringbufferSize op.callerSize := by
  cases op with
  | sputn s => exact writeCopies_within fuel hrange (Nat.zero_le _) 0
  | sgetn n => exact readCopies_within fuel hrange (Nat.zero_le _) 0
  | seekoff off way which =>
      intro copy hcopy
      cases hcopy
  | seekpos sp which =>
      intro copy hcopy
      cases hcopy

/-- **Seeking is safe.**  In every run of transfers and seeks the counters name cells, one cell is
free, and every further call returns and copies inside the ring and inside the memory of the
caller. -/
theorem seeking_safe (mem : Region) (husable : ringHeaderSize < mem.totalSize) (ops : List RingOp)
    {fuel : Nat} (hfuel : waitingRounds ≤ fuel) :
    ∃ results r, runCalls (RingOp.perform fuel) (ringbuf mem true) ops = some (results, r) ∧
      r.ringbufferSize = mem.totalSize - ringHeaderSize ∧
      r.head < r.ringbufferSize ∧ r.tail < r.ringbufferSize ∧
      r.availableRead + r.availableWrite = r.ringbufferSize - 1 ∧
      ∀ op : RingOp, (∃ result next, op.perform fuel r = some (result, next)) ∧
        ∀ copy ∈ op.copies fuel r, copy.Within r.ringbufferSize op.callerSize := by
  have hsize : (ringbuf mem true).ringbufferSize = mem.totalSize - ringHeaderSize :=
    if_pos husable
  have hstart : (ringbuf mem true).InRange := (ringbuf_holds mem true).inRange
  obtain ⟨results, r, hrun, hrange, hkept, hmode⟩ := runCalls_preserves
    (fun r : Ringbuf => r.InRange ∧ r.ringbufferSize = mem.totalSize - ringHeaderSize ∧
      r.nonBlocking = true)
    (fun r op hr => by
      obtain ⟨result, next, hperform, hnext, hnextSize, hnextMode⟩ :=
        hr.1.perform hr.2.2 op hfuel
      exact ⟨result, next, hperform, hnext, hnextSize.trans hr.2.1, hnextMode⟩)
    ops ⟨hstart, hsize, rfl⟩
  refine ⟨results, r, hrun, hkept, hrange.head_lt, hrange.tail_lt, hrange.available_add, ?_⟩
  intro op
  rcases hrange.perform hmode op hfuel with ⟨result, next, hperform, -⟩
  exact ⟨⟨result, next, hperform⟩, hrange.copies_within op fuel⟩

/-- Four cells: `tail` is set behind `head`, so that three bytes seem to be there. -/
theorem seeking_safe_sample :
    let mem : Region := ⟨20, fun _ => 0, by decide⟩
    let ops : List RingOp := [.seekoff (-3) .cur ⟨true, false⟩, .sgetn ⟨2, by decide⟩,
      .sputn ⟨[1, 2, 3], by decide⟩]
    ∃ results r, runCalls (RingOp.perform waitingRounds) (ringbuf mem true) ops =
        some (results, r) ∧
      r.ringbufferSize = mem.totalSize - ringHeaderSize ∧
      r.head < r.ringbufferSize ∧ r.tail < r.ringbufferSize ∧
      r.availableRead + r.availableWrite = r.ringbufferSize - 1 ∧
      ∀ op : RingOp, (∃ result next, op.perform waitingRounds r = some (result, next)) ∧
        ∀ copy ∈ op.copies waitingRounds r, copy.Within r.ringbufferSize op.callerSize := by
  intro mem ops
  exact seeking_safe mem (by decide) ops (Nat.le_refl waitingRounds)

/-! ## Relative seeks -/

/-- The counter that a seek moves. -/
def counter (r : Ringbuf) (which : Openmode) : Nat := if which.output then r.head else r.tail

theorem counter_seekoff_beg (r : Ringbuf) {which : Openmode}
    (hwhich : which.input = true ∨ which.output = true) (off : Int) :
    (r.seekoff off .beg which).2.counter which = toSizeT off % r.ringbufferSize := by
  unfold Ringbuf.seekoff counter
  by_cases houtput : which.output = true
  · simp only [if_pos houtput]
    rfl
  · simp only [if_neg houtput, if_pos (hwhich.resolve_right houtput)]
    rfl

theorem counter_seekoff_cur (r : Ringbuf) {which : Openmode}
    (hwhich : which.input = true ∨ which.output = true) (off : Int) :
    (r.seekoff off .cur which).2.counter which =
      toSizeT (r.counter which + off) % r.ringbufferSize := by
  unfold Ringbuf.seekoff counter
  by_cases houtput : which.output = true
  · simp only [if_pos houtput]
    rfl
  · simp only [if_neg houtput, if_pos (hwhich.resolve_right houtput)]
    rfl

theorem ringbufferSize_seekoff (r : Ringbuf) (off : Int) (way : Seekdir) (which : Openmode) :
    (r.seekoff off way which).2.ringbufferSize = r.ringbufferSize := by
  unfold Ringbuf.seekoff
  split
  · rfl
  · split <;> rfl

/-- What the wrap adds to a number in front of `%`. -/
def wrapped (x : Int) : Int := if x < 0 then 2 ^ 64 else 0

theorem cell_wrapped {x : Int} (hlow : -2 ^ 64 ≤ x) (hhigh : x < 2 ^ 64) (size : Nat) :
    ((toSizeT x % size : Nat) : Int) = (x + wrapped x) % size := by
  rw [Int.natCast_emod, toSizeT_eq_add hlow hhigh]
  rfl

/-- What is added does not change the cell exactly if the size divides it. -/
theorem emod_add_eq_iff (x extra : Int) (size : Nat) :
    (x + extra) % size = x % size ↔ (size : Int) ∣ extra := by
  rw [Int.emod_eq_emod_iff_emod_sub_eq_zero, show x + extra - x = extra by omega]
  exact Int.dvd_iff_emod_eq_zero.symm

/-- A size that divides `2 ^ 65` is a power of two, and none is larger than `2 ^ 63`. -/
theorem dvd_of_dvd_double {size : Nat} (hsize : size ≤ 2 ^ 63) (hdvd : size ∣ 2 ^ 65) :
    size ∣ 2 ^ 64 := by
  rcases (Nat.dvd_prime_pow Nat.prime_two).mp hdvd with ⟨k, -, rfl⟩
  have hk : k ≤ 63 := (Nat.pow_le_pow_iff_right (by decide)).mp hsize
  exact pow_dvd_pow 2 (by omega)

theorem dvd_wrapped_iff (x : Int) (size : Nat) :
    (size : Int) ∣ wrapped x ↔ size ∣ 2 ^ 64 ∨ 0 ≤ x := by
  unfold wrapped
  split
  · next hneg =>
      rw [or_iff_left (by omega)]
      exact_mod_cast Iff.rfl
  · next hnonneg =>
      exact iff_of_true (dvd_zero _) (Or.inr (by omega))

/-- Of two steps the first may go below zero only if the size divides what each wrap adds. -/
theorem dvd_wrapped_add_iff {size : Nat} (hsize : size ≤ 2 ^ 63) (x y : Int) :
    (size : Int) ∣ wrapped x + wrapped y ↔ size ∣ 2 ^ 64 ∨ (0 ≤ x ∧ 0 ≤ y) := by
  by_cases hx : 0 ≤ x
  · have hzero : wrapped x = 0 := if_neg (by omega)
    rw [hzero, zero_add, dvd_wrapped_iff]
    simp only [hx, true_and]
  · have hfirst : wrapped x = 2 ^ 64 := if_pos (by omega)
    simp only [hx, false_and, or_false]
    by_cases hy : 0 ≤ y
    · have hzero : wrapped y = 0 := if_neg (by omega)
      rw [hfirst, hzero, add_zero]
      exact_mod_cast Iff.rfl
    · have hsecond : wrapped y = 2 ^ 64 := if_pos (by omega)
      rw [hfirst, hsecond]
      constructor
      · intro hdvd
        have hdouble : (size : Int) ∣ ((2 ^ 65 : Nat) : Int) := by
          have hsum : ((2 ^ 65 : Nat) : Int) = 2 ^ 64 + 2 ^ 64 := by norm_num
          rwa [hsum]
        exact dvd_of_dvd_double hsize (Int.natCast_dvd_natCast.mp hdouble)
      · intro hdvd
        have hone : (size : Int) ∣ 2 ^ 64 := by exact_mod_cast hdvd
        exact Int.dvd_add hone hone

/-- **Relative seeks.**  Two relative seeks move a counter by the sum of the offsets, around the
ring, exactly if the size divides `2 ^ 64` or neither goes below cell zero; an absolute seek names
the cell of its offset exactly if the size divides `2 ^ 64` or the offset is not negative. -/
theorem relativeSeeks_iff (hrange : r.InRange) {which : Openmode}
    (hwhich : which.input = true ∨ which.output = true) (a b : Int64) :
    ((((r.seekoff a.toInt .cur which).2.seekoff b.toInt .cur which).2.counter which : Int) =
        (r.counter which + a.toInt + b.toInt) % r.ringbufferSize ↔
      r.ringbufferSize ∣ 2 ^ 64 ∨ (0 ≤ r.counter which + a.toInt ∧
        0 ≤ (r.counter which + a.toInt) % r.ringbufferSize + b.toInt)) ∧
    (((r.seekoff a.toInt .beg which).2.counter which : Int) = a.toInt % r.ringbufferSize ↔
      r.ringbufferSize ∣ 2 ^ 64 ∨ 0 ≤ a.toInt) := by
  have hpos := hrange.size_pos
  have hsize := hrange.size_le
  have hcounter : r.counter which < r.ringbufferSize := by
    unfold counter
    split
    · exact hrange.head_lt
    · exact hrange.tail_lt
  have halow := a.le_toInt
  have hahigh := a.toInt_lt
  have hblow := b.le_toInt
  have hbhigh := b.toInt_lt
  constructor
  · have hfirst := cell_wrapped (x := r.counter which + a.toInt) (by omega) (by omega)
      r.ringbufferSize
    have hmid : toSizeT (r.counter which + a.toInt) % r.ringbufferSize < r.ringbufferSize :=
      Nat.mod_lt _ hpos
    rw [counter_seekoff_cur _ hwhich, counter_seekoff_cur _ hwhich, ringbufferSize_seekoff,
      cell_wrapped (by omega) (by omega), hfirst]
    -- both wraps together are what the two seeks add to the sum of the offsets
    have htotal : ∀ extra : Int,
        ((r.counter which + a.toInt + wrapped (r.counter which + a.toInt)) % r.ringbufferSize +
          b.toInt + extra) % r.ringbufferSize =
        (r.counter which + a.toInt + b.toInt +
          (wrapped (r.counter which + a.toInt) + extra)) % r.ringbufferSize := by
      intro extra
      rw [add_assoc _ b.toInt, Int.emod_add_emod]
      congr 1
      omega
    rw [htotal, emod_add_eq_iff, dvd_wrapped_add_iff hsize]
    refine or_congr_right (and_congr_right fun hnonneg => ?_)
    have hnone : wrapped (r.counter which + a.toInt) = 0 := if_neg (by omega)
    rw [hnone, add_zero]
  · rw [counter_seekoff_beg _ hwhich, cell_wrapped (by omega) (by omega), emod_add_eq_iff,
      dvd_wrapped_iff]

/-- Three cells: from cell 2 a step forward and one back. -/
theorem relativeSeeks_iff_three :
    let r : Ringbuf := (ringbuf ⟨19, fun _ => 0, by decide⟩ true).setHead 2
    let which : Openmode := ⟨false, true⟩
    let a : Int64 := 1
    let b : Int64 := -1
    ((((r.seekoff a.toInt .cur which).2.seekoff b.toInt .cur which).2.counter which : Int) =
        (r.counter which + a.toInt + b.toInt) % r.ringbufferSize ↔
      r.ringbufferSize ∣ 2 ^ 64 ∨ (0 ≤ r.counter which + a.toInt ∧
        0 ≤ (r.counter which + a.toInt) % r.ringbufferSize + b.toInt)) ∧
    (((r.seekoff a.toInt .beg which).2.counter which : Int) = a.toInt % r.ringbufferSize ↔
      r.ringbufferSize ∣ 2 ^ 64 ∨ 0 ≤ a.toInt) := by
  intro r which a b
  have hrange : r.InRange :=
    (ringbuf_holds ⟨19, fun _ => 0, by decide⟩ true).inRange.setHead (by decide)
  exact relativeSeeks_iff hrange (Or.inr rfl) a b

/-- The step back leads to cell 0: the remainder of `2 ^ 64 - 1`, not of `-1`. -/
theorem not_relativeSeeks :
    let r : Ringbuf := (ringbuf ⟨19, fun _ => 0, by decide⟩ true).setHead 2
    r.InRange ∧
      ((r.seekoff 1 .cur ⟨false, true⟩).2.seekoff (-1) .cur ⟨false, true⟩).2.head = 0 ∧
      ¬(((r.seekoff 1 .cur ⟨false, true⟩).2.seekoff (-1) .cur ⟨false, true⟩).2.head : Int) =
        (r.head + 1 + -1) % r.ringbufferSize := by
  intro r
  have hrange : r.InRange :=
    (ringbuf_holds ⟨19, fun _ => 0, by decide⟩ true).inRange.setHead (by decide)
  exact ⟨hrange, by decide, by decide⟩

end Ringbuf
end Iostreams
