import Iostreams.Counting.Streambuf

/-!
# Reading from the counting buffer

The input side of `counting_streambuf`.  Where reading stands is recorded twice:
in `gptr()`, which the base class moves, and in `read_pos`.  `xsgetn` moves both,
`sbumpc` of the base class only the first and a seek only the second, and
`underflow` sets the first from the second once the get area is used up.  So the
two agree, and the counters with them, only in runs that keep to one of them.
-/

namespace Iostreams

open Foundation

/-- What a call returns, the bytes it copies out and where it reads in the block. -/
structure CountingAnswer where
  result : Int
  bytes : List UInt8
  accesses : List Memcpy
  deriving DecidableEq, Repr

namespace CountingStreambuf

/-- The byte at an offset from `buffer`.  Outside the block, where no access may be, a zero. -/
def charAt (b : CountingStreambuf) (position : Int) : UInt8 :=
  if 0 ≤ position then (b.buffer.getD []).getD position.toNat 0 else 0

def load (b : CountingStreambuf) (position : Int) (count : Nat) : List UInt8 :=
  (List.range count).map fun i : Nat => b.charAt (position + i)

/-- What it returns (`-1` is `eof`), its accesses, and the state. -/
def underflow (b : CountingStreambuf) : Int × List Memcpy × CountingStreambuf :=
  if b.readPos < toInt64 b.bufferSize then
    match b.buffer with
    | some _ =>
        ((b.charAt b.readPos).toNat, [⟨b.readPos, 1⟩],
          { b with gptr := b.readPos, egptr := b.bufferSize })
    | none => (32, [], b)
  else (-1, [], b)

/-- `if (gptr() >= egptr()) if (underflow() == eof()) break`: whether the loop ends here. -/
def refill (b : CountingStreambuf) : Bool × List Memcpy × CountingStreambuf :=
  if b.egptr ≤ b.gptr then
    let (ch, accesses, b) := b.underflow
    (ch == -1, accesses, b)
  else (false, [], b)

/-- `gbump(static_cast<int>(take))`, and the counters. -/
def advance (b : CountingStreambuf) (take : Int) : CountingStreambuf :=
  { b with
    gptr := b.gptr + toInt32 take
    readPos := toInt64 (b.readPos + take)
    totalBytesRead := toInt64 (b.totalBytesRead + take) }

/-- The loop of `xsgetn`; `fuel` bounds how often it goes round. -/
def xsgetnLoop (n : Int) : Nat → CountingStreambuf → Int →
    Option (CountingAnswer × CountingStreambuf)
  | 0, _, _ => none
  | fuel + 1, b, total =>
      if total < n then
        let (ended, accesses, b) := b.refill
        if ended then some (⟨total, [], accesses⟩, b)
        else do
          let avail := b.egptr - b.gptr
          let need := n - total
          let take := if avail < need then avail else need
          let (answer, next) ← xsgetnLoop n fuel (b.advance take) (total + take)
          return (⟨answer.result, b.load b.gptr take.toNat ++ answer.bytes,
            accesses ++ ⟨b.gptr, take.toNat⟩ :: answer.accesses⟩, next)
      else some (⟨total, [], []⟩, b)

def xsgetn (fuel : Nat) (b : CountingStreambuf) (n : Int) :
    Option (CountingAnswer × CountingStreambuf) :=
  xsgetnLoop n fuel b 0

/-- `sgetc()` of the base class: nothing is taken. -/
def sgetc (b : CountingStreambuf) : CountingAnswer × CountingStreambuf :=
  if b.gptr < b.egptr then (⟨(b.charAt b.gptr).toNat, [], [⟨b.gptr, 1⟩]⟩, b)
  else
    let (ch, accesses, b) := b.underflow
    (⟨ch, [], accesses⟩, b)

/-- `setg` with a new get pointer in an area that ends where it did. -/
def setGptr (b : CountingStreambuf) (gptr : Int) : CountingStreambuf := { b with gptr := gptr }

@[simp] theorem setGptr_gptr (b : CountingStreambuf) (gptr : Int) :
    (b.setGptr gptr).gptr = gptr := rfl

@[simp] theorem setGptr_egptr (b : CountingStreambuf) (gptr : Int) :
    (b.setGptr gptr).egptr = b.egptr := rfl

/-- `count` more bytes were read, and the pointers were left at these offsets. -/
def counted (b : CountingStreambuf) (gptr readPos : Int) (count : Nat) : CountingStreambuf :=
  { b with
    gptr := gptr
    readPos := readPos
    totalBytesRead := toInt64 (b.totalBytesRead + count) }

/-- `*gptr()` and `gbump(1)` of the base class. -/
def bump (b : CountingStreambuf) (accesses : List Memcpy) : CountingAnswer × CountingStreambuf :=
  (⟨(b.charAt b.gptr).toNat, [b.charAt b.gptr], accesses ++ [⟨b.gptr, 1⟩]⟩,
    { b with gptr := b.gptr + 1 })

/-- `sbumpc()` of the base class, with its `uflow()`. -/
def sbumpc (b : CountingStreambuf) : CountingAnswer × CountingStreambuf :=
  if b.gptr < b.egptr then b.bump []
  else
    let (ch, accesses, b) := b.underflow
    if ch = -1 then (⟨-1, [], accesses⟩, b) else b.bump accesses

/-! ## The invariant -/

/-- The buffer is over the block, and the get area ends where the block does. -/
structure Over (b : CountingStreambuf) (buf : List UInt8) : Prop where
  buffer_eq : b.buffer = some buf
  bufferSize_eq : b.bufferSize = buf.length
  egptr_eq : b.egptr = buf.length
  gptr_le : b.gptr ≤ buf.length
  totalBytesRead_eq : toInt64 b.totalBytesRead = b.totalBytesRead
  size_lt : buf.length < 2 ^ 63

theorem countingStreambuf_over (buf : Object) : (countingStreambuf buf).Over buf.val :=
  ⟨rfl, rfl, rfl, Int.natCast_nonneg _, rfl, buf.property⟩

variable {b : CountingStreambuf} {buf : List UInt8}

namespace Over

theorem toInt64_bufferSize (hover : b.Over buf) : toInt64 b.bufferSize = buf.length := by
  rw [hover.bufferSize_eq]
  exact toInt64_natCast hover.size_lt

theorem load_eq (hover : b.Over buf) {position count : Nat}
    (hfits : position + count ≤ buf.length) :
    b.load position count = slice buf position count := by
  apply List.ext_getElem
  · rw [load, List.length_map, List.length_range, slice_length hfits]
  · intro i hload hslice
    rw [load, List.length_map, List.length_range] at hload
    have hinside : position + i < buf.length := by omega
    have hchar : b.charAt (position + i : Nat) = buf[position + i] := by
      rw [charAt, if_pos (Int.natCast_nonneg _), hover.buffer_eq, Int.toNat_natCast,
        Option.getD_some]
      exact (List.getElem_eq_getD 0).symm
    simp only [load, slice, List.getElem_map, List.getElem_range, List.getElem_take,
      List.getElem_drop]
    exact hchar

/-- The get area is used up and there is nothing at the position. -/
theorem underflow_eof (hover : b.Over buf) (hend : buf.length ≤ b.readPos) :
    b.underflow = (-1, [], b) := by
  apply if_neg
  rw [hover.toInt64_bufferSize]
  omega

/-- Nothing is left at the position: the loop ends. -/
theorem refill_eof (hover : b.Over buf) (hend : buf.length ≤ b.readPos)
    (hused : b.egptr ≤ b.gptr) : b.refill = (true, [], b) := by
  rw [refill, if_pos hused, hover.underflow_eof hend]
  rfl

/-- At a position of the block the get area begins there, be it rebuilt or still in use. -/
theorem refill_eq (hover : b.Over buf) {position : Nat} (hposition : b.readPos = position)
    (hlt : position < buf.length) (hgptr : b.gptr = position ∨ b.gptr = b.egptr) :
    ∃ accesses, b.refill = (false, accesses, b.setGptr position) ∧
      ∀ access ∈ accesses, access.Within buf.length := by
  have hegptr := hover.egptr_eq
  by_cases hused : b.egptr ≤ b.gptr
  · have hbelow : b.readPos < toInt64 b.bufferSize := by
      rw [hover.toInt64_bufferSize]
      omega
    have hchar : (((b.charAt b.readPos).toNat : Int) == -1) = false := by
      rw [beq_eq_false_iff_ne]
      omega
    have hrebuilt : ({ b with gptr := b.readPos, egptr := b.bufferSize } : CountingStreambuf) =
        b.setGptr position := by
      rw [setGptr, hposition, hover.bufferSize_eq, ← hegptr]
    refine ⟨[⟨b.readPos, 1⟩], ?_, ?_⟩
    · rw [refill, if_pos hused, underflow, if_pos hbelow, ← hrebuilt]
      simp only [hover.buffer_eq, hchar]
    · intro access haccess
      rw [List.mem_singleton.mp haccess, Memcpy.within_iff]
      right
      show 0 ≤ b.readPos ∧ b.readPos + 1 ≤ buf.length
      omega
  · have hat : b.gptr = position := by omega
    refine ⟨[], ?_, by simp⟩
    rw [refill, if_neg hused, setGptr, ← hat]

theorem counted (hover : b.Over buf) {gptr : Int} (hgptr : gptr ≤ buf.length) (readPos : Int)
    (count : Nat) : (b.counted gptr readPos count).Over buf :=
  ⟨hover.buffer_eq, hover.bufferSize_eq, hover.egptr_eq, hgptr, Int.bmod_bmod, hover.size_lt⟩

/-- At the end of the block a character is neither shown nor taken. -/
theorem sgetc_eof (hover : b.Over buf) (hend : buf.length ≤ b.readPos)
    (hused : ¬b.gptr < b.egptr) : b.sgetc = (⟨-1, [], []⟩, b) := by
  rw [CountingStreambuf.sgetc, if_neg hused, hover.underflow_eof hend]

theorem sbumpc_eof (hover : b.Over buf) (hend : buf.length ≤ b.readPos)
    (hused : ¬b.gptr < b.egptr) : b.sbumpc = (⟨-1, [], []⟩, b) := by
  rw [CountingStreambuf.sbumpc, if_neg hused, hover.underflow_eof hend]
  rfl

/-! ## Bulk reads -/

theorem xsgetnLoop_done {n total : Int} (hdone : n ≤ total) (fuel : Nat) :
    xsgetnLoop n (fuel + 1) b total = some (⟨total, [], []⟩, b) :=
  if_neg (by omega)

theorem xsgetnLoop_eof (hover : b.Over buf) {n total : Int} (hrest : total < n)
    (hend : buf.length ≤ b.readPos) (hused : b.egptr ≤ b.gptr) (fuel : Nat) :
    xsgetnLoop n (fuel + 1) b total = some (⟨total, [], []⟩, b) := by
  rw [xsgetnLoop, if_pos hrest, hover.refill_eof hend hused]
  rfl

theorem advance_eq (hover : b.Over buf) {position count : Nat} (hposition : b.readPos = position)
    (hfits : position + count ≤ buf.length) :
    (b.setGptr position).advance count =
      b.counted (position + toInt32 count) (position + count : Nat) count := by
  have hsize := hover.size_lt
  have hsum : toInt64 (position + count : Nat) = (position + count : Nat) :=
    toInt64_natCast (by omega)
  have hreadPos : toInt64 (b.readPos + count) = (position + count : Nat) := by
    rw [hposition, ← Int.natCast_add, hsum]
  simp only [advance, CountingStreambuf.counted, setGptr, hreadPos]

/-- One time round: as much as is wanted, or all that is left. -/
theorem xsgetnLoop_take (hover : b.Over buf) {position n count : Nat}
    (hposition : b.readPos = position) (hlt : position < buf.length) (hpos : 0 < n)
    (hgptr : b.gptr = position ∨ b.gptr = b.egptr) (hcount : count = min n (buf.length - position))
    {fuel : Nat} {answer : CountingAnswer} {next : CountingStreambuf}
    (hloop : xsgetnLoop n fuel (b.counted (position + toInt32 count) (position + count : Nat) count)
      count = some (answer, next))
    (hwithin : ∀ access ∈ answer.accesses, access.Within buf.length) :
    ∃ accesses, b.xsgetn (fuel + 1) n =
        some (⟨answer.result, slice buf position count ++ answer.bytes, accesses⟩, next) ∧
      ∀ access ∈ accesses, access.Within buf.length := by
  rcases hover.refill_eq hposition hlt hgptr with ⟨accesses, hrefill, haccesses⟩
  have hegptr := hover.egptr_eq
  have hwanted : (0 : Int) < n := by omega
  have hfits : position + count ≤ buf.length := by omega
  have htake : (if (buf.length : Int) - position < n - 0 then (buf.length : Int) - position
      else n - 0) = count := by
    split <;> omega
  have hload : (b.setGptr position).load position count = slice buf position count :=
    hover.load_eq hfits
  refine ⟨accesses ++ ⟨position, count⟩ :: answer.accesses, ?_, ?_⟩
  · rw [xsgetn, xsgetnLoop, if_pos hwanted, hrefill]
    simp only [Bool.false_eq_true, if_false, setGptr_gptr, setGptr_egptr, hegptr, htake,
      Int.zero_add, Int.toNat_natCast, hload]
    rw [hover.advance_eq hposition hfits, hloop]
    rfl
  · intro access haccess
    rcases List.mem_append.mp haccess with hfirst | hlater
    · exact haccesses access hfirst
    · rcases List.mem_cons.mp hlater with rfl | hrest
      · exact Memcpy.within_of_le hfits
      · exact hwithin access hrest

/-- Where there is something to take, one time round takes it. -/
theorem xsgetn_take (hover : b.Over buf) {position n count : Nat}
    (hposition : b.readPos = position) (hlt : position < buf.length) (hpos : 0 < n)
    (hgptr : b.gptr = position ∨ b.gptr = b.egptr) (hcount : count = min n (buf.length - position))
    (hshort : n ≤ buf.length - position ∨ buf.length - position < 2 ^ 31) (fuel : Nat) :
    ∃ accesses, b.xsgetn (fuel + 2) n = some (⟨count, slice buf position count, accesses⟩,
        b.counted (position + toInt32 count) (position + count : Nat) count) ∧
      ∀ access ∈ accesses, access.Within buf.length := by
  let next := b.counted (position + toInt32 count) (position + count : Nat) count
  have hloop : xsgetnLoop n (fuel + 1) next count = some (⟨count, [], []⟩, next) := by
    by_cases hwhole : n ≤ buf.length - position
    · exact xsgetnLoop_done (by omega) fuel
    · -- the block was read to its end, and the next time round finds that
      have hall : count = buf.length - position := by omega
      have hint : toInt32 count = count := by
        rw [toInt32_natCast_iff]
        omega
      have hend : position + toInt32 count ≤ buf.length := by
        rw [hint]
        omega
      apply (hover.counted hend _ _).xsgetnLoop_eof
      · omega
      · show (buf.length : Int) ≤ (position + count : Nat)
        omega
      · show b.egptr ≤ position + toInt32 count
        rw [hint, hover.egptr_eq]
        omega
  obtain ⟨accesses, hxsgetn, hwithin⟩ :=
    hover.xsgetnLoop_take hposition hlt hpos hgptr hcount hloop (by simp)
  rw [List.append_nil] at hxsgetn
  exact ⟨accesses, hxsgetn, hwithin⟩

/-- A bulk read where `read_pos` says where the get area stands or the get area is used up:
what is wanted, or what is left there. -/
theorem xsgetn_eq (hover : b.Over buf) {position n count : Nat}
    (hposition : b.readPos = position) (hgptr : b.gptr = position ∨ b.gptr = b.egptr)
    (hcount : count = min n (buf.length - position))
    (hshort : n ≤ buf.length - position ∨ buf.length - position < 2 ^ 31) (fuel : Nat) :
    ∃ accesses gptr, b.xsgetn (fuel + 2) n = some (⟨count, slice buf position count, accesses⟩,
        b.counted gptr (position + count : Nat) count) ∧
      (∀ access ∈ accesses, access.Within buf.length) ∧ gptr ≤ buf.length ∧
      (b.gptr = position → count < 2 ^ 31 → gptr = (position + count : Nat)) := by
  have hegptr := hover.egptr_eq
  by_cases htake : position < buf.length ∧ 0 < n
  · obtain ⟨accesses, hxsgetn, hwithin⟩ :=
      hover.xsgetn_take hposition htake.1 htake.2 hgptr hcount hshort fuel
    have hpos : 0 < (count : Int) := by omega
    have hle := toInt32_le hpos
    refine ⟨accesses, _, hxsgetn, hwithin, by omega, fun _ hint => ?_⟩
    rw [toInt32_natCast_iff.mpr hint, Int.natCast_add]
  · have hnone : count = 0 := by omega
    have hsame : b.counted b.gptr (position + count : Nat) count = b := by
      have htotal := hover.totalBytesRead_eq
      rw [hnone, CountingStreambuf.counted, Int.natCast_zero, Int.add_zero, htotal,
        Nat.add_zero, ← hposition]
    refine ⟨[], b.gptr, ?_, by simp, hover.gptr_le, fun hat _ => ?_⟩
    · rw [hsame, hnone]
      show xsgetnLoop n (fuel + 2) b 0 = some (⟨0, [], []⟩, b)
      by_cases hwanted : 0 < n
      · apply hover.xsgetnLoop_eof
        · omega
        · omega
        · omega
      · exact xsgetnLoop_done (by omega) (fuel + 1)
    · rw [hat, hnone, Nat.add_zero]

end Over
end CountingStreambuf

/-! ## Delivery -/

/-- A call that reads, without a seek. -/
inductive CountingGet where
  | sgetc
  | sbumpc
  | sgetn (n : Streamsize)

namespace CountingGet

def perform (fuel : Nat) (b : CountingStreambuf) :
    CountingGet → Option (CountingAnswer × CountingStreambuf)
  | .sgetc => some b.sgetc
  | .sbumpc => some b.sbumpc
  | .sgetn n => b.xsgetn fuel n.val

/-- What a call returns where nothing is left. -/
def atEnd : CountingGet → Int
  | .sgetc => -1
  | .sbumpc => -1
  | .sgetn _ => 0

/-- How many bytes of a block of `size` bytes are delivered after a call, when there were
`delivered` before it. -/
def delivered (size delivered : Nat) : CountingGet → Nat
  | .sgetc => delivered
  | .sbumpc => delivered + min 1 (size - delivered)
  | .sgetn n => delivered + min n.val (size - delivered)

/-- A character is taken alone only at the end, and no transfer is of `2 ^ 31` bytes or more. -/
def Counted (size delivered : Nat) : CountingGet → Prop
  | .sgetc => True
  | .sbumpc => delivered = size
  | .sgetn n => min n.val (size - delivered) < 2 ^ 31

/-- Every call of the run returns; the bytes that were delivered are always a prefix of the
block, and `bytes_read()` is their number; and where all were, the call reports the end. -/
def DeliversOnce (fuel : Nat) (buf : List UInt8) :
    List UInt8 → CountingStreambuf → List CountingGet → Prop
  | delivered, b, [] => delivered <+: buf ∧ b.bytesRead = delivered.length
  | delivered, b, call :: calls =>
      (delivered <+: buf ∧ b.bytesRead = delivered.length) ∧
        ∃ answer next, call.perform fuel b = some (answer, next) ∧
          (delivered = buf → answer.result = call.atEnd ∧ answer.bytes = []) ∧
          DeliversOnce fuel buf (delivered ++ answer.bytes) next calls

theorem DeliversOnce.start {fuel : Nat} {buf delivered : List UInt8} {b : CountingStreambuf}
    {calls : List CountingGet} (honce : DeliversOnce fuel buf delivered b calls) :
    delivered <+: buf ∧ b.bytesRead = delivered.length := by
  cases calls with
  | nil => exact honce
  | cons call calls => exact honce.1

theorem le_delivered (size delivered : Nat) (call : CountingGet) :
    delivered ≤ call.delivered size delivered := by
  cases call with
  | sgetc => exact Nat.le_refl _
  | sbumpc => exact Nat.le_add_right _ _
  | sgetn n => exact Nat.le_add_right _ _

/-- What a call delivers follows what was delivered before it. -/
theorem take_append_delivered (buf : List UInt8) (count : Nat) (call : CountingGet) :
    buf.take count ++ slice buf count (call.delivered buf.length count - count) =
      buf.take (call.delivered buf.length count) := by
  rw [slice, ← List.take_add, Nat.add_sub_cancel' (call.le_delivered _ _)]

/-- So many bytes were delivered, and all that records it agrees. -/
structure Delivered (b : CountingStreambuf) (buf : List UInt8) (count : Nat) : Prop where
  overBlock : b.Over buf
  count_le : count ≤ buf.length
  gptr_eq : b.gptr = count
  readPos_eq : b.readPos = count
  bytesRead_eq : b.bytesRead = count

namespace Delivered

variable {b : CountingStreambuf} {buf : List UInt8} {count : Nat}

theorem bytesRead_take (hdelivered : Delivered b buf count) :
    buf.take count <+: buf ∧ b.bytesRead = (buf.take count).length := by
  have hle := hdelivered.count_le
  rw [hdelivered.bytesRead_eq, List.length_take, Nat.min_eq_left hle]
  exact ⟨List.take_prefix _ _, rfl⟩

/-- An allowed call delivers what comes next. -/
theorem perform (hdelivered : Delivered b buf count) {call : CountingGet}
    (hcall : call.Counted buf.length count) (fuel : Nat) :
    ∃ answer next, call.perform (fuel + 2) b = some (answer, next) ∧
      answer.bytes = slice buf count (call.delivered buf.length count - count) ∧
      (count = buf.length → answer.result = call.atEnd) ∧
      Delivered next buf (call.delivered buf.length count) := by
  rcases hdelivered with ⟨hover, hle, hgptr, hreadPos, hbytesRead⟩
  have hegptr := hover.egptr_eq
  cases call with
  | sgetc =>
      have hnothing : slice buf count (count - count) = [] := by simp [slice]
      -- nothing is taken, and at the end there is nothing to show
      by_cases harea : b.gptr < b.egptr
      · refine ⟨_, b, congrArg some (if_pos harea), hnothing.symm, fun hend => ?_,
          hover, hle, hgptr, hreadPos, hbytesRead⟩
        omega
      · have hsgetc := hover.sgetc_eof (by omega) harea
        exact ⟨_, b, congrArg some hsgetc, hnothing.symm, fun _ => rfl,
          hover, hle, hgptr, hreadPos, hbytesRead⟩
  | sbumpc =>
      have hend : count = buf.length := hcall
      have hsbumpc := hover.sbumpc_eof (by omega) (by omega)
      have hsame : CountingGet.sbumpc.delivered buf.length count = count := by
        show count + min 1 (buf.length - count) = count
        omega
      rw [hsame]
      exact ⟨_, b, congrArg some hsbumpc, by simp [slice], fun _ => rfl,
        hover, hle, hgptr, hreadPos, hbytesRead⟩
  | sgetn n =>
      have hshort : min n.val (buf.length - count) < 2 ^ 31 := hcall
      have hloop : n.val ≤ buf.length - count ∨ buf.length - count < 2 ^ 31 := by omega
      obtain ⟨accesses, gptr, hxsgetn, -, hgptrLe, hnext⟩ :=
        hover.xsgetn_eq hreadPos (Or.inl hgptr) rfl hloop fuel
      refine ⟨_, _, hxsgetn, ?_, fun hend => ?_, hover.counted hgptrLe _ _, ?_,
        hnext hgptr hshort, rfl, ?_⟩
      · show _ = slice buf count (count + min n.val (buf.length - count) - count)
        rw [Nat.add_sub_cancel_left]
      · show ((min n.val (buf.length - count) : Nat) : Int) = 0
        omega
      · show count + min n.val (buf.length - count) ≤ buf.length
        omega
      · have hsum : count + min n.val (buf.length - count) < 2 ^ 63 := by
          have hsize := hover.size_lt
          omega
        show toInt64 (b.bytesRead + (min n.val (buf.length - count) : Nat)) = _
        rw [hbytesRead, ← Int.natCast_add]
        exact toInt64_natCast hsum

/-- A character that is taken alone is not counted. -/
theorem not_counted (hdelivered : Delivered b buf count) (hlt : count < buf.length) :
    ∃ ch next, CountingStreambuf.sbumpc b = (⟨ch, [b.charAt b.gptr], [⟨b.gptr, 1⟩]⟩, next) ∧
      next.bytesRead = count := by
  have hgptr := hdelivered.gptr_eq
  have hegptr := hdelivered.overBlock.egptr_eq
  have harea : b.gptr < b.egptr := by omega
  exact ⟨_, _, if_pos harea, hdelivered.bytesRead_eq⟩

/-- A run of allowed calls delivers the block once. -/
theorem deliversOnce (fuel : Nat) {calls : List CountingGet} {b : CountingStreambuf} {count : Nat}
    (hdelivered : Delivered b buf count)
    (hcalls : EachAllowed (fun count call => call.delivered buf.length count)
      (fun count call => call.Counted buf.length count) count calls) :
    DeliversOnce (fuel + 2) buf (buf.take count) b calls := by
  induction calls generalizing b count with
  | nil => exact hdelivered.bytesRead_take
  | cons call calls ih =>
      rcases hcalls with ⟨hcall, hrest⟩
      rcases hdelivered.perform hcall fuel with ⟨answer, next, hperform, hbytes, hend, hnext⟩
      have hle := hdelivered.count_le
      have happend := take_append_delivered buf count call
      rw [← hbytes] at happend
      refine ⟨hdelivered.bytesRead_take, answer, next, hperform, fun hall => ?_, ?_⟩
      · have hcount : count = buf.length := by
          have hlength := congrArg List.length hall
          rw [List.length_take] at hlength
          omega
        refine ⟨hend hcount, ?_⟩
        rw [hbytes, hcount, slice, List.drop_length, List.take_nil]
      · rw [happend]
        exact ih hnext hrest

/-- On a block of fewer than `2 ^ 31` bytes only the allowed runs deliver it once. -/
theorem counted_of_deliversOnce (hsmall : buf.length < 2 ^ 31) (fuel : Nat)
    {calls : List CountingGet} {b : CountingStreambuf} {count : Nat}
    (hdelivered : Delivered b buf count)
    (honce : DeliversOnce (fuel + 2) buf (buf.take count) b calls) :
    EachAllowed (fun count call => call.delivered buf.length count)
      (fun count call => call.Counted buf.length count) count calls := by
  induction calls generalizing b count with
  | nil => trivial
  | cons call calls ih =>
      rcases honce with ⟨-, answer, next, hperform, -, hrest⟩
      have hle := hdelivered.count_le
      have hcall : call.Counted buf.length count := by
        cases call with
        | sgetc => trivial
        | sbumpc =>
            -- otherwise a byte is delivered and `bytes_read()` stays
            refine Nat.le_antisymm hle (Nat.not_lt.mp fun hlt => ?_)
            rcases hdelivered.not_counted hlt with ⟨ch, after, hsbumpc, hafter⟩
            have hsame := Option.some.inj (hperform.symm.trans (congrArg some hsbumpc))
            rcases Prod.mk.inj hsame with ⟨rfl, rfl⟩
            have hdelivers := hrest.start.2
            rw [hafter, List.length_append, List.length_take, List.length_singleton] at hdelivers
            omega
        | sgetn n =>
            show min n.val (buf.length - count) < 2 ^ 31
            omega
      rcases hdelivered.perform hcall fuel with ⟨allowed, after, hallowed, hbytes, -, hnext⟩
      rcases Prod.mk.inj (Option.some.inj (hperform.symm.trans hallowed)) with ⟨rfl, rfl⟩
      rw [hbytes, take_append_delivered] at hrest
      exact ⟨hcall, ih hnext hrest⟩

end Delivered

theorem countingStreambuf_delivered (buf : Object) :
    Delivered (countingStreambuf buf) buf.val 0 :=
  ⟨CountingStreambuf.countingStreambuf_over buf, Nat.zero_le _, rfl, rfl, rfl⟩

/-- **One delivery.**  A run of reads whose transfers are short, and which takes characters alone
only when the whole block was delivered, delivers the block once and counts it.  On a block of
fewer than `2 ^ 31` bytes no other run does. -/
theorem delivers_once (buf : Object) (calls : List CountingGet) (fuel : Nat) :
    (EachAllowed (fun count call => call.delivered buf.val.length count)
        (fun count call => call.Counted buf.val.length count) 0 calls →
      DeliversOnce (fuel + 2) buf.val [] (countingStreambuf buf) calls) ∧
    (buf.val.length < 2 ^ 31 →
      DeliversOnce (fuel + 2) buf.val [] (countingStreambuf buf) calls →
      EachAllowed (fun count call => call.delivered buf.val.length count)
        (fun count call => call.Counted buf.val.length count) 0 calls) := by
  have hstart := countingStreambuf_delivered buf
  constructor
  · intro hcalls
    exact hstart.deliversOnce fuel hcalls
  · intro hsmall honce
    exact hstart.counted_of_deliversOnce hsmall fuel honce

theorem delivers_once_sample :
    DeliversOnce 2 [97, 98] [] (countingStreambuf ⟨[97, 98], by decide⟩)
      [.sgetc, .sgetn ⟨1, by decide⟩, .sgetn ⟨5, by decide⟩, .sbumpc] := by
  have hfirst : min 1 (2 - 0) < 2 ^ 31 := by decide
  have hsecond : min 5 (2 - 1) < 2 ^ 31 := by decide
  exact (delivers_once ⟨[97, 98], by decide⟩ _ 0).1 ⟨trivial, hfirst, hsecond, rfl, trivial⟩

/-- A character that was taken alone is not counted, and is delivered once more. -/
theorem not_delivers_once :
    let b := countingStreambuf ⟨[97], by decide⟩
    let (first, b) := b.sbumpc
    first.bytes = [97] ∧ b.bytesRead = 0 ∧
      (b.xsgetn 2 1).map (fun after => (after.1.bytes, after.2.bytesRead)) = some ([97], 1) ∧
      ¬DeliversOnce 2 [97] [] (countingStreambuf ⟨[97], by decide⟩) [.sbumpc] := by
  refine ⟨by decide, by decide, by decide, ?_⟩
  rintro ⟨-, answer, next, hperform, -, hrest⟩
  have hsbumpc : (countingStreambuf ⟨[97], by decide⟩).sbumpc = (answer, next) :=
    Option.some.inj hperform
  have hanswer : _ = answer := congrArg Prod.fst hsbumpc
  have hnext : _ = next := congrArg Prod.snd hsbumpc
  have hcounted := hrest.start.2
  rw [← hanswer, ← hnext] at hcounted
  exact absurd hcounted (by decide)

end CountingGet
end Iostreams
