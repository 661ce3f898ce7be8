import Iostreams.Counting.Input

/-!
# Where the counting buffer reads after a seek

A seek of `counting_streambuf` sets `read_pos` to any value, and leaves the get
area alone.  `xsgetn` first empties the get area, wherever that stands, and only
then looks at `read_pos`.  So bulk reads are made at the reported position only
where the get area is used up or happens to stand there, and stay inside the
block only where `read_pos` is not negative.
-/

namespace Iostreams

open Foundation

/-- A bulk read, or a seek of the input. -/
inductive CountingSeekGet where
  | sgetn (n : Streamsize)
  | seekoff (off : Int64) (way : Seekdir)
  | seekpos (sp : Int64)

namespace CountingSeekGet

/-- A seek copies nothing. -/
def seekAnswer (sought : Int × CountingStreambuf) : CountingAnswer × CountingStreambuf :=
  (⟨sought.1, [], []⟩, sought.2)

def perform (fuel : Nat) (b : CountingStreambuf) :
    CountingSeekGet → Option (CountingAnswer × CountingStreambuf)
  | .sgetn n => b.xsgetn fuel n.val
  | .seekoff off way => some (seekAnswer (b.seekoff off.toInt way ⟨true, false⟩))
  | .seekpos sp => some (seekAnswer (b.seekpos sp.toInt ⟨true, false⟩))

/-- The state after a call that returns. -/
def next (fuel : Nat) (b : CountingStreambuf) (call : CountingSeekGet) : CountingStreambuf :=
  ((call.perform fuel b).map Prod.snd).getD b

/-- The position that was reported, until the next bulk read. -/
def sought (answer : CountingAnswer) : CountingSeekGet → Option Int
  | .sgetn _ => none
  | .seekoff _ _ => some answer.result
  | .seekpos _ => some answer.result

/-- The bytes of a block from a position on, as far as there are any. -/
def bytesAt (buf : List UInt8) (position : Int) (n : Nat) : List UInt8 :=
  if 0 ≤ position ∧ position ≤ buf.length then slice buf position.toNat n else []

theorem bytesAt_natCast (buf : List UInt8) (position n : Nat) :
    bytesAt buf position n = slice buf position (min n (buf.length - position)) := by
  have hslice : slice buf position n = slice buf position (min n (buf.length - position)) := by
    rw [slice, slice, ← List.length_drop, ← List.take_eq_take_min]
  rw [← hslice, bytesAt, Int.toNat_natCast]
  by_cases hinside : position ≤ buf.length
  · rw [if_pos (by omega)]
  · rw [if_neg (by omega), slice, List.drop_eq_nil_of_le (by omega), List.take_nil]

theorem length_bytesAt_natCast (buf : List UInt8) (position n : Nat) :
    (bytesAt buf position n).length = min n (buf.length - position) := by
  rw [bytesAt_natCast, slice, List.length_take, List.length_drop]
  omega

/-- A bulk read that follows a seek delivers the bytes at the position that was reported. -/
def ReadsAt (buf : List UInt8) (sought : Option Int) (answer : CountingAnswer) :
    CountingSeekGet → Prop
  | .sgetn n => ∀ position, sought = some position →
      answer.bytes = bytesAt buf position n.val ∧ answer.result = answer.bytes.length
  | .seekoff _ _ => True
  | .seekpos _ => True

/-- Every call of the run returns and touches no byte outside the block, and every bulk read is
made where the seek before it said. -/
def ReadsAtReported (fuel : Nat) (buf : List UInt8) :
    Option Int → CountingStreambuf → List CountingSeekGet → Prop
  | _, _, [] => True
  | sought, b, call :: calls => ∃ answer next, call.perform fuel b = some (answer, next) ∧
      (∀ access ∈ answer.accesses, access.Within buf.length) ∧
      call.ReadsAt buf sought answer ∧
      ReadsAtReported fuel buf (call.sought answer) next calls

/-- The get area stands at `read_pos` or is used up, and an `int` holds what it takes to empty it
unless the read stops before. -/
def InStep (b : CountingStreambuf) : CountingSeekGet → Prop
  | .sgetn n => n.val = 0 ∨ 0 ≤ b.readPos ∧ (b.gptr = b.readPos ∨ b.gptr = b.egptr) ∧
      (n.val ≤ b.bufferSize - b.readPos ∨ b.bufferSize - b.readPos < 2 ^ 31)
  | .seekoff _ _ => True
  | .seekpos _ => True

/-- The buffer is over the block, and `read_pos` is the position that was reported last. -/
structure Reports (b : CountingStreambuf) (buf : List UInt8) (sought : Option Int) : Prop where
  overBlock : b.Over buf
  reported : ∀ position, sought = some position → b.readPos = position

namespace Reports

variable {b : CountingStreambuf} {buf : List UInt8} {sought : Option Int}

theorem seekoff (hreports : Reports b buf sought) (off : Int) (way : Seekdir) :
    let after := b.seekoff off way ⟨true, false⟩
    Reports after.2 buf (some after.1) := by
  rcases hreports with ⟨hover, -⟩
  constructor
  · exact ⟨hover.buffer_eq, hover.bufferSize_eq, hover.egptr_eq, hover.gptr_le,
      hover.totalBytesRead_eq, hover.size_lt⟩
  · intro position hposition
    exact Option.some.inj hposition

theorem sgetn (hreports : Reports b buf sought) {n : Streamsize}
    (hcall : (CountingSeekGet.sgetn n).InStep b) (fuel : Nat) :
    ∃ answer next, b.xsgetn (fuel + 2) n.val = some (answer, next) ∧
      (∀ access ∈ answer.accesses, access.Within buf.length) ∧
      (CountingSeekGet.sgetn n).ReadsAt buf sought answer ∧ Reports next buf none := by
  rcases hreports with ⟨hover, hreported⟩
  have hbufferSize := hover.bufferSize_eq
  rcases hcall with hnone | ⟨hlow, hgptr, hshort⟩
  · -- a read of nothing looks at nothing
    refine ⟨_, _, CountingStreambuf.Over.xsgetnLoop_done (by omega) _, by simp, ?_, hover, nofun⟩
    intro position _
    rw [hnone]
    simp [bytesAt, slice]
  · rcases Int.eq_ofNat_of_zero_le hlow with ⟨position, hposition⟩
    have hloop : n.val ≤ buf.length - position ∨ buf.length - position < 2 ^ 31 := by
      rw [hbufferSize, hposition] at hshort
      omega
    rw [hposition] at hgptr
    obtain ⟨accesses, gptr, hxsgetn, hwithin, hgptrLe, -⟩ :=
      hover.xsgetn_eq hposition hgptr rfl hloop fuel
    refine ⟨_, _, hxsgetn, hwithin, ?_, hover.counted hgptrLe _ _, nofun⟩
    intro reported hsought
    have hat : (position : Int) = reported := hposition.symm.trans (hreported reported hsought)
    rw [← hat, ← bytesAt_natCast]
    refine ⟨rfl, ?_⟩
    show ((min n.val (buf.length - position) : Nat) : Int) = (bytesAt buf position n.val).length
    rw [length_bytesAt_natCast]

theorem perform (hreports : Reports b buf sought) {call : CountingSeekGet}
    (hcall : call.InStep b) (fuel : Nat) :
    ∃ answer next, call.perform (fuel + 2) b = some (answer, next) ∧
      (∀ access ∈ answer.accesses, access.Within buf.length) ∧
      call.ReadsAt buf sought answer ∧ Reports next buf (call.sought answer) := by
  cases call with
  | sgetn n => exact hreports.sgetn hcall fuel
  | seekoff off way =>
      exact ⟨_, _, rfl, by simp, trivial, hreports.seekoff off.toInt way⟩
  | seekpos sp =>
      exact ⟨_, _, rfl, by simp, trivial, hreports.seekoff sp.toInt .beg⟩

theorem readsAtReported (fuel : Nat) {calls : List CountingSeekGet} {b : CountingStreambuf}
    {sought : Option Int} (hreports : Reports b buf sought)
    (hcalls : EachAllowed (next (fuel + 2)) InStep b calls) :
    ReadsAtReported (fuel + 2) buf sought b calls := by
  induction calls generalizing b sought with
  | nil => trivial
  | cons call calls ih =>
      rcases hcalls with ⟨hcall, hrest⟩
      rcases hreports.perform hcall fuel with ⟨answer, after, hperform, hwithin, hreads, hafter⟩
      have hnext : next (fuel + 2) b call = after := by
        rw [next, hperform]
        rfl
      rw [hnext] at hrest
      exact ⟨answer, after, hperform, hwithin, hreads, ih hafter hrest⟩

end Reports

/-- **Reads at the reported position.**  In a run whose bulk reads are each made where the get
area stands at `read_pos`, or is used up, and `read_pos` is not negative, every bulk read
delivers the bytes at the position that the seek before it reported, and no access leaves the
block. -/
theorem reads_at_reported (buf : Object) (calls : List CountingSeekGet) (fuel : Nat)
    (hcalls : EachAllowed (next (fuel + 2)) InStep (countingStreambuf buf) calls) :
    ReadsAtReported (fuel + 2) buf.val none (countingStreambuf buf) calls := by
  have hstart : Reports (countingStreambuf buf) buf.val none :=
    ⟨CountingStreambuf.countingStreambuf_over buf, fun _ hnone => nomatch hnone⟩
  exact hstart.readsAtReported fuel hcalls

/-- Once the block was read to its end, a seek back is followed. -/
theorem reads_at_reported_sample :
    ReadsAtReported 2 [97, 98, 99] none (countingStreambuf ⟨[97, 98, 99], by decide⟩)
      [.sgetn ⟨3, by decide⟩, .seekpos 1, .sgetn ⟨2, by decide⟩] := by
  apply reads_at_reported ⟨[97, 98, 99], by decide⟩ _ 0
  refine ⟨Or.inr ?_, trivial, Or.inr ?_, trivial⟩
  · decide
  · decide

/-- A seek before the block was read to its end is not followed: the first byte is delivered
where the second was sought. -/
theorem not_reads_at_reported :
    let b := countingStreambuf ⟨[97, 98], by decide⟩
    (b.seekpos 1 ⟨true, false⟩).1 = 1 ∧
      ((b.seekpos 1 ⟨true, false⟩).2.xsgetn 2 1).map (fun after => after.1.bytes) = some [97] ∧
      ¬ReadsAtReported 2 [97, 98] none b [.seekpos 1, .sgetn ⟨1, by decide⟩] := by
  refine ⟨by decide, by decide, ?_⟩
  rintro ⟨moved, next, hseek, -, -, answer, final, hsgetn, -, hreads, -⟩
  rcases Prod.mk.inj (Option.some.inj hseek) with ⟨rfl, rfl⟩
  have hfirst : answer.bytes = [97] := by
    have hbytes := congrArg (Option.map fun after => after.1.bytes) hsgetn
    exact (Option.some.inj hbytes).symm
  have hsecond := (hreads 1 rfl).1
  rw [hfirst] at hsecond
  exact absurd hsecond (by decide)

end CountingSeekGet
end Iostreams
