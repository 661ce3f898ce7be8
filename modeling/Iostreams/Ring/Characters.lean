import Iostreams.Ring.Seeking

/-!
# Single characters of a ring buffer

`ringbuf` overrides `xsputn` and `xsgetn` and neither `overflow` nor `underflow`, and it sets up no
put and no get area.  So `sputc` and `sbumpc` come to the virtual functions of the base class, which
return `eof` whatever the buffer holds.

`PutAgrees` and `GetAgrees` say that a single character is transferred as a transfer of one byte
would.  They hold where that transfer would fail too.  A run that mixes both styles is that of one
queue exactly if characters are put only when the queue is full and taken only when it is empty.
-/

namespace Iostreams

open Foundation

/-- The `int_type` of the first character; `-1` is `eof`. -/
def firstChar : List UInt8 → Int
  | [] => -1
  | c :: _ => c.toNat

namespace Ringbuf

/-! ## The functions of the base class -/

/-- The default `overflow(c)`. -/
def overflow (r : Ringbuf) (_ : UInt8) : Int × Ringbuf := (-1, r)

/-- The default `underflow()`. -/
def underflow (r : Ringbuf) : Int × Ringbuf := (-1, r)

/-- The default `uflow()`: `eof` where `underflow()` returns `eof`. -/
def uflow (r : Ringbuf) : Int × Ringbuf := r.underflow

/-- `sputc(c)` without a put area. -/
def sputc (r : Ringbuf) (c : UInt8) : Int × Ringbuf := r.overflow c

/-- `sbumpc()` without a get area. -/
def sbumpc (r : Ringbuf) : Int × Ringbuf := r.uflow

/-- `sputc(c)` succeeds exactly if `sputn(&c, 1)` would return 1, and leaves the same state. -/
def PutAgrees (fuel : Nat) (r : Ringbuf) (c : UInt8) : Prop :=
  ∃ count next, r.xsputn fuel [c] = some (count, next) ∧
    ((r.sputc c).1 ≠ -1 ↔ count = 1) ∧ (r.sputc c).2 = next

/-- `sbumpc()` returns the byte that `sgetn(buf, 1)` would deliver, or `eof` where it would deliver
none, and leaves the same state. -/
def GetAgrees (fuel : Nat) (r : Ringbuf) : Prop :=
  ∃ count bytes next, r.xsgetn fuel 1 = some ((count, bytes), next) ∧
    r.sbumpc.1 = firstChar bytes ∧ r.sbumpc.2 = next

end Ringbuf

/-! ## Calls -/

/-- A call on a ring buffer, bulk transfers and seeks or single characters. -/
inductive RingUse where
  | bulk (op : RingOp)
  | sputc (c : UInt8)
  | sbumpc

def RingUse.perform (fuel : Nat) (r : Ringbuf) : RingUse → Option (Int × Ringbuf)
  | .bulk op => op.perform fuel r
  | .sputc c => some (r.sputc c)
  | .sbumpc => some r.sbumpc

/-- A transfer in either style. -/
inductive MixedCall where
  | sputn (s : Object)
  | sgetn (n : Streamsize)
  | sputc (c : UInt8)
  | sbumpc

/-- What a transfer returns; for a single character it is an `int_type`. -/
inductive MixedAnswer where
  | bulk (answer : RingAnswer)
  | character (result : Int)
  deriving DecidableEq, Repr

namespace MixedCall

/-- A call that does not return has no answer. -/
def respond (fuel : Nat) (r : Ringbuf) : MixedCall → Option MixedAnswer × Ringbuf
  | .sputn s =>
      match r.call fuel (.sputn s.val) with
      | some (answer, next) => (some (.bulk answer), next)
      | none => (none, r)
  | .sgetn n =>
      match r.call fuel (.sgetn n.val) with
      | some (answer, next) => (some (.bulk answer), next)
      | none => (none, r)
  | .sputc c =>
      let (result, next) := r.sputc c
      (some (.character result), next)
  | .sbumpc =>
      let (result, next) := r.sbumpc
      (some (.character result), next)

/-- What a queue answers in either style. -/
def fifoRespond {capacity : Nat} (queue : BoundedFifo UInt8 capacity) :
    MixedCall → Option MixedAnswer × BoundedFifo UInt8 capacity
  | .sputn s =>
      let (answer, next) := fifoCall queue (.sputn s.val)
      (some (.bulk answer), next)
  | .sgetn n =>
      let (answer, next) := fifoCall queue (.sgetn n.val)
      (some (.bulk answer), next)
  | .sputc c => (some (.character (if 0 < queue.space then c.toNat else -1)), queue.push [c])
  | .sbumpc => (some (.character (firstChar queue.items)), queue.pop 1)

/-- A character is put only into a full buffer and taken only from an empty one. -/
def AtLimit (r : Ringbuf) : MixedCall → Prop
  | .sputn _ => True
  | .sgetn _ => True
  | .sputc _ => r.availableWrite = 0
  | .sbumpc => r.availableRead = 0

end MixedCall

namespace Ringbuf

variable {r : Ringbuf} {fuel : Nat}

/-! ## One character and one byte -/

theorem firstChar_eq_eof {bytes : List UInt8} : firstChar bytes = -1 ↔ bytes = [] := by
  cases bytes with
  | nil => exact iff_of_true rfl rfl
  | cons c bytes =>
      have hchar : firstChar (c :: bytes) ≠ -1 := by
        rw [firstChar]
        omega
      exact iff_of_false hchar (List.cons_ne_nil c bytes)

/-- What `sputn(&c, 1)` returns, and the state where it returns 0. -/
theorem InRange.xsputn_one (hrange : r.InRange) (hmode : r.nonBlocking = true) (c : UInt8)
    (hfuel : waitingRounds ≤ fuel) :
    ∃ next, r.xsputn fuel [c] = some (((min r.availableWrite 1 : Nat) : Int), next) ∧
      (r.availableWrite = 0 → next = r) := by
  by_cases hfull : r.availableWrite = 0
  · have hwrite := writeInternal_full hfull hmode (List.cons_ne_nil c []) (Nat.zero_le 101)
      (Nat.le_trans (by decide) hfuel)
    refine ⟨r, ?_, fun _ => rfl⟩
    rw [xsputn, hwrite, hfull]
    rfl
  · obtain ⟨next, hwrite, -⟩ := hrange.holds.writeInternal hmode rfl [c] hfuel
    refine ⟨next, ?_, fun hnone => absurd hnone hfull⟩
    have hcount : toInt64 (min r.availableWrite 1 : Nat) = (min r.availableWrite 1 : Nat) :=
      toInt64_natCast (by omega)
    rw [xsputn, hwrite, List.length_singleton]
    simp only [Option.bind_eq_bind, Option.bind_some, Option.pure_def, hcount]

/-- What `sgetn(buf, 1)` delivers, and the state where it delivers nothing. -/
theorem InRange.xsgetn_one (hrange : r.InRange) (hmode : r.nonBlocking = true)
    (hfuel : waitingRounds ≤ fuel) :
    ∃ count next, r.xsgetn fuel 1 = some ((count, r.content.take 1), next) ∧
      (r.availableRead = 0 → next = r) := by
  have hone : toSizeT 1 = 1 := toSizeT_natCast (by decide)
  by_cases hempty : r.availableRead = 0
  · have hread := readInternal_empty hempty hmode (Nat.succ_pos 0) (Nat.zero_le 1000001) hfuel
    have hcontent : r.content = [] := by rw [content, hempty, window_zero]
    refine ⟨toInt64 (0 : Nat), r, ?_, fun _ => rfl⟩
    rw [xsgetn, hone, hread, hcontent]
    rfl
  · obtain ⟨next, hread, -⟩ := hrange.holds.readInternal hmode 1 hfuel
    refine ⟨toInt64 (r.content.take 1).length, next, ?_, fun hnone => absurd hnone hempty⟩
    rw [xsgetn, hone, hread]
    rfl

theorem InRange.putAgrees_iff (hrange : r.InRange) (hmode : r.nonBlocking = true) (c : UInt8)
    (hfuel : waitingRounds ≤ fuel) : r.PutAgrees fuel c ↔ r.availableWrite = 0 := by
  obtain ⟨next, hput, hsame⟩ := hrange.xsputn_one hmode c hfuel
  constructor
  · rintro ⟨count, after, hafter, hsucceeds, -⟩
    rw [hput] at hafter
    cases hafter
    -- `sputc` does not succeed, so that `sputn` returns 0
    have hnone : ¬((min r.availableWrite 1 : Nat) : Int) = 1 := fun hone =>
      hsucceeds.mpr hone rfl
    omega
  · intro hfull
    refine ⟨_, next, hput, ?_, (hsame hfull).symm⟩
    have hcount : ((min r.availableWrite 1 : Nat) : Int) ≠ 1 := by omega
    exact iff_of_false (fun hsucceeds => hsucceeds rfl) hcount

theorem InRange.getAgrees_iff (hrange : r.InRange) (hmode : r.nonBlocking = true)
    (hfuel : waitingRounds ≤ fuel) : r.GetAgrees fuel ↔ r.availableRead = 0 := by
  obtain ⟨count, next, hget, hsame⟩ := hrange.xsgetn_one hmode hfuel
  have hlength : r.content.length = r.availableRead := window_length _ _ _ _
  constructor
  · rintro ⟨count', bytes, after, hafter, hchar, -⟩
    rw [hget] at hafter
    cases hafter
    -- `sbumpc` returns `eof`, so that `sgetn` delivers nothing
    have hnone : r.content.take 1 = [] := firstChar_eq_eof.mp hchar.symm
    have htake := congrArg List.length hnone
    rw [List.length_take, List.length_nil] at htake
    omega
  · intro hempty
    have hnone : r.content = [] := List.eq_nil_of_length_eq_zero (hlength.trans hempty)
    refine ⟨count, _, next, hget, ?_, (hsame hempty).symm⟩
    rw [hnone]
    rfl

theorem InRange.performUse (hrange : r.InRange) (hmode : r.nonBlocking = true) (use : RingUse)
    (hfuel : waitingRounds ≤ fuel) :
    ∃ result next, use.perform fuel r = some (result, next) ∧ next.InRange ∧
      next.nonBlocking = true := by
  cases use with
  | bulk op =>
      obtain ⟨result, next, hperform, hnext, -, hnextMode⟩ := hrange.perform hmode op hfuel
      exact ⟨result, next, hperform, hnext, hnextMode⟩
  | sputc c => exact ⟨_, _, rfl, hrange, hmode⟩
  | sbumpc => exact ⟨_, _, rfl, hrange, hmode⟩

/-! ## One queue -/

namespace Represents

variable {capacity : Nat} {queue : BoundedFifo UInt8 capacity}

/-- A bulk call is answered as the queue answers it, a single character only at its limit. -/
theorem respond_iff (hqueue : r.Represents queue) (call : MixedCall)
    (hfuel : waitingRounds ≤ fuel) :
    ((call.respond fuel r).1 = (call.fifoRespond queue).1 ∧
      (call.respond fuel r).2.Represents (call.fifoRespond queue).2) ↔ call.AtLimit r := by
  cases call with
  | sputn s =>
      have hsize : (RingCall.sputn s.val).size < 2 ^ 63 := s.property
      obtain ⟨next, hcall, hnext⟩ := hqueue.call hsize hfuel
      refine iff_of_true ?_ trivial
      rw [MixedCall.respond, hcall]
      exact ⟨rfl, hnext⟩
  | sgetn n =>
      have hsize : (RingCall.sgetn n.val).size < 2 ^ 63 := n.property
      obtain ⟨next, hcall, hnext⟩ := hqueue.call hsize hfuel
      refine iff_of_true ?_ trivial
      rw [MixedCall.respond, hcall]
      exact ⟨rfl, hnext⟩
  | sputc c =>
      rw [MixedCall.AtLimit, hqueue.availableWrite]
      by_cases hfull : queue.space = 0
      · refine iff_of_true ?_ hfull
        rw [MixedCall.fifoRespond, BoundedFifo.push_of_full hfull, hfull]
        exact ⟨rfl, hqueue⟩
      · refine iff_of_false (fun hagree => ?_) hfull
        have hspace : 0 < queue.space := by omega
        have hresult := hagree.1
        rw [MixedCall.fifoRespond, if_pos hspace] at hresult
        -- the queue takes the character, whose `int_type` is not `eof`
        have heof : (-1 : Int) = c.toNat := MixedAnswer.character.inj (Option.some.inj hresult)
        omega
  | sbumpc =>
      rw [MixedCall.AtLimit, hqueue.availableRead, List.length_eq_zero_iff]
      by_cases hempty : queue.items = []
      · refine iff_of_true ?_ hempty
        rw [MixedCall.fifoRespond, BoundedFifo.pop_of_empty hempty, hempty]
        exact ⟨rfl, hqueue⟩
      · refine iff_of_false (fun hagree => ?_) hempty
        have heof : (-1 : Int) = firstChar queue.items :=
          MixedAnswer.character.inj (Option.some.inj hagree.1)
        exact hempty (firstChar_eq_eof.mp heof.symm)

end Represents

/-- The queue of a ring buffer that was just made. -/
theorem ringbuf_represents (mem : Region) :
    (ringbuf mem true).Represents
      (BoundedFifo.empty : BoundedFifo UInt8 ((ringbuf mem true).ringbufferSize - 1)) := by
  have hholds := ringbuf_holds mem true
  have hpos := hholds.length_lt
  exact ⟨rfl, by omega, 0, hholds⟩

/-- **Single characters against transfers of one byte.**  In every state that a non-blocking ring
buffer reaches, `sputc` does what `sputn` does exactly if the buffer is full, and `sbumpc` what
`sgetn` does exactly if it is empty; a run in both styles is that of one queue exactly if every
single character of it is put or taken there. -/
theorem characters_agree_iff (mem : Region) {fuel : Nat} (hfuel : waitingRounds ≤ fuel) :
    (∀ uses : List RingUse, ∃ results r,
      runCalls (RingUse.perform fuel) (ringbuf mem true) uses = some (results, r) ∧
      (∀ c, r.PutAgrees fuel c ↔ r.availableWrite = 0) ∧
      (r.GetAgrees fuel ↔ r.availableRead = 0)) ∧
    ∀ calls : List MixedCall,
      let queue : BoundedFifo UInt8 ((ringbuf mem true).ringbufferSize - 1) := BoundedFifo.empty
      RefinesThroughout (MixedCall.respond fuel) MixedCall.fifoRespond Represents
          (ringbuf mem true) queue calls ↔
        EachAllowed (fun r call => (MixedCall.respond fuel r call).2) MixedCall.AtLimit
          (ringbuf mem true) calls := by
  constructor
  · intro uses
    have hstart : (ringbuf mem true).InRange := (ringbuf_holds mem true).inRange
    obtain ⟨results, r, hrun, hrange, hmode⟩ := runCalls_preserves
      (fun r : Ringbuf => r.InRange ∧ r.nonBlocking = true)
      (fun r use hr => hr.1.performUse hr.2 use hfuel) uses ⟨hstart, rfl⟩
    exact ⟨results, r, hrun, fun c => hrange.putAgrees_iff hmode c hfuel,
      hrange.getAgrees_iff hmode hfuel⟩
  · intro calls queue
    apply refinesThroughout_iff_component _ (ringbuf_represents mem)
    intro r queue call hqueue
    exact hqueue.respond_iff call hfuel

/-- Four cells: a character is refused when three bytes are there, and there is none after they
were taken. -/
theorem characters_agree_iff_limits :
    let mem : Region := ⟨20, fun _ => 0, by decide⟩
    RefinesThroughout (MixedCall.respond waitingRounds) MixedCall.fifoRespond Represents
      (ringbuf mem true)
      (BoundedFifo.empty : BoundedFifo UInt8 ((ringbuf mem true).ringbufferSize - 1))
      [.sputn ⟨[1, 2, 3], by decide⟩, .sputc 4, .sgetn ⟨3, by decide⟩, .sbumpc] := by
  intro mem
  apply ((characters_agree_iff mem (Nat.le_refl waitingRounds)).2 _).mpr
  refine ⟨trivial, ?_, trivial, ?_, trivial⟩
  · show Ringbuf.availableWrite _ = 0
    decide +kernel
  · show Ringbuf.availableRead _ = 0
    decide +kernel

/-- A buffer of four cells that was just made takes a byte, but not a character. -/
theorem not_characters_agree :
    ¬∀ (mem : Region) (fuel : Nat), waitingRounds ≤ fuel →
      (∀ (uses : List RingUse) (results : List Int) (r : Ringbuf),
        runCalls (RingUse.perform fuel) (ringbuf mem true) uses = some (results, r) →
          (∀ c, r.PutAgrees fuel c) ∧ r.GetAgrees fuel) ∧
      ∀ calls : List MixedCall,
        RefinesThroughout (MixedCall.respond fuel) MixedCall.fifoRespond Represents
          (ringbuf mem true)
          (BoundedFifo.empty : BoundedFifo UInt8 ((ringbuf mem true).ringbufferSize - 1))
          calls := by
  intro hclaim
  let mem : Region := ⟨20, fun _ => 0, by decide⟩
  have hrange : (ringbuf mem true).InRange := (ringbuf_holds mem true).inRange
  have hagrees := (hclaim mem waitingRounds (Nat.le_refl _)).1 [] [] (ringbuf mem true) rfl
  have hfull := (hrange.putAgrees_iff rfl 97 (Nat.le_refl _)).mp (hagrees.1 97)
  exact absurd hfull (by decide)

end Ringbuf
end Iostreams
