import Iostreams.Foundation.BoundedFifo
import Iostreams.Foundation.Run
import Iostreams.Ring.Buffer

/-!
# A ring buffer used by one thread is a bounded queue

`call` makes one `sputn` or `sgetn` on a ring buffer and notes everything the
caller can see after it; `fifoCall` says what a queue of capacity
`ringbuffer_size - 1` answers.  A non-blocking ring buffer that holds the items of
a queue answers as the queue does, and then holds the items of the next queue.
The rounds that a full or empty buffer spends waiting are bounded by
`waitingRounds`.
-/

namespace Iostreams

open Foundation

/-- The rounds after which a loop that waits in vain has stopped. -/
def waitingRounds : Nat := 1000002

/-- A call of one thread. -/
inductive RingCall where
  | sputn (s : List UInt8)
  | sgetn (n : Nat)

/-- The size the caller asks for. -/
def RingCall.size : RingCall → Nat
  | .sputn s => s.length
  | .sgetn n => n

/-- What the caller sees of a call and just after it. -/
structure RingAnswer where
  count : Int
  bytes : List UInt8
  availableRead : Nat
  availableWrite : Nat
deriving DecidableEq, Repr

namespace Ringbuf

def call (fuel : Nat) (r : Ringbuf) : RingCall → Option (RingAnswer × Ringbuf)
  | .sputn s => do
      let (count, r) ← r.xsputn fuel s
      return (⟨count, [], r.availableRead, r.availableWrite⟩, r)
  | .sgetn n => do
      let ((count, bytes), r) ← r.xsgetn fuel n
      return (⟨count, bytes, r.availableRead, r.availableWrite⟩, r)

end Ringbuf

/-- The answer of a bounded queue. -/
def fifoCall {capacity : Nat} (queue : BoundedFifo UInt8 capacity) :
    RingCall → RingAnswer × BoundedFifo UInt8 capacity
  | .sputn s =>
      let next := queue.push s
      (⟨min s.length queue.space, [], next.items.length, next.space⟩, next)
  | .sgetn n =>
      let next := queue.pop n
      (⟨min n queue.items.length, queue.items.take n, next.items.length, next.space⟩, next)

namespace Ringbuf

variable {r : Ringbuf} {start : Nat} {items : List UInt8}

/-! ## Waiting in vain -/

theorem writeInternal_full (hfull : r.availableWrite = 0) (hmode : r.nonBlocking = true)
    {s : List UInt8} (hs : s ≠ []) {fuel fullSpins : Nat} (hspins : fullSpins ≤ 101)
    (hfuel : 102 ≤ fuel + fullSpins) : writeInternal fuel r s 0 fullSpins = some (0, r) := by
  have hlength : 0 < s.length := List.length_pos_iff.mpr hs
  induction fuel generalizing fullSpins with
  | zero => omega
  | succ fuel ih =>
      by_cases hstop : 100 < fullSpins
      · simp [writeInternal, hlength, hfull, hmode, hstop]
      · simp only [writeInternal, hlength, hfull, hmode, hstop, if_true, Nat.lt_irrefl, or_self,
          if_false]
        exact ih (by omega) (by omega)

theorem readInternal_empty (hempty : r.availableRead = 0) (hmode : r.nonBlocking = true)
    {n : Nat} (hn : 0 < n) {fuel emptySpins : Nat} (hspins : emptySpins ≤ 1000001)
    (hfuel : 1000002 ≤ fuel + emptySpins) :
    readInternal fuel r n [] emptySpins = some ([], r) := by
  induction fuel generalizing emptySpins with
  | zero => omega
  | succ fuel ih =>
      by_cases hstop : 1000000 < emptySpins
      · simp [readInternal, hn, hempty, hmode, hstop]
      · simp only [readInternal, List.length_nil, hn, hempty, hmode, hstop, if_true,
          Nat.lt_irrefl, or_self, if_false]
        exact ih (by omega) (by omega)

/-! ## One chunk and no second one -/

/-- A chunk copied behind the bytes of the buffer and published. -/
def publish (r : Ringbuf) (chunk : List UInt8) : Ringbuf :=
  (r.copyIn r.head chunk).setHead (r.advance r.head chunk.length)

/-- The `count` oldest bytes given up. -/
def retire (r : Ringbuf) (count : Nat) : Ringbuf := r.setTail (r.advance r.tail count)

theorem Holds.publish (hholds : r.Holds start items) {chunk : List UInt8}
    (hfits : items.length + chunk.length < r.ringbufferSize) :
    (r.publish chunk).Holds start (items ++ chunk) :=
  (hholds.copyIn hfits).setHead hfits (hholds.window_copyIn hfits)

theorem writeInternal_round (r : Ringbuf) {s : List UInt8} (hs : s ≠ []) {space : Nat}
    (havail : r.availableWrite = space) (hspace : 0 < space) (fuel : Nat) :
    r.writeInternal (fuel + 1) s 0 0 =
      (r.publish (s.take space)).writeInternal fuel s (min space s.length) 0 := by
  have hlength : 0 < s.length := List.length_pos_iff.mpr hs
  have htake : s.take (min space s.length) = s.take space := List.take_eq_take_min.symm
  rw [writeInternal, if_pos hlength]
  simp only [havail, if_neg (Nat.ne_of_gt hspace), Nat.sub_zero, List.drop_zero, Nat.zero_add,
    htake, publish, List.length_take, copyIn_advance]

theorem readInternal_round (r : Ringbuf) {n : Nat} (hn : 0 < n) {count : Nat}
    (havail : r.availableRead = count) (hcount : 0 < count) (fuel : Nat) :
    r.readInternal (fuel + 1) n [] 0 =
      (r.retire (min count n)).readInternal fuel n (r.copyOut r.tail (min count n)) 0 := by
  rw [readInternal, List.length_nil, if_pos hn]
  simp only [havail, if_neg (Nat.ne_of_gt hcount), Nat.sub_zero, List.nil_append, retire]

theorem writeInternal_stops (hmode : r.nonBlocking = true) {s : List UInt8} {written : Nat}
    (hwritten : 0 < written) (hstop : s.length ≤ written ∨ r.availableWrite = 0)
    (fuel fullSpins : Nat) :
    r.writeInternal (fuel + 1) s written fullSpins = some (written, r) := by
  by_cases hmore : written < s.length
  · have hfull := hstop.resolve_left (by omega)
    simp [writeInternal, hmore, hfull, hmode, hwritten]
  · simp [writeInternal, hmore]

theorem readInternal_stops (hmode : r.nonBlocking = true) {n : Nat} {bytes : List UInt8}
    (hbytes : 0 < bytes.length) (hstop : n ≤ bytes.length ∨ r.availableRead = 0)
    (fuel emptySpins : Nat) :
    r.readInternal (fuel + 1) n bytes emptySpins = some (bytes, r) := by
  by_cases hmore : bytes.length < n
  · have hempty := hstop.resolve_left (by omega)
    simp [readInternal, hmore, hempty, hmode, List.length_pos_iff.mp hbytes]
  · simp [readInternal, hmore]

/-- The whole loop of a writer: what fits is appended. -/
theorem Holds.writeInternal (hholds : r.Holds start items) (hmode : r.nonBlocking = true)
    {space : Nat} (hspace : r.availableWrite = space) (s : List UInt8) {fuel : Nat}
    (hfuel : waitingRounds ≤ fuel) :
    ∃ next, r.writeInternal fuel s 0 0 = some (min space s.length, next) ∧
      next.Holds start (items ++ s.take space) ∧
      next.ringbufferSize = r.ringbufferSize ∧ next.nonBlocking = true := by
  unfold waitingRounds at hfuel
  by_cases hs : s = []
  · obtain ⟨fuel, rfl⟩ := Nat.exists_eq_add_of_le' (show 1 ≤ fuel by omega)
    exact ⟨r, by simp [Ringbuf.writeInternal, hs], by simpa [hs] using hholds, rfl, hmode⟩
  by_cases hfull : space = 0
  · rw [hfull] at hspace ⊢
    refine ⟨r, ?_, by simpa using hholds, rfl, hmode⟩
    rw [writeInternal_full hspace hmode hs (by omega) (by omega), Nat.zero_min]
  · -- one chunk is stored; after it the request is complete or the buffer is full
    have hlength : 0 < s.length := List.length_pos_iff.mpr hs
    have hlt := hholds.length_lt
    have havail := hholds.availableWrite
    have htake : (s.take space).length = min space s.length := List.length_take
    have hnext : (r.publish (s.take space)).Holds start (items ++ s.take space) :=
      hholds.publish (by omega)
    have hnextMode : (r.publish (s.take space)).nonBlocking = true := hmode
    obtain ⟨fuel, rfl⟩ := Nat.exists_eq_add_of_le' (show 2 ≤ fuel by omega)
    refine ⟨r.publish (s.take space), ?_, hnext, rfl, hnextMode⟩
    rw [writeInternal_round r hs hspace (by omega)]
    apply writeInternal_stops hnextMode (by omega)
    have hafter := hnext.availableWrite
    rw [List.length_append, htake, show (r.publish (s.take space)).ringbufferSize =
      r.ringbufferSize from rfl] at hafter
    omega

/-- The whole loop of a reader: what is there is removed. -/
theorem Holds.readInternal (hholds : r.Holds start items) (hmode : r.nonBlocking = true)
    (n : Nat) {fuel : Nat} (hfuel : waitingRounds ≤ fuel) :
    ∃ next, r.readInternal fuel n [] 0 = some (items.take n, next) ∧
      next.Holds (start + min items.length n) (items.drop n) ∧
      next.ringbufferSize = r.ringbufferSize ∧ next.nonBlocking = true := by
  unfold waitingRounds at hfuel
  have havail := hholds.availableRead
  by_cases hn : n = 0
  · obtain ⟨fuel, rfl⟩ := Nat.exists_eq_add_of_le' (show 1 ≤ fuel by omega)
    exact ⟨r, by simp [Ringbuf.readInternal, hn], by simpa [hn] using hholds, rfl, hmode⟩
  by_cases hempty : items = []
  · subst hempty
    refine ⟨r, ?_, by simpa using hholds, rfl, hmode⟩
    rw [readInternal_empty havail hmode (by omega) (by omega) (by omega), List.take_nil]
  · -- one chunk is taken; after it the request is complete or the buffer is empty
    have hlength : 0 < items.length := List.length_pos_iff.mpr hempty
    have hnext : (r.retire (min items.length n)).Holds (start + min items.length n)
        (items.drop (min items.length n)) := hholds.setTail (Nat.min_le_left _ _)
    have hnextMode : (r.retire (min items.length n)).nonBlocking = true := hmode
    have htake : items.take (min items.length n) = items.take n := by
      rw [Nat.min_comm, ← List.take_eq_take_min]
    have hdrop : items.drop (min items.length n) = items.drop n := by
      by_cases hle : n ≤ items.length
      · rw [Nat.min_eq_right hle]
      · rw [List.drop_eq_nil_of_le (by omega), List.drop_eq_nil_of_le (by omega)]
    rw [hdrop] at hnext
    obtain ⟨fuel, rfl⟩ := Nat.exists_eq_add_of_le' (show 2 ≤ fuel by omega)
    refine ⟨r.retire (min items.length n), ?_, hnext, rfl, hnextMode⟩
    have hbytes : (items.take n).length = min n items.length := List.length_take
    rw [readInternal_round r (by omega) havail hlength,
      hholds.copyOut (Nat.min_le_left _ _), htake]
    apply readInternal_stops hnextMode (by omega)
    by_cases hle : n ≤ items.length
    · exact Or.inl (by omega)
    · right
      apply hnext.availableRead.trans
      rw [List.length_drop]
      omega

/-! ## Calls -/

/-- A non-blocking ring buffer that holds the items of a queue. -/
def Represents {capacity : Nat} (r : Ringbuf) (queue : BoundedFifo UInt8 capacity) : Prop :=
  r.nonBlocking = true ∧ r.ringbufferSize = capacity + 1 ∧ ∃ start, r.Holds start queue.items

namespace Represents

variable {capacity : Nat} {queue : BoundedFifo UInt8 capacity}

theorem availableRead (hqueue : r.Represents queue) : r.availableRead = queue.items.length := by
  obtain ⟨-, -, start, hholds⟩ := hqueue
  exact hholds.availableRead

theorem availableWrite (hqueue : r.Represents queue) : r.availableWrite = queue.space := by
  obtain ⟨-, hsize, start, hholds⟩ := hqueue
  rw [hholds.availableWrite, hsize]
  rfl

/-- One call is answered as the queue answers it. -/
theorem call (hqueue : r.Represents queue) {request : RingCall} (hrequest : request.size < 2 ^ 63)
    {fuel : Nat} (hfuel : waitingRounds ≤ fuel) :
    ∃ next, r.call fuel request = some ((fifoCall queue request).1, next) ∧
      next.Represents (fifoCall queue request).2 := by
  have hspace := hqueue.availableWrite
  obtain ⟨hmode, hsize, start, hholds⟩ := hqueue
  cases request with
  | sputn s =>
      obtain ⟨next, hwrite, hitems, hnextSize, hnextMode⟩ :=
        hholds.writeInternal hmode hspace s hfuel
      have hnext : next.Represents (queue.push s) :=
        ⟨hnextMode, hnextSize.trans hsize, start, hitems⟩
      refine ⟨next, ?_, hnext⟩
      have hcount : toInt64 (min queue.space s.length : Nat) =
          min (s.length : Int) queue.space := by
        rw [RingCall.size] at hrequest
        rw [toInt64_natCast (by omega)]
        omega
      simp only [Ringbuf.call, xsputn, hwrite, fifoCall, Option.bind_eq_bind, Option.bind_some,
        Option.pure_def, hcount, hnext.availableRead, hnext.availableWrite]
  | sgetn n =>
      obtain ⟨next, hread, hitems, hnextSize, hnextMode⟩ := hholds.readInternal hmode n hfuel
      have hnext : next.Represents (queue.pop n) :=
        ⟨hnextMode, hnextSize.trans hsize, _, hitems⟩
      refine ⟨next, ?_, hnext⟩
      have hn : toSizeT n = n := toSizeT_natCast (Nat.lt_trans hrequest (by decide))
      have hcount : toInt64 (min n queue.items.length : Nat) =
          min (n : Int) queue.items.length := by
        rw [RingCall.size] at hrequest
        rw [toInt64_natCast (by omega)]
        omega
      simp only [Ringbuf.call, xsgetn, hn, hread, fifoCall, Option.bind_eq_bind, Option.bind_some,
        Option.pure_def, List.length_take, hcount, hnext.availableRead, hnext.availableWrite]

end Represents

/-- A non-blocking ring buffer of at least two usable bytes answers every run of
calls as the queue with one byte less answers it. -/
theorem ringbuf_refines_fifo (mem : Region) (husable : 2 ≤ mem.totalSize - ringHeaderSize)
    (calls : List RingCall) (hcalls : ∀ request ∈ calls, request.size < 2 ^ 63) {fuel : Nat}
    (hfuel : waitingRounds ≤ fuel) :
    let queue : BoundedFifo UInt8 (mem.totalSize - ringHeaderSize - 1) := BoundedFifo.empty
    ∃ final, runCalls (call fuel) (ringbuf mem true) calls =
        some ((runModel fifoCall queue calls).1, final) ∧
      final.Represents (runModel fifoCall queue calls).2 := by
  intro queue
  have hstart : (ringbuf mem true).Represents queue := by
    refine ⟨rfl, ?_, 0, ringbuf_holds mem true⟩
    simp only [ringbuf]
    rw [if_pos (by omega)]
    omega
  refine runCalls_eq_runModel ?_ hcalls hstart
  intro state abstract request hstate hrequest
  exact hstate.call hrequest hfuel

/-- Four usable bytes hold three: the second write wraps around. -/
theorem ringbuf_refines_fifo_wraps :
    let mem : Region := ⟨20, fun _ => 0, by decide⟩
    (runCalls (call waitingRounds) (ringbuf mem true)
      [.sputn [1, 2, 3, 4, 5], .sgetn 2, .sputn [6, 7], .sgetn 9]).map Prod.fst =
        some [⟨3, [], 3, 0⟩, ⟨2, [1, 2], 1, 2⟩, ⟨2, [], 3, 0⟩, ⟨3, [3, 6, 7], 0, 3⟩] := by
  intro mem
  obtain ⟨final, hrun, -⟩ := ringbuf_refines_fifo mem (by decide)
    [.sputn [1, 2, 3, 4, 5], .sgetn 2, .sputn [6, 7], .sgetn 9]
    (by simp [RingCall.size]) (Nat.le_refl waitingRounds)
  rw [hrun]
  rfl

end Ringbuf
end Iostreams
