import Iostreams.Ring.Seeking

/-!
# Rewinding a ring buffer

As long as no more is written than fits into the ring at once, what was written
stays where it is: `head` has moved over exactly these bytes, and `tail` may be
set back to any of them.  `Recorded` keeps this apart from where `tail` is, by
the buffer that would still hold everything, with its `tail` at the first cell.
-/

namespace Iostreams

open Foundation

/-- The bytes that a call writes. -/
def RingOp.written : RingOp → List UInt8
  | .sputn s => s.val
  | .sgetn _ => []
  | .seekoff _ _ _ => []
  | .seekpos _ _ => []

/-- What all calls write, in order. -/
def writtenBy (ops : List RingOp) : List UInt8 := ops.flatMap RingOp.written

/-- `std::ios_base::in` -/
def inputOnly : Openmode := ⟨true, false⟩

/-- Every seek is an absolute one of the input, to a byte that was written before or to the end
of what was. -/
def RewindsWithin : Nat → List RingOp → Prop
  | _, [] => True
  | total, .sputn s :: rest => RewindsWithin (total + s.val.length) rest
  | total, .sgetn _ :: rest => RewindsWithin total rest
  | total, .seekoff off way which :: rest =>
      (way = .beg ∧ which = inputOnly ∧ 0 ≤ off.toInt ∧ off.toInt ≤ total) ∧
        RewindsWithin total rest
  | total, .seekpos sp which :: rest =>
      (which = inputOnly ∧ 0 ≤ sp.toInt ∧ sp.toInt ≤ total) ∧ RewindsWithin total rest

namespace Ringbuf

/-- Everything that was ever written is in the ring, from its first cell on, and is read from
`position` on. -/
structure Recorded (r : Ringbuf) (written : List UInt8) (position : Nat) : Prop where
  fromStart : (r.setTail 0).Holds 0 written
  tail_eq : r.tail = position
  position_le : position ≤ written.length
  mode : r.nonBlocking = true

variable {r : Ringbuf} {written : List UInt8} {position : Nat}

theorem ringbuf_recorded (mem : Region) : (ringbuf mem true).Recorded [] 0 :=
  ⟨ringbuf_holds mem true, rfl, Nat.le_refl 0, rfl⟩

namespace Recorded

theorem length_lt (hrecorded : r.Recorded written position) :
    written.length < r.ringbufferSize :=
  hrecorded.fromStart.length_lt

theorem size_le (hrecorded : r.Recorded written position) : r.ringbufferSize ≤ 2 ^ 63 :=
  hrecorded.fromStart.size_le

/-- What is behind `tail` is what the buffer holds. -/
theorem holds (hrecorded : r.Recorded written position) :
    r.Holds position (written.drop position) := by
  have hlt := hrecorded.length_lt
  have hle := hrecorded.position_le
  rcases hrecorded.fromStart with ⟨hsize, -, -, hhead, hwindow⟩
  refine ⟨hsize, ?_, ?_, ?_, ?_⟩
  · rw [List.length_drop]
    omega
  · rw [hrecorded.tail_eq, Nat.mod_eq_of_lt (by omega)]
  · rw [List.length_drop, show position + (written.length - position) = 0 + written.length by omega]
    exact hhead
  · rw [List.length_drop]
    have hdrop := @window_drop _ r.ringbufferSize r.ringbuffer 0 written.length position hle
    rw [Nat.zero_add] at hdrop
    rw [← hdrop]
    exact congrArg (List.drop position) hwindow

theorem availableRead (hrecorded : r.Recorded written position) :
    r.availableRead = written.length - position := by
  rw [hrecorded.holds.availableRead, List.length_drop]

/-- The bytes lie in the first cells. -/
theorem load_eq (hrecorded : r.Recorded written position) :
    load r.ringbuffer 0 written.length = written := by
  have hlt := hrecorded.length_lt
  have hcells : load r.ringbuffer 0 written.length =
      window r.ringbufferSize r.ringbuffer 0 written.length := by
    apply List.map_congr_left
    intro i hi
    have hindex := List.mem_range.mp hi
    rw [Nat.mod_eq_of_lt (by omega)]
  rw [hcells]
  exact hrecorded.fromStart.window_eq

end Recorded

/-! ## Writing -/

theorem writeInternal_fits (hmode : r.nonBlocking = true) {s : List UInt8} (hs : s ≠ [])
    (hfits : s.length ≤ r.availableWrite) {fuel : Nat} (hfuel : 2 ≤ fuel) :
    r.writeInternal fuel s 0 0 = some (s.length, r.publish s) := by
  have hlength : 0 < s.length := List.length_pos_iff.mpr hs
  rcases Nat.exists_eq_add_of_le' hfuel with ⟨fuel, rfl⟩
  have hmode' : (r.publish s).nonBlocking = true := hmode
  rw [writeInternal_round r hs rfl (by omega), List.take_of_length_le hfits,
    Nat.min_eq_right hfits]
  exact writeInternal_stops hmode' hlength (Or.inl (Nat.le_refl _)) fuel 0

/-- As long as the ring takes everything at once, a write is appended. -/
theorem Recorded.xsputn (hrecorded : r.Recorded written position) {s : Object}
    (hfits : written.length + s.val.length < r.ringbufferSize) {fuel : Nat} (hfuel : 2 ≤ fuel) :
    ∃ next, r.xsputn fuel s.val = some ((s.val.length : Int), next) ∧
      next.Recorded (written ++ s.val) position ∧ next.ringbufferSize = r.ringbufferSize := by
  have hspace := hrecorded.holds.availableWrite
  have hle := hrecorded.position_le
  rw [List.length_drop] at hspace
  have hcount : toInt64 (s.val.length : Nat) = s.val.length := toInt64_natCast s.property
  by_cases hs : s.val = []
  · rcases Nat.exists_eq_add_of_le' hfuel with ⟨fuel, rfl⟩
    refine ⟨r, ?_, by rw [hs, List.append_nil]; exact hrecorded, rfl⟩
    rw [Ringbuf.xsputn, hs]
    simp [writeInternal]
  · refine ⟨r.publish s.val, ?_, ⟨hrecorded.fromStart.publish hfits, hrecorded.tail_eq, ?_,
      hrecorded.mode⟩, rfl⟩
    · rw [Ringbuf.xsputn, writeInternal_fits hrecorded.mode hs (by omega) hfuel]
      simp only [Option.bind_eq_bind, Option.bind_some, Option.pure_def, hcount]
    · rw [List.length_append]
      omega

/-! ## Reading -/

/-- A read moves `tail` and nothing else. -/
theorem readInternal_setTail (fuel : Nat) {n : Nat} {bytes bytes' : List UInt8} {r next : Ringbuf}
    {emptySpins : Nat} (hread : r.readInternal fuel n bytes emptySpins = some (bytes', next))
    (tail : Nat) : next.setTail tail = r.setTail tail := by
  induction fuel generalizing r bytes emptySpins with
  | zero => cases hread
  | succ fuel ih =>
      unfold readInternal at hread
      simp only at hread
      split at hread
      · split at hread
        · split at hread
          · split at hread
            · cases hread
              rfl
            · exact ih hread
          · exact ih hread
        · have hrest := ih hread
          exact hrest
      · cases hread
        rfl

theorem Recorded.xsgetn (hrecorded : r.Recorded written position) (n : Streamsize) {fuel : Nat}
    (hfuel : waitingRounds ≤ fuel) :
    ∃ next, r.xsgetn fuel n.val =
        some ((((min n.val (written.length - position) : Nat) : Int),
          (written.drop position).take n.val), next) ∧
      next.Recorded written (position + min n.val (written.length - position)) ∧
      next.ringbufferSize = r.ringbufferSize := by
  have hlt := hrecorded.length_lt
  have hle := hrecorded.position_le
  have hsizeLe := hrecorded.size_le
  have hend : position + min n.val (written.length - position) ≤ written.length := by omega
  have hcell : position + min n.val (written.length - position) < r.ringbufferSize := by omega
  obtain ⟨next, hread, hnext, hsize, hmode⟩ :=
    hrecorded.holds.readInternal hrecorded.mode n.val hfuel
  have hn : toSizeT n.val = n.val := toSizeT_natCast (Nat.lt_trans n.property (by decide))
  have hlength : ((written.drop position).take n.val).length =
      min n.val (written.length - position) := by
    rw [List.length_take, List.length_drop]
  have hcount : toInt64 (min n.val (written.length - position) : Nat) =
      (min n.val (written.length - position) : Nat) := toInt64_natCast (by omega)
  refine ⟨next, ?_, ⟨?_, ?_, hend, hmode⟩, hsize⟩
  · rw [Ringbuf.xsgetn, hn, hread]
    simp only [Option.bind_eq_bind, Option.bind_some, Option.pure_def, hlength, hcount]
  · -- only `tail` has moved, so that everything is still there from the first cell on
    rw [readInternal_setTail fuel hread 0]
    exact hrecorded.fromStart
  · rw [hnext.tail_eq, hsize, List.length_drop, Nat.min_comm, Nat.mod_eq_of_lt hcell]

/-! ## Seeking back -/

theorem Recorded.seekoff (hrecorded : r.Recorded written position) {target : Nat}
    (htarget : target ≤ written.length) :
    r.seekoff target .beg inputOnly = ((target : Int), r.setTail target) ∧
      (r.setTail target).Recorded written target := by
  have hlt := hrecorded.length_lt
  have hsizeLe := hrecorded.size_le
  have hcell : r.seekCell r.tail r.head target .beg = target := by
    show toSizeT target % r.ringbufferSize = target
    rw [toSizeT_natCast (by omega), Nat.mod_eq_of_lt (by omega)]
  constructor
  · show (toInt64 (r.seekCell r.tail r.head target .beg),
      r.setTail (r.seekCell r.tail r.head target .beg)) = _
    rw [hcell, toInt64_natCast (by omega)]
  · exact ⟨hrecorded.fromStart, rfl, htarget, hrecorded.mode⟩

/-- An offset from the start that is not beyond the bytes written. -/
theorem Recorded.rewind (hrecorded : r.Recorded written position) {off : Int} (hlow : 0 ≤ off)
    (hhigh : off ≤ written.length) :
    ∃ next target, r.seekoff off .beg inputOnly = (off, next) ∧ next.Recorded written target ∧
      next.ringbufferSize = r.ringbufferSize := by
  rcases Int.eq_ofNat_of_zero_le hlow with ⟨target, rfl⟩
  have hinside : target ≤ written.length := by omega
  rcases hrecorded.seekoff hinside with ⟨hseek, hnext⟩
  exact ⟨r.setTail target, target, hseek, hnext, rfl⟩

/-! ## Runs -/

theorem Recorded.perform (hrecorded : r.Recorded written position) {op : RingOp}
    {rest : List RingOp} (hrewinds : RewindsWithin written.length (op :: rest))
    (hfits : written.length + op.written.length < r.ringbufferSize) {fuel : Nat}
    (hfuel : waitingRounds ≤ fuel) :
    ∃ result next position', op.perform fuel r = some (result, next) ∧
      next.Recorded (written ++ op.written) position' ∧
      next.ringbufferSize = r.ringbufferSize ∧
      RewindsWithin (written ++ op.written).length rest := by
  cases op with
  | sputn s =>
      obtain ⟨next, hput, hnext, hsize⟩ :=
        hrecorded.xsputn hfits (Nat.le_trans (by decide) hfuel)
      exact ⟨_, next, position, hput, hnext, hsize, by rw [List.length_append]; exact hrewinds⟩
  | sgetn n =>
      rcases hrecorded.xsgetn n hfuel with ⟨next, hget, hnext, hsize⟩
      have hcall : RingOp.perform fuel r (.sgetn n) =
          some (((min n.val (written.length - position) : Nat) : Int), next) := by
        rw [RingOp.perform, hget]
        rfl
      rw [RingOp.written, List.append_nil]
      exact ⟨_, next, _, hcall, hnext, hsize, hrewinds⟩
  | seekoff off way which =>
      rcases hrewinds with ⟨⟨rfl, rfl, hlow, hhigh⟩, hrest⟩
      rcases hrecorded.rewind hlow hhigh with ⟨next, target, hseek, hnext, hsize⟩
      rw [RingOp.written, List.append_nil]
      exact ⟨_, next, target, congrArg some hseek, hnext, hsize, hrest⟩
  | seekpos sp which =>
      -- an absolute position is an offset from the start
      rcases hrewinds with ⟨⟨rfl, hlow, hhigh⟩, hrest⟩
      rcases hrecorded.rewind hlow hhigh with ⟨next, target, hseek, hnext, hsize⟩
      rw [RingOp.written, List.append_nil]
      exact ⟨_, next, target, congrArg some hseek, hnext, hsize, hrest⟩

theorem Recorded.runCalls (ops : List RingOp) {r : Ringbuf} {written : List UInt8} {position : Nat}
    (hrecorded : r.Recorded written position) (hrewinds : RewindsWithin written.length ops)
    (hfits : written.length + (writtenBy ops).length < r.ringbufferSize) {fuel : Nat}
    (hfuel : waitingRounds ≤ fuel) :
    ∃ results final position', Foundation.runCalls (RingOp.perform fuel) r ops =
        some (results, final) ∧
      final.Recorded (written ++ writtenBy ops) position' ∧
      final.ringbufferSize = r.ringbufferSize := by
  induction ops generalizing r written position with
  | nil =>
      refine ⟨[], r, position, rfl, ?_, rfl⟩
      rw [writtenBy, List.flatMap_nil, List.append_nil]
      exact hrecorded
  | cons op rest ih =>
      rw [writtenBy, List.flatMap_cons, List.length_append] at hfits
      obtain ⟨result, next, position', hcall, hnext, hsize, hrest⟩ :=
        hrecorded.perform hrewinds (by omega) hfuel
      obtain ⟨results, final, position'', hrun, hfinal, hfinalSize⟩ :=
        ih hnext hrest (by rw [hsize, List.length_append, writtenBy]; omega)
      refine ⟨result :: results, final, position'', ?_, ?_, hfinalSize.trans hsize⟩
      · simp [Foundation.runCalls, hcall, hrun]
      · rw [writtenBy, List.flatMap_cons, ← List.append_assoc]
        exact hfinal

/-- **Rewinding.**  After calls that write no more than the ring takes at once, the input can be
set back to any byte: everything from there on is there and is read again, and what is written
then is appended and leaves the bytes before it alone. -/
theorem rewind_replays (mem : Region) (husable : ringHeaderSize < mem.totalSize)
    (ops : List RingOp) (hrewinds : RewindsWithin 0 ops)
    (htotal : (writtenBy ops).length ≤ mem.totalSize - ringHeaderSize - 1) {fuel : Nat}
    (hfuel : waitingRounds ≤ fuel) :
    ∃ results r, Foundation.runCalls (RingOp.perform fuel) (ringbuf mem true) ops =
        some (results, r) ∧
      ∀ p ≤ (writtenBy ops).length,
        let rewound := r.seekpos p inputOnly
        rewound.1 = p ∧
        rewound.2.availableRead = (writtenBy ops).length - p ∧
        (∀ n : Streamsize, ∃ next, rewound.2.xsgetn fuel n.val =
          some ((((min n.val ((writtenBy ops).length - p) : Nat) : Int),
            ((writtenBy ops).drop p).take n.val), next)) ∧
        load rewound.2.ringbuffer 0 (writtenBy ops).length = writtenBy ops ∧
        ∀ s : Object, (writtenBy ops).length + s.val.length ≤
            mem.totalSize - ringHeaderSize - 1 →
          ∃ next, rewound.2.xsputn fuel s.val = some ((s.val.length : Int), next) ∧
            load next.ringbuffer 0 ((writtenBy ops).length + s.val.length) =
              writtenBy ops ++ s.val := by
  have hsize : (ringbuf mem true).ringbufferSize = mem.totalSize - ringHeaderSize :=
    if_pos husable
  obtain ⟨results, r, position, hrun, hrecorded, hkept⟩ :=
    (ringbuf_recorded mem).runCalls ops hrewinds
      (by rw [hsize, List.length_nil, Nat.zero_add]; omega) hfuel
  rw [List.nil_append] at hrecorded
  refine ⟨results, r, hrun, fun p hp => ?_⟩
  rcases hrecorded.seekoff hp with ⟨hseek, hrewound⟩
  have hposition : r.seekpos p inputOnly = ((p : Int), r.setTail p) := hseek
  intro rewound
  have hstate : rewound = ((p : Int), r.setTail p) := hposition
  rw [hstate]
  refine ⟨rfl, hrewound.availableRead, fun n => ?_, hrewound.load_eq, fun s hs => ?_⟩
  · rcases hrewound.xsgetn n hfuel with ⟨next, hget, -⟩
    exact ⟨next, hget⟩
  · have hroom : (writtenBy ops).length + s.val.length < (r.setTail p).ringbufferSize := by
      show _ < r.ringbufferSize
      omega
    rcases hrewound.xsputn hroom (Nat.le_trans (by decide) hfuel) with ⟨next, hput, hnext, -⟩
    refine ⟨next, hput, ?_⟩
    rw [← List.length_append]
    exact hnext.load_eq

/-- Three bytes are written, two are read, one is read again, and a fourth is written. -/
theorem rewind_replays_sample :
    let mem : Region := ⟨24, fun _ => 0, by decide⟩
    let ops : List RingOp := [.sputn ⟨[1, 2, 3], by decide⟩, .sgetn ⟨2, by decide⟩,
      .seekpos 1 inputOnly, .sputn ⟨[4], by decide⟩]
    ∃ results r, Foundation.runCalls (RingOp.perform waitingRounds) (ringbuf mem true) ops =
        some (results, r) ∧
      ∀ p ≤ (writtenBy ops).length,
        let rewound := r.seekpos p inputOnly
        rewound.1 = p ∧
        rewound.2.availableRead = (writtenBy ops).length - p ∧
        (∀ n : Streamsize, ∃ next, rewound.2.xsgetn waitingRounds n.val =
          some ((((min n.val ((writtenBy ops).length - p) : Nat) : Int),
            ((writtenBy ops).drop p).take n.val), next)) ∧
        load rewound.2.ringbuffer 0 (writtenBy ops).length = writtenBy ops ∧
        ∀ s : Object, (writtenBy ops).length + s.val.length ≤
            mem.totalSize - ringHeaderSize - 1 →
          ∃ next, rewound.2.xsputn waitingRounds s.val = some ((s.val.length : Int), next) ∧
            load next.ringbuffer 0 ((writtenBy ops).length + s.val.length) =
              writtenBy ops ++ s.val := by
  intro mem ops
  exact rewind_replays mem (by decide) ops ⟨⟨rfl, by decide, by decide⟩, trivial⟩ (by decide)
    (Nat.le_refl waitingRounds)

end Ringbuf
end Iostreams
