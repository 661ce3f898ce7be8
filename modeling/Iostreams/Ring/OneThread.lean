import Iostreams.Ring.Progress

/-!
# A thread of the ring buffer by itself

A non-blocking thread gives up after a bounded number of vain rounds: its own steps
suffice for it to return, whatever the other thread does.  A thread that is the only one
to run takes the rounds of `write_internal` or `read_internal`, the functions of the
ring buffer that one thread uses.
-/

namespace Iostreams

open Foundation Ringbuf

def RingEvent.isProducer : RingEvent → Bool
  | .producer => true
  | _ => false

def RingEvent.isConsumer : RingEvent → Bool
  | .consumer => true
  | _ => false

namespace RingSystem

variable {size : Nat} {sys : RingSystem}

/-! ## Own steps of a non-blocking thread -/

/-- Five steps for every byte left, and two for every vain round left. -/
def budget (left spins limit : Nat) : Nat := 5 * left + 2 * (limit + 2 - spins)

theorem budget_start (left limit : Nat) :
    budget (left - 0) 0 limit ≤ 5 * left + 2 * (limit + 2) :=
  Nat.le_refl _

/-- A bound on the steps a non-blocking producer takes until it returns. -/
def producerBound : Producer → Nat
  | .idle => 0
  | .loadHead w => budget (w.s.length - w.written) w.fullSpins 100
  | .loadTail w _ => budget (w.s.length - w.written) w.fullSpins 100 - 1
  | .reloadHead w _ => budget (w.s.length - w.written) w.fullSpins 100 - 2
  | .copy w _ _ => budget (w.s.length - w.written) w.fullSpins 100 - 3
  | .storeHead w _ _ => budget (w.s.length - w.written) w.fullSpins 100 - 4

/-- A bound on the steps a non-blocking consumer takes until it returns. -/
def consumerBound : Consumer → Nat
  | .idle => 0
  | .loadHead rd => budget (rd.n - rd.bytes.length) rd.emptySpins 1000000
  | .loadTail rd _ => budget (rd.n - rd.bytes.length) rd.emptySpins 1000000 - 1
  | .reloadTail rd _ => budget (rd.n - rd.bytes.length) rd.emptySpins 1000000 - 2
  | .copy rd _ _ => budget (rd.n - rd.bytes.length) rd.emptySpins 1000000 - 3
  | .storeTail rd _ _ _ => budget (rd.n - rd.bytes.length) rd.emptySpins 1000000 - 4

theorem producerBound_loop_le (w : Writing) :
    producerBound (.loop w) ≤ budget (w.s.length - w.written) w.fullSpins 100 := by
  unfold Producer.loop
  split
  · exact Nat.le_refl _
  · exact Nat.zero_le _

theorem consumerBound_loop_le (rd : Reading) :
    consumerBound (.loop rd) ≤ budget (rd.n - rd.bytes.length) rd.emptySpins 1000000 := by
  unfold Consumer.loop
  split
  · exact Nat.le_refl _
  · exact Nat.zero_le _

theorem Live.producerBound_lt (hlive : sys.Live true size) (hbusy : sys.producer ≠ .idle) :
    producerBound sys.produce.producer < producerBound sys.producer := by
  have hpending := hlive.producer
  have hmode := hlive.mode_eq
  unfold produce
  cases hpc : sys.producer with
  | idle => exact absurd hpc hbusy
  | loadHead w | reloadHead w chunk | copy w chunk h =>
      rw [hpc] at hpending
      simp only [Producer.Pending] at hpending
      simp only [producerBound, budget]
      omega
  | loadTail w h =>
      rw [hpc] at hpending
      have hlt : w.written < w.s.length := hpending
      simp only [Producer.decide, hmode, if_true]
      split
      · -- a vain round: the thread gives up, or one round less is left
        split <;> simp only [producerBound, budget] <;> omega
      · simp only [producerBound, budget]
        omega
  | storeHead w chunk h =>
      rw [hpc] at hpending
      obtain ⟨hpos, hle⟩ := hpending
      have hloop := producerBound_loop_le (w.advance chunk)
      simp only [Writing.advance, producerBound, budget] at hloop ⊢
      omega

theorem Live.consumerBound_lt (hlive : sys.Live true size) (hbusy : sys.consumer ≠ .idle) :
    consumerBound sys.consume.consumer < consumerBound sys.consumer := by
  have hpending := hlive.consumer
  have hmode := hlive.mode_eq
  unfold consume
  cases hpc : sys.consumer with
  | idle => exact absurd hpc hbusy
  | loadHead rd | reloadTail rd chunk | copy rd chunk t =>
      rw [hpc] at hpending
      simp only [Consumer.Pending] at hpending
      simp only [consumerBound, budget]
      omega
  | loadTail rd h =>
      rw [hpc] at hpending
      have hlt : rd.bytes.length < rd.n := hpending
      simp only [Consumer.decide, hmode, if_true]
      split
      · split <;> simp only [consumerBound, budget] <;> omega
      · simp only [consumerBound, budget]
        omega
  | storeTail rd chunk t copied =>
      rw [hpc] at hpending
      obtain ⟨hpos, hle, hlength⟩ := hpending
      have hloop := consumerBound_loop_le (rd.receive copied)
      simp only [Reading.receive, List.length_append, hlength, consumerBound, budget] at hloop ⊢
      omega

/-- Events other than its own steps leave a busy producer alone. -/
theorem step_producer_of_other {event : RingEvent} (hother : event.isProducer = false)
    (hbusy : sys.producer ≠ .idle) : (sys.step event).producer = sys.producer := by
  cases event with
  | write s =>
      rw [step]
      split
      · next hidle => exact absurd hidle hbusy
      · rfl
  | read n =>
      rw [step]
      split <;> rfl
  | producer => exact absurd hother (by simp [RingEvent.isProducer])
  | consumer => exact sys.consume_frame.1

theorem step_consumer_of_other {event : RingEvent} (hother : event.isConsumer = false)
    (hbusy : sys.consumer ≠ .idle) : (sys.step event).consumer = sys.consumer := by
  cases event with
  | write s =>
      rw [step]
      split <;> rfl
  | read n =>
      rw [step]
      split
      · next hidle => exact absurd hidle hbusy
      · rfl
  | producer => exact sys.produce_frame.1
  | consumer => exact absurd hother (by simp [RingEvent.isConsumer])

theorem Producer.Pending.bound_pos {producer : Producer} (hpending : producer.Pending)
    (hzero : producerBound producer = 0) : producer = .idle := by
  cases producer with
  | idle => rfl
  | _ =>
      simp only [Producer.Pending] at hpending
      simp only [producerBound, budget] at hzero
      omega

theorem Live.producer_returns (hlive : sys.Live true size) {events : List RingEvent}
    (hcount : producerBound sys.producer ≤ events.countP RingEvent.isProducer) :
    ∃ taken, taken <+: events ∧ (taken.foldl RingSystem.step sys).producer = .idle := by
  have hinvariant : ∀ later event, Live true size later → Live true size (later.step event) :=
    fun later event hnow => hnow.step event
  have hzero : ∀ later, Live true size later → producerBound later.producer = 0 →
      later.producer = .idle :=
    fun later hnow hzero => Producer.Pending.bound_pos hnow.producer hzero
  refine reached_within hinvariant hzero ?_ ?_ hlive hcount
  · intro later event hnow hown hbusy
    cases event with
    | producer => exact hnow.producerBound_lt hbusy
    | _ => exact absurd hown (by simp [RingEvent.isProducer])
  · intro later event hnow hother hbusy
    rw [step_producer_of_other hother hbusy]

theorem Consumer.Pending.bound_pos {consumer : Consumer} (hpending : consumer.Pending)
    (hzero : consumerBound consumer = 0) : consumer = .idle := by
  cases consumer with
  | idle => rfl
  | _ =>
      simp only [Consumer.Pending] at hpending
      simp only [consumerBound, budget] at hzero
      omega

theorem Live.consumer_returns (hlive : sys.Live true size) {events : List RingEvent}
    (hcount : consumerBound sys.consumer ≤ events.countP RingEvent.isConsumer) :
    ∃ taken, taken <+: events ∧ (taken.foldl RingSystem.step sys).consumer = .idle := by
  have hinvariant : ∀ later event, Live true size later → Live true size (later.step event) :=
    fun later event hnow => hnow.step event
  have hzero : ∀ later, Live true size later → consumerBound later.consumer = 0 →
      later.consumer = .idle :=
    fun later hnow hzero => Consumer.Pending.bound_pos hnow.consumer hzero
  refine reached_within hinvariant hzero ?_ ?_ hlive hcount
  · intro later event hnow hown hbusy
    cases event with
    | consumer => exact hnow.consumerBound_lt hbusy
    | _ => exact absurd hown (by simp [RingEvent.isConsumer])
  · intro later event hnow hother hbusy
    rw [step_consumer_of_other hother hbusy]

/-- In a run of a non-blocking ring, a request to write returns after at most five own
steps a byte and those of 102 vain rounds, and a request to read after at most five a byte
and those of 1000002, whatever the other thread does and however the two are interleaved. -/
theorem nonBlocking_returns (mem : Region) (before after : List RingEvent) :
    let sys := before.foldl step (start mem true)
    (∀ s, sys.producer = .idle → 5 * s.length + 204 ≤ after.countP RingEvent.isProducer →
      ∃ taken, taken <+: after ∧ (taken.foldl step (sys.step (.write s))).producer = .idle) ∧
    (∀ n, sys.consumer = .idle → 5 * n + 2000004 ≤ after.countP RingEvent.isConsumer →
      ∃ taken, taken <+: after ∧ (taken.foldl step (sys.step (.read n))).consumer = .idle) := by
  intro sys
  have hlive : sys.Live true _ := live_run mem true before
  constructor
  · intro s hidle hcount
    refine (hlive.step (.write s)).producer_returns (Nat.le_trans ?_ hcount)
    have hstep : (sys.step (.write s)).producer = .loop ⟨s, 0, 0⟩ := by rw [step, hidle]
    rw [hstep]
    exact Nat.le_trans (producerBound_loop_le _) (budget_start s.length 100)
  · intro n hidle hcount
    refine (hlive.step (.read n)).consumer_returns (Nat.le_trans ?_ hcount)
    have hstep : (sys.step (.read n)).consumer = .loop ⟨n, [], 0⟩ := by rw [step, hidle]
    rw [hstep]
    exact Nat.le_trans (consumerBound_loop_le _) (budget_start n 1000000)

/-- A full ring of one byte: the second write gives up, the consumer never runs. -/
theorem nonBlocking_returns_full :
    let sys := [RingEvent.write [7], .producer, .producer, .producer, .producer,
      .producer].foldl step (start ⟨18, fun _ => 0, by decide⟩ true)
    ∃ taken, taken <+: List.replicate 209 .producer ∧
      (taken.foldl step (sys.step (.write [8]))).producer = .idle :=
  (nonBlocking_returns ⟨18, fun _ => 0, by decide⟩ [.write [7], .producer, .producer, .producer,
    .producer, .producer] (List.replicate 209 .producer)).1 [8] rfl (by decide +kernel)

/-! ## A thread that runs alone -/

/-- The system after a write of which `bytes` were published. -/
def afterWrite (sys : RingSystem) (ring : Ringbuf) (bytes : List UInt8) : RingSystem :=
  { sys with ring := ring, producer := .idle, published := sys.published ++ bytes }

/-- The system after a read that took `bytes`. -/
def afterRead (sys : RingSystem) (ring : Ringbuf) (bytes : List UInt8) : RingSystem :=
  { sys with ring := ring, consumer := .idle, consumed := sys.consumed ++ bytes }

/-- A number of steps leads to the outcome. -/
def Reaches (next : RingSystem → RingSystem) (sys outcome : RingSystem) : Prop :=
  ∃ steps, next^[steps] sys = outcome

theorem Reaches.trans {next : RingSystem → RingSystem} {later outcome : RingSystem}
    (hfirst : Reaches next sys later) (hrest : Reaches next later outcome) :
    Reaches next sys outcome := by
  obtain ⟨taken, rfl⟩ := hfirst
  obtain ⟨steps, rfl⟩ := hrest
  exact ⟨steps + taken, Function.iterate_add_apply next steps taken sys⟩

theorem produce_available {w : Writing} (hhead : sys.producer = .loadHead w) :
    produce^[2] sys =
      { sys with producer := .decide sys.ring.nonBlocking sys.ring.availableWrite w } := by
  simp [produce, hhead, availableWrite]

theorem produce_chunk {w : Writing} (hhead : sys.producer = .loadHead w)
    (hspace : sys.ring.availableWrite ≠ 0) :
    let chunk := min sys.ring.availableWrite (w.s.length - w.written)
    produce^[5] sys =
      { sys with
        ring := (sys.ring.copyIn sys.ring.head (w.next chunk)).setHead
          (sys.ring.advance sys.ring.head chunk)
        producer := .loop (w.advance chunk)
        published := sys.published ++ w.next chunk } := by
  intro chunk
  have hdecide := produce_available hhead
  rw [Producer.decide, if_neg hspace] at hdecide
  rw [show 5 = 3 + 2 from rfl, Function.iterate_add_apply, hdecide]
  rfl

/-- One chunk and the next ones. -/
theorem next_add (w : Writing) (chunk count : Nat) :
    w.next (chunk + count) = w.next chunk ++ (w.advance chunk).next count := by
  rw [Writing.next, Writing.next, Writing.next, Writing.advance, List.take_add, List.drop_drop]

/-- One round of `write_internal`: it returns, or it goes back to the head of its loop with a chunk
that a vain round leaves empty.  The producer gets there, too. -/
theorem produce_round {fuel : Nat} {w : Writing} {written : Nat} {ring : Ringbuf}
    (hloop : sys.producer = .loop w)
    (hwrite : writeInternal (fuel + 1) sys.ring w.s w.written w.fullSpins = some (written, ring)) :
    (written = w.written ∧ ring = sys.ring ∧
      Reaches produce sys { sys with producer := .idle }) ∨
    ∃ next later, Reaches produce sys later ∧ later.producer = .loop next ∧
      writeInternal fuel later.ring next.s next.written next.fullSpins = some (written, ring) ∧
      ∃ chunk, next.written = w.written + chunk ∧ ∀ ring count,
        later.afterWrite ring (next.next count) = sys.afterWrite ring (w.next (chunk + count)) := by
  rw [writeInternal] at hwrite
  by_cases hmore : w.written < w.s.length
  · have hhead : sys.producer = .loadHead w := by rw [hloop, Producer.loop, if_pos hmore]
    have hvain (ring : Ringbuf) (count : Nat) :
        sys.afterWrite ring (w.next count) = sys.afterWrite ring (w.next (0 + count)) := by
      rw [Nat.zero_add]
    have hdecide := produce_available hhead
    rw [if_pos hmore] at hwrite
    by_cases hfull : sys.ring.availableWrite = 0
    · simp only [hfull, if_true] at hwrite
      simp only [Producer.decide, hfull, if_true] at hdecide
      by_cases hmode : sys.ring.nonBlocking
      · simp only [hmode, if_true] at hwrite hdecide
        by_cases hlast : 0 < w.written ∨ 100 < w.fullSpins
        · -- the call gives up with what was written before
          rw [if_pos hlast] at hwrite hdecide
          cases hwrite
          exact .inl ⟨rfl, rfl, 2, hdecide⟩
        · -- one more vain round
          rw [if_neg hlast] at hwrite hdecide
          exact .inr ⟨{ w with fullSpins := w.fullSpins + 1 }, _, ⟨2, hdecide⟩,
            (if_pos hmore).symm, hwrite, 0, rfl, hvain⟩
      · -- a blocking ring does not count its vain rounds
        simp only [hmode] at hwrite hdecide
        exact .inr ⟨w, _, ⟨2, hdecide⟩, (if_pos hmore).symm, hwrite, 0, rfl, hvain⟩
    · simp only [hfull, if_false] at hwrite
      refine .inr ⟨_, _, ⟨5, produce_chunk hhead hfull⟩, rfl, hwrite, _, rfl, fun ring count => ?_⟩
      rw [afterWrite, afterWrite, next_add, List.append_assoc]
  · rw [if_neg hmore] at hwrite
    have hidle : sys.producer = .idle := by rw [hloop, Producer.loop, if_neg hmore]
    cases hwrite
    exact .inl ⟨rfl, rfl, 0, by rw [← hidle]; rfl⟩

/-- The rounds of a producer that runs alone are those of `write_internal`. -/
theorem produce_alone {fuel : Nat} {w : Writing} {written : Nat} {ring : Ringbuf}
    (hloop : sys.producer = .loop w)
    (hwrite : writeInternal fuel sys.ring w.s w.written w.fullSpins = some (written, ring)) :
    ∃ count, written = w.written + count ∧
      Reaches produce sys (sys.afterWrite ring (w.next count)) := by
  induction fuel generalizing sys w with
  | zero => exact absurd hwrite nofun
  | succ fuel ih =>
      obtain ⟨rfl, rfl, hreturn⟩ | ⟨next, later, hround, hnext, hrest, chunk, hchunk, hafter⟩ :=
        produce_round hloop hwrite
      · refine ⟨0, rfl, ?_⟩
        rw [Writing.next, List.take_zero, afterWrite, List.append_nil]
        exact hreturn
      · obtain ⟨count, hcount, hreach⟩ := ih hnext hrest
        rw [hafter] at hreach
        exact ⟨chunk + count, by rw [hcount, hchunk, Nat.add_assoc], hround.trans hreach⟩

theorem consume_available {rd : Reading} (hhead : sys.consumer = .loadHead rd) :
    consume^[2] sys =
      { sys with consumer := .decide sys.ring.nonBlocking sys.ring.availableRead rd } := by
  simp [consume, hhead, availableRead]

theorem consume_chunk {rd : Reading} (hhead : sys.consumer = .loadHead rd)
    (hbytes : sys.ring.availableRead ≠ 0) :
    let chunk := min sys.ring.availableRead (rd.n - rd.bytes.length)
    let copied := sys.ring.copyOut sys.ring.tail chunk
    consume^[5] sys =
      { sys with
        ring := sys.ring.setTail (sys.ring.advance sys.ring.tail chunk)
        consumer := .loop (rd.receive copied)
        consumed := sys.consumed ++ copied } := by
  intro chunk copied
  have hdecide := consume_available hhead
  rw [Consumer.decide, if_neg hbytes] at hdecide
  rw [show 5 = 3 + 2 from rfl, Function.iterate_add_apply, hdecide]
  rfl

/-- One round of `read_internal`, likewise. -/
theorem consume_round {fuel : Nat} {rd : Reading} {bytes : List UInt8} {ring : Ringbuf}
    (hloop : sys.consumer = .loop rd)
    (hread : readInternal (fuel + 1) sys.ring rd.n rd.bytes rd.emptySpins = some (bytes, ring)) :
    (bytes = rd.bytes ∧ ring = sys.ring ∧
      Reaches consume sys { sys with consumer := .idle }) ∨
    ∃ next later, Reaches consume sys later ∧ later.consumer = .loop next ∧
      readInternal fuel later.ring next.n next.bytes next.emptySpins = some (bytes, ring) ∧
      ∃ copied, next.bytes = rd.bytes ++ copied ∧ ∀ ring more,
        later.afterRead ring more = sys.afterRead ring (copied ++ more) := by
  rw [readInternal] at hread
  by_cases hmore : rd.bytes.length < rd.n
  · have hhead : sys.consumer = .loadHead rd := by rw [hloop, Consumer.loop, if_pos hmore]
    have hdecide := consume_available hhead
    rw [if_pos hmore] at hread
    by_cases hempty : sys.ring.availableRead = 0
    · simp only [hempty, if_true] at hread
      simp only [Consumer.decide, hempty, if_true] at hdecide
      by_cases hmode : sys.ring.nonBlocking
      · simp only [hmode, if_true] at hread hdecide
        by_cases hlast : 0 < rd.bytes.length ∨ 1000000 < rd.emptySpins
        · -- the call gives up with what was read before
          rw [if_pos hlast] at hread hdecide
          cases hread
          exact .inl ⟨rfl, rfl, 2, hdecide⟩
        · rw [if_neg hlast] at hread hdecide
          exact .inr ⟨{ rd with emptySpins := rd.emptySpins + 1 }, _, ⟨2, hdecide⟩,
            (if_pos hmore).symm, hread, [], (List.append_nil _).symm, fun _ _ => rfl⟩
      · simp only [hmode] at hread hdecide
        exact .inr ⟨rd, _, ⟨2, hdecide⟩, (if_pos hmore).symm, hread, [],
          (List.append_nil _).symm, fun _ _ => rfl⟩
    · simp only [hempty, if_false] at hread
      refine .inr ⟨_, _, ⟨5, consume_chunk hhead hempty⟩, rfl, hread, _, rfl, fun ring more => ?_⟩
      rw [afterRead, afterRead, List.append_assoc]
  · rw [if_neg hmore] at hread
    have hidle : sys.consumer = .idle := by rw [hloop, Consumer.loop, if_neg hmore]
    cases hread
    exact .inl ⟨rfl, rfl, 0, by rw [← hidle]; rfl⟩

/-- The rounds of a consumer that runs alone are those of `read_internal`. -/
theorem consume_alone {fuel : Nat} {rd : Reading} {bytes : List UInt8} {ring : Ringbuf}
    (hloop : sys.consumer = .loop rd)
    (hread : readInternal fuel sys.ring rd.n rd.bytes rd.emptySpins = some (bytes, ring)) :
    ∃ more, bytes = rd.bytes ++ more ∧ Reaches consume sys (sys.afterRead ring more) := by
  induction fuel generalizing sys rd with
  | zero => exact absurd hread nofun
  | succ fuel ih =>
      obtain ⟨rfl, rfl, hreturn⟩ | ⟨next, later, hround, hnext, hrest, copied, hcopied, hafter⟩ :=
        consume_round hloop hread
      · refine ⟨[], (List.append_nil _).symm, ?_⟩
        rw [afterRead, List.append_nil]
        exact hreturn
      · obtain ⟨more, hmore, hreach⟩ := ih hnext hrest
        rw [hafter] at hreach
        exact ⟨copied ++ more, by rw [hmore, hcopied, List.append_assoc], hround.trans hreach⟩

/-- A request to a thread that is then the only one to run has the outcome of the function
it runs, on every ring: a write publishes as many bytes of `s` as `write_internal`
counts, a read takes the bytes of `read_internal`, and both leave the same ring. -/
theorem alone_eq_sequential (sys : RingSystem) :
    (∀ {fuel s written ring}, sys.producer = .idle →
      writeInternal fuel sys.ring s 0 0 = some (written, ring) →
      Reaches produce (sys.step (.write s)) (sys.afterWrite ring (s.take written))) ∧
    (∀ {fuel n bytes ring}, sys.consumer = .idle →
      readInternal fuel sys.ring n [] 0 = some (bytes, ring) →
      Reaches consume (sys.step (.read n)) (sys.afterRead ring bytes)) := by
  constructor
  · intro fuel s written ring hidle hwrite
    have hstep : sys.step (.write s) = { sys with producer := .loop ⟨s, 0, 0⟩ } := by
      rw [step, hidle]
    obtain ⟨count, rfl, hreach⟩ := produce_alone
      (show (sys.step (.write s)).producer = .loop ⟨s, 0, 0⟩ by rw [hstep])
      (show writeInternal fuel (sys.step (.write s)).ring s 0 0 = some (written, ring) by
        rw [hstep]; exact hwrite)
    rw [hstep] at hreach ⊢
    rw [Nat.zero_add]
    exact hreach
  · intro fuel n bytes ring hidle hread
    have hstep : sys.step (.read n) = { sys with consumer := .loop ⟨n, [], 0⟩ } := by
      rw [step, hidle]
    obtain ⟨more, rfl, hreach⟩ := consume_alone
      (show (sys.step (.read n)).consumer = .loop ⟨n, [], 0⟩ by rw [hstep])
      (show readInternal fuel (sys.step (.read n)).ring n [] 0 = some (bytes, ring) by
        rw [hstep]; exact hread)
    rw [hstep] at hreach ⊢
    exact hreach

/-- Two bytes written into four free ones. -/
theorem alone_eq_sequential_two :
    let sys := start ⟨21, fun _ => 0, by decide⟩ false
    ∃ ring, Reaches produce (sys.step (.write [7, 8])) (sys.afterWrite ring [7, 8]) ∧
      ring.head = 2 := by
  intro sys
  have hwrite : writeInternal 2 sys.ring [7, 8] 0 0 =
      some (2, (sys.ring.copyIn 0 [7, 8]).setHead (sys.ring.advance 0 2)) := rfl
  exact ⟨_, (alone_eq_sequential sys).1 rfl hwrite, by decide +kernel⟩

end RingSystem
end Iostreams
