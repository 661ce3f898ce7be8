import Iostreams.Foundation.Fairness
import Iostreams.Ring.Concurrent

/-!
# Progress of the producer and the consumer

`spsc_safety` says what two threads never do; this module says what they get done.
A blocking thread waits in a loop, so it depends on the other one and on a schedule
that lets both go on.  What a thread still has to do is `rest` for the producer and
`left` for the consumer; both count down only when a counter is stored.  Between
two such stores `phase` counts the steps of a thread that finds something to do.
-/

namespace Iostreams

open Foundation Ringbuf

/-! ## What is left of a request -/

/-- The bytes of the request that the producer has not published. -/
def Producer.rest : Producer → List UInt8
  | .idle => []
  | .loadHead w | .loadTail w _ | .reloadHead w _ | .copy w _ _ | .storeHead w _ _ =>
      w.s.drop w.written

/-- The number of bytes the consumer still waits for. -/
def Consumer.left : Consumer → Nat
  | .idle => 0
  | .loadHead rd | .loadTail rd _ | .reloadTail rd _ | .copy rd _ _ | .storeTail rd _ _ _ =>
      rd.n - rd.bytes.length

/-- A busy producer has something left to publish, and its chunk is a part of that. -/
def Producer.Pending : Producer → Prop
  | .idle => True
  | .loadHead w | .loadTail w _ => w.written < w.s.length
  | .reloadHead w chunk | .copy w chunk _ | .storeHead w chunk _ =>
      0 < chunk ∧ w.written + chunk ≤ w.s.length

def Consumer.Pending : Consumer → Prop
  | .idle => True
  | .loadHead rd | .loadTail rd _ => rd.bytes.length < rd.n
  | .reloadTail rd chunk | .copy rd chunk _ => 0 < chunk ∧ rd.bytes.length + chunk ≤ rd.n
  | .storeTail rd chunk _ copied =>
      0 < chunk ∧ rd.bytes.length + chunk ≤ rd.n ∧ copied.length = chunk

theorem Producer.pending_loop (w : Writing) : (Producer.loop w).Pending := by
  unfold Producer.loop
  split
  · assumption
  · trivial

theorem Consumer.pending_loop (rd : Reading) : (Consumer.loop rd).Pending := by
  unfold Consumer.loop
  split
  · assumption
  · trivial

theorem Producer.rest_loop (w : Writing) : (Producer.loop w).rest = w.s.drop w.written := by
  unfold Producer.loop
  split
  · rfl
  · next hdone =>
      rw [Producer.rest, List.drop_eq_nil_of_le (Nat.le_of_not_lt hdone)]

theorem Consumer.left_loop (rd : Reading) : (Consumer.loop rd).left = rd.n - rd.bytes.length := by
  unfold Consumer.loop
  split
  · rfl
  · next hdone =>
      rw [Consumer.left, Nat.sub_eq_zero_of_le (Nat.le_of_not_lt hdone)]

theorem Producer.Pending.idle_iff {producer : Producer} (hpending : producer.Pending) :
    producer = .idle ↔ producer.rest = [] := by
  cases producer with
  | idle => simp [Producer.rest]
  | loadHead w | loadTail w h =>
      have hlt : w.written < w.s.length := hpending
      simp [Producer.rest, hlt]
  | reloadHead w chunk | copy w chunk h | storeHead w chunk h =>
      have hlt : w.written < w.s.length := by
        obtain ⟨hchunk, hle⟩ := hpending
        omega
      simp [Producer.rest, hlt]

theorem Consumer.Pending.idle_iff {consumer : Consumer} (hpending : consumer.Pending) :
    consumer = .idle ↔ consumer.left = 0 := by
  cases consumer with
  | idle => simp [Consumer.left]
  | loadHead rd | loadTail rd h =>
      have hlt : rd.bytes.length < rd.n := hpending
      simp only [Consumer.left, reduceCtorEq, false_iff]
      omega
  | reloadTail rd chunk | copy rd chunk t =>
      obtain ⟨hchunk, hle⟩ := hpending
      simp only [Consumer.left, reduceCtorEq, false_iff]
      omega
  | storeTail rd chunk t copied =>
      obtain ⟨hchunk, hle, -⟩ := hpending
      simp only [Consumer.left, reduceCtorEq, false_iff]
      omega

theorem Producer.pending_decide (nonBlocking : Bool) (avail : Nat) {w : Writing}
    (hlt : w.written < w.s.length) : (Producer.decide nonBlocking avail w).Pending := by
  unfold Producer.decide
  split
  · split
    · split
      · trivial
      · exact hlt
    · exact hlt
  · next havail =>
      constructor
      · omega
      · have hle := Nat.min_le_right avail (w.s.length - w.written)
        omega

theorem Consumer.pending_decide (nonBlocking : Bool) (avail : Nat) {rd : Reading}
    (hlt : rd.bytes.length < rd.n) : (Consumer.decide nonBlocking avail rd).Pending := by
  unfold Consumer.decide
  split
  · split
    · split
      · trivial
      · exact hlt
    · exact hlt
  · next havail =>
      constructor
      · omega
      · have hle := Nat.min_le_right avail (rd.n - rd.bytes.length)
        omega

namespace RingSystem

/-- The bytes that were published and not consumed. -/
def held (sys : RingSystem) : Nat := sys.published.length - sys.consumed.length

theorem Safe.held_eq {sys : RingSystem} {items : List UInt8} (hsafe : sys.Safe items) :
    sys.held = items.length := by
  rw [held, hsafe.published_eq, List.length_append, Nat.add_sub_cancel_left]

theorem Safe.published_length {sys : RingSystem} {items : List UInt8} (hsafe : sys.Safe items) :
    sys.published.length = sys.consumed.length + sys.held := by
  rw [hsafe.held_eq, hsafe.published_eq, List.length_append]

/-- A safe system whose threads have pending requests. -/
structure Live (nonBlocking : Bool) (size : Nat) (sys : RingSystem) : Prop where
  safe : ∃ items, sys.Safe items
  size_eq : sys.ring.ringbufferSize = size
  mode_eq : sys.ring.nonBlocking = nonBlocking
  producer : sys.producer.Pending
  consumer : sys.consumer.Pending

variable {nonBlocking : Bool} {size : Nat} {sys : RingSystem}

/-! ## The frame of a step -/

/-- A step of the producer leaves to the consumer what is the consumer's. -/
theorem produce_frame (sys : RingSystem) :
    sys.produce.consumer = sys.consumer ∧ sys.produce.consumed = sys.consumed ∧
      sys.produce.ring.tail = sys.ring.tail ∧
      sys.produce.ring.ringbufferSize = sys.ring.ringbufferSize ∧
      sys.produce.ring.nonBlocking = sys.ring.nonBlocking := by
  unfold produce
  split <;> exact ⟨rfl, rfl, rfl, rfl, rfl⟩

theorem consume_frame (sys : RingSystem) :
    sys.consume.producer = sys.producer ∧ sys.consume.published = sys.published ∧
      sys.consume.ring.head = sys.ring.head ∧
      sys.consume.ring.ringbufferSize = sys.ring.ringbufferSize ∧
      sys.consume.ring.nonBlocking = sys.ring.nonBlocking := by
  unfold consume
  split <;> exact ⟨rfl, rfl, rfl, rfl, rfl⟩

theorem pending_produce (hpending : sys.producer.Pending) : sys.produce.producer.Pending := by
  unfold produce
  cases hpc : sys.producer with
  | idle => rw [hpc]; trivial
  | loadHead w => rw [hpc] at hpending; exact hpending
  | loadTail w h =>
      rw [hpc] at hpending
      exact Producer.pending_decide _ _ hpending
  | reloadHead w chunk => rw [hpc] at hpending; exact hpending
  | copy w chunk h => rw [hpc] at hpending; exact hpending
  | storeHead w chunk h => exact Producer.pending_loop _

theorem Safe.pending_consume {items : List UInt8} (hsafe : sys.Safe items)
    (hpending : sys.consumer.Pending) : sys.consume.consumer.Pending := by
  have hconsumer := hsafe.consumer
  unfold RingSystem.consume
  cases hpc : sys.consumer with
  | idle => rw [hpc]; trivial
  | loadHead rd => rw [hpc] at hpending; exact hpending
  | loadTail rd h =>
      rw [hpc] at hpending
      exact Consumer.pending_decide _ _ hpending
  | reloadTail rd chunk => rw [hpc] at hpending; exact hpending
  | copy rd chunk t =>
      rw [hpc] at hpending hconsumer
      obtain ⟨hchunk, rfl⟩ := hconsumer
      obtain ⟨hpos, hle⟩ := hpending
      refine ⟨hpos, hle, ?_⟩
      rw [hsafe.holds.copyOut hchunk, List.length_take, Nat.min_eq_left hchunk]
  | storeTail rd chunk t copied => exact Consumer.pending_loop _

theorem Live.step (hlive : sys.Live nonBlocking size) (event : RingEvent) :
    (sys.step event).Live nonBlocking size := by
  obtain ⟨⟨items, hsafe⟩, hsize, hmode, hproducer, hconsumer⟩ := hlive
  have hnext := hsafe.step event
  cases event with
  | write s =>
      rw [RingSystem.step] at hnext ⊢
      split
      · next hpc =>
          rw [hpc] at hnext
          exact ⟨hnext, hsize, hmode, Producer.pending_loop _, hconsumer⟩
      · exact ⟨⟨items, hsafe⟩, hsize, hmode, hproducer, hconsumer⟩
  | read n =>
      rw [RingSystem.step] at hnext ⊢
      split
      · next hpc =>
          rw [hpc] at hnext
          exact ⟨hnext, hsize, hmode, hproducer, Consumer.pending_loop _⟩
      · exact ⟨⟨items, hsafe⟩, hsize, hmode, hproducer, hconsumer⟩
  | producer =>
      obtain ⟨hconsumer', -, -, hsize', hmode'⟩ := sys.produce_frame
      exact ⟨hnext, hsize'.trans hsize, hmode'.trans hmode, pending_produce hproducer,
        by rw [RingSystem.step, hconsumer']; exact hconsumer⟩
  | consumer =>
      obtain ⟨hproducer', -, -, hsize', hmode'⟩ := sys.consume_frame
      exact ⟨hnext, hsize'.trans hsize, hmode'.trans hmode,
        by rw [RingSystem.step, hproducer']; exact hproducer, hsafe.pending_consume hconsumer⟩

theorem live_start (mem : Region) (nonBlocking : Bool) :
    (start mem nonBlocking).Live nonBlocking (ringbuf mem nonBlocking).ringbufferSize :=
  ⟨⟨[], rfl, ringbuf_holds mem nonBlocking, trivial, trivial⟩, rfl, rfl, trivial, trivial⟩

/-- Every schedule keeps the system live. -/
theorem live_run (mem : Region) (nonBlocking : Bool) (schedule : List RingEvent) :
    (schedule.foldl step (start mem nonBlocking)).Live nonBlocking
      (ringbuf mem nonBlocking).ringbufferSize :=
  List.foldlRecOn schedule step (live_start mem nonBlocking)
    fun _ hlive event _ => hlive.step event

/-! ## Steps between two stores -/

/-- The steps to the next store, for a producer that finds free space. -/
def producerPhase : Producer → Nat
  | .idle => 0
  | .loadHead _ => 5
  | .loadTail _ _ => 4
  | .reloadHead _ _ => 3
  | .copy _ _ _ => 2
  | .storeHead _ _ _ => 1

/-- The steps to the next store, for a consumer that finds bytes.  A head that was
loaded while the buffer was empty has to be loaded again. -/
def consumerPhase (r : Ringbuf) : Consumer → Nat
  | .idle => 0
  | .loadHead _ => 5
  | .loadTail _ h => if r.availableReadAt h r.tail = 0 then 6 else 4
  | .reloadTail _ _ => 3
  | .copy _ _ _ => 2
  | .storeTail _ _ _ _ => 1

theorem producerPhase_le (producer : Producer) : producerPhase producer ≤ 6 := by
  cases producer <;> simp [producerPhase]

theorem consumerPhase_le (r : Ringbuf) (consumer : Consumer) : consumerPhase r consumer ≤ 6 := by
  cases consumer with
  | loadTail rd h =>
      rw [consumerPhase]
      split <;> omega
  | _ => simp [consumerPhase]

theorem consumerPhase_congr {r r' : Ringbuf} (hsize : r'.ringbufferSize = r.ringbufferSize)
    (htail : r'.tail = r.tail) (consumer : Consumer) :
    consumerPhase r' consumer = consumerPhase r consumer := by
  cases consumer with
  | loadTail rd h =>
      have havail : r'.availableReadAt h r'.tail = r.availableReadAt h r.tail := by
        rw [availableReadAt, availableReadAt, hsize, htail]
      rw [consumerPhase, consumerPhase, havail]
  | _ => rfl

/-- Either a chunk is published, or nothing is, and a blocking producer that finds free
space is nearer to its next store. -/
theorem Live.produce_progress (hlive : sys.Live false size) :
    (∃ chunk, chunk ≠ [] ∧ sys.produce.published = sys.published ++ chunk ∧
      sys.producer.rest = chunk ++ sys.produce.producer.rest) ∨
    sys.produce.published = sys.published ∧ sys.produce.producer.rest = sys.producer.rest ∧
      (sys.producer ≠ .idle → sys.held + 1 < size →
        producerPhase sys.produce.producer < producerPhase sys.producer) := by
  obtain ⟨⟨items, hsafe⟩, hsize, hmode, hpending, -⟩ := hlive
  have hheld := hsafe.held_eq
  have hproducer := hsafe.producer
  unfold produce
  cases hpc : sys.producer with
  | idle => exact .inr ⟨rfl, by simp only [hpc], fun hidle => absurd rfl hidle⟩
  | loadHead w => exact .inr ⟨rfl, rfl, fun _ _ => by simp [producerPhase]⟩
  | loadTail w h =>
      rw [hpc] at hproducer
      have havail : sys.ring.availableWriteAt h sys.ring.tail = size - 1 - sys.held := by
        rw [show h = sys.ring.head from hproducer, hheld, ← hsize]
        exact hsafe.holds.availableWrite
      refine .inr ⟨rfl, ?_, ?_⟩
      · simp only [Producer.decide, hmode, Bool.false_eq_true, if_false]
        split <;> rfl
      · intro _ hspace
        have hsome : sys.ring.availableWriteAt h sys.ring.tail ≠ 0 := by omega
        simp [Producer.decide, hsome, producerPhase]
  | reloadHead w chunk => exact .inr ⟨rfl, rfl, fun _ _ => by simp [producerPhase]⟩
  | copy w chunk h => exact .inr ⟨rfl, rfl, fun _ _ => by simp [producerPhase]⟩
  | storeHead w chunk h =>
      rw [hpc] at hpending
      obtain ⟨hpos, hle⟩ := hpending
      refine .inl ⟨w.next chunk, ?_, rfl, ?_⟩
      · apply List.ne_nil_of_length_pos
        rw [Writing.next, List.length_take, List.length_drop]
        omega
      · rw [Producer.rest_loop, Writing.advance, Writing.next]
        simp only [Producer.rest]
        rw [← List.drop_drop, List.take_append_drop]

/-- Either a chunk is consumed, or nothing is, and a blocking consumer that finds bytes
is nearer to its next store. -/
theorem Live.consume_progress (hlive : sys.Live false size) :
    (∃ chunk, 0 < chunk ∧ sys.consume.consumed.length = sys.consumed.length + chunk ∧
      sys.consumer.left = chunk + sys.consume.consumer.left) ∨
    sys.consume.consumed = sys.consumed ∧ sys.consume.consumer.left = sys.consumer.left ∧
      (sys.consumer ≠ .idle → 0 < sys.held →
        consumerPhase sys.consume.ring sys.consume.consumer <
          consumerPhase sys.ring sys.consumer) := by
  obtain ⟨⟨items, hsafe⟩, hsize, hmode, -, hpending⟩ := hlive
  have hheld := hsafe.held_eq
  unfold consume
  cases hpc : sys.consumer with
  | idle => exact .inr ⟨rfl, by simp only [hpc], fun hidle => absurd rfl hidle⟩
  | loadHead rd =>
      refine .inr ⟨rfl, rfl, fun _ hbytes => ?_⟩
      have havail : sys.ring.availableReadAt sys.ring.head sys.ring.tail ≠ 0 := by
        have hlength := hsafe.holds.availableRead
        rw [Ringbuf.availableRead] at hlength
        omega
      simp [consumerPhase, havail]
  | loadTail rd h =>
      refine .inr ⟨rfl, ?_, fun _ _ => ?_⟩
      · simp only [Consumer.decide, hmode, Bool.false_eq_true, if_false]
        split <;> rfl
      · by_cases havail : sys.ring.availableReadAt h sys.ring.tail = 0
        · simp [Consumer.decide, havail, hmode, consumerPhase]
        · simp [Consumer.decide, havail, consumerPhase]
  | reloadTail rd chunk => exact .inr ⟨rfl, rfl, fun _ _ => by simp [consumerPhase]⟩
  | copy rd chunk t => exact .inr ⟨rfl, rfl, fun _ _ => by simp [consumerPhase]⟩
  | storeTail rd chunk t copied =>
      rw [hpc] at hpending
      obtain ⟨hpos, hle, hlength⟩ := hpending
      refine .inl ⟨chunk, hpos, ?_, ?_⟩
      · rw [List.length_append, hlength]
      · rw [Consumer.left_loop]
        simp only [Consumer.left, Reading.receive, List.length_append, hlength]
        omega

/-! ## The helpful thread -/

/-- A busy producer that finds free space is helpful; otherwise the consumer is. -/
def ProducerHelps (sys : RingSystem) : Prop :=
  sys.producer.rest ≠ [] ∧ sys.held + 1 < sys.ring.ringbufferSize

instance (sys : RingSystem) : Decidable sys.ProducerHelps :=
  inferInstanceAs (Decidable (_ ∧ _))

def helpful (sys : RingSystem) : RingEvent :=
  if sys.ProducerHelps then .producer else .consumer

/-- Every store counts more than all the steps up to the next one. -/
def remaining (sys : RingSystem) : Nat :=
  7 * (sys.producer.rest.length + sys.consumer.left) +
    if sys.ProducerHelps then producerPhase sys.producer
    else consumerPhase sys.ring sys.consumer

/-- A busy thread waits for one that is idle: the producer for free space, the consumer
for bytes. -/
def Settled (sys : RingSystem) : Prop :=
  (sys.producer = .idle ∨
    sys.held + 1 = sys.ring.ringbufferSize ∧ sys.consumer = .idle) ∧
  (sys.consumer = .idle ∨ sys.held = 0 ∧ sys.producer = .idle)

/-- A schedule of the threads alone. -/
def ThreadEvent (event : RingEvent) : Prop := event = .producer ∨ event = .consumer

theorem Live.held_lt (hlive : sys.Live nonBlocking size) : sys.held < size := by
  obtain ⟨⟨items, hsafe⟩, hsize, -, -, -⟩ := hlive
  rw [hsafe.held_eq, ← hsize]
  exact hsafe.holds.length_lt

theorem Live.published_length (hlive : sys.Live nonBlocking size) :
    sys.published.length = sys.consumed.length + sys.held :=
  hlive.safe.elim fun _ hsafe => hsafe.published_length

/-- Where no thread waits for an idle one, a consumer that has to help can. -/
theorem Live.consumer_busy (hlive : sys.Live nonBlocking size) (hsize : 2 ≤ size)
    (hunsettled : ¬sys.Settled) (hhelps : ¬sys.ProducerHelps) :
    sys.consumer ≠ .idle ∧ 0 < sys.held := by
  have hidle := hlive.producer.idle_iff
  have hsize_eq := hlive.size_eq
  have hheld := hlive.held_lt
  rw [ProducerHelps, ne_eq, ← hidle] at hhelps
  by_cases hproducer : sys.producer = .idle
  · by_cases hconsumer : sys.consumer = .idle
    · exact absurd ⟨.inl hproducer, .inl hconsumer⟩ hunsettled
    · refine ⟨hconsumer, Nat.pos_of_ne_zero fun hempty => ?_⟩
      exact hunsettled ⟨.inl hproducer, .inr ⟨hempty, hproducer⟩⟩
  · have hfull : sys.held + 1 = sys.ring.ringbufferSize := by
      have hnot : ¬sys.held + 1 < sys.ring.ringbufferSize := fun hspace =>
        hhelps ⟨hproducer, hspace⟩
      omega
    refine ⟨fun hconsumer => ?_, by omega⟩
    exact hunsettled ⟨.inr ⟨hfull, hconsumer⟩, .inl hconsumer⟩

/-- While a store lowers the sum, the phases cannot make up for it. -/
theorem remaining_lt_of_store {next : RingSystem}
    (hstore : next.producer.rest.length + next.consumer.left <
      sys.producer.rest.length + sys.consumer.left) : next.remaining < sys.remaining := by
  have hproducer := producerPhase_le next.producer
  have hconsumer := consumerPhase_le next.ring next.consumer
  rw [remaining, remaining]
  split <;> omega

theorem Live.progresses_producer (hlive : sys.Live false size) :
    Progresses RingSystem.step helpful remaining sys .producer := by
  have hsize_eq := hlive.size_eq
  obtain ⟨hconsumer, hconsumed, htail, hringsize, -⟩ := sys.produce_frame
  obtain ⟨chunk, hchunk, -, hrest⟩ | ⟨hpublished, hrest, hphase⟩ := hlive.produce_progress
  · refine .inl (remaining_lt_of_store ?_)
    have hpos := List.length_pos_iff.mpr hchunk
    simp only [RingSystem.step, hconsumer, hrest, List.length_append]
    omega
  · have hheld : sys.produce.held = sys.held := by rw [held, held, hpublished, hconsumed]
    have hhelps : sys.produce.ProducerHelps ↔ sys.ProducerHelps := by
      rw [ProducerHelps, ProducerHelps, hrest, hheld, hringsize]
    by_cases hnow : sys.ProducerHelps
    · -- the producer is nearer to its next store
      refine .inl ?_
      have hbusy : sys.producer ≠ .idle := mt hlive.producer.idle_iff.mp hnow.1
      have hlower := hphase hbusy (hsize_eq ▸ hnow.2)
      simp only [RingSystem.step, remaining, hhelps, hnow, if_true, hrest, hconsumer]
      omega
    · refine .inr ⟨?_, ?_, ?_⟩
      · simp [helpful, hnow]
      · simp only [RingSystem.step, remaining, hhelps, hnow, if_false, hrest, hconsumer]
        rw [consumerPhase_congr hringsize htail]
      · simp only [RingSystem.step, helpful, hhelps]

theorem Live.progresses_consumer (hlive : sys.Live false size) (hsize : 2 ≤ size)
    (hunsettled : ¬sys.Settled) : Progresses RingSystem.step helpful remaining sys .consumer := by
  obtain ⟨hproducer, hpublished, -, hringsize, -⟩ := sys.consume_frame
  obtain ⟨chunk, hpos, -, hleft⟩ | ⟨hconsumed, hleft, hphase⟩ := hlive.consume_progress
  · refine .inl (remaining_lt_of_store ?_)
    simp only [RingSystem.step, hproducer, hleft]
    omega
  · have hheld : sys.consume.held = sys.held := by rw [held, held, hpublished, hconsumed]
    have hhelps : sys.consume.ProducerHelps ↔ sys.ProducerHelps := by
      rw [ProducerHelps, ProducerHelps, hproducer, hheld, hringsize]
    by_cases hnow : sys.ProducerHelps
    · refine .inr ⟨?_, ?_, ?_⟩
      · simp [helpful, hnow]
      · simp only [RingSystem.step, remaining, hhelps, hnow, if_true, hleft, hproducer]
      · simp only [RingSystem.step, helpful, hhelps]
    · -- the consumer is nearer to its next store
      refine .inl ?_
      obtain ⟨hbusy, hbytes⟩ := hlive.consumer_busy hsize hunsettled hnow
      have hlower := hphase hbusy hbytes
      simp only [RingSystem.step, remaining, hhelps, hnow, if_false, hleft, hproducer]
      omega

/-! ## The stream of a transfer -/

/-- The bytes of the producer's request extend what is published, and the consumer counts
what is consumed. -/
structure Transfers (stream : List UInt8) (wanted : Nat) (sys : RingSystem) : Prop where
  stream_eq : sys.published ++ sys.producer.rest = stream
  wanted_eq : sys.consumed.length + sys.consumer.left = wanted

/-- What is published and consumed later, in terms of what was left of the requests. -/
theorem Transfers.lengths {later : RingSystem}
    (htransfers : later.Transfers (sys.published ++ sys.producer.rest)
      (sys.consumed.length + sys.consumer.left))
    (hlater : later.Live false size) (hlive : sys.Live false size) :
    later.consumed.length + later.held + later.producer.rest.length =
        sys.consumed.length + sys.held + sys.producer.rest.length ∧
      later.consumed.length + later.consumer.left =
        sys.consumed.length + sys.consumer.left ∧
      later.held < size := by
  refine ⟨?_, htransfers.wanted_eq, hlater.held_lt⟩
  rw [← hlater.published_length, ← hlive.published_length, ← List.length_append,
    ← List.length_append, htransfers.stream_eq]

theorem Live.transfers_step (hlive : sys.Live false size) {stream : List UInt8} {wanted : Nat}
    (htransfers : sys.Transfers stream wanted) {event : RingEvent} (hevent : ThreadEvent event) :
    (sys.step event).Transfers stream wanted := by
  obtain ⟨hstream, hwanted⟩ := htransfers
  obtain rfl | rfl := hevent
  · obtain ⟨hconsumer, hconsumed, -⟩ := sys.produce_frame
    refine ⟨?_, by rw [RingSystem.step, hconsumer, hconsumed, hwanted]⟩
    obtain ⟨chunk, -, hpublished, hrest⟩ | ⟨hpublished, hrest, -⟩ := hlive.produce_progress
    · rw [RingSystem.step, hpublished, List.append_assoc, ← hrest, hstream]
    · rw [RingSystem.step, hpublished, hrest, hstream]
  · obtain ⟨hproducer, hpublished, -⟩ := sys.consume_frame
    refine ⟨by rw [RingSystem.step, hproducer, hpublished, hstream], ?_⟩
    obtain ⟨chunk, -, hconsumed, hleft⟩ | ⟨hconsumed, hleft, -⟩ := hlive.consume_progress
    · rw [RingSystem.step, hconsumed, Nat.add_assoc, ← hleft, hwanted]
    · rw [RingSystem.step, hconsumed, hleft, hwanted]

section Fair

variable {schedule : Nat → RingEvent}

/-- A live system all along a schedule of the threads, with the stream it transfers. -/
theorem transfers_trajectory (hlive : sys.Live false size)
    (hthreads : ∀ time, ThreadEvent (schedule time)) (time : Nat) :
    (trajectory step sys schedule time).Live false size ∧
      (trajectory step sys schedule time).Transfers (sys.published ++ sys.producer.rest)
        (sys.consumed.length + sys.consumer.left) := by
  have hstep : ∀ later event, ThreadEvent event →
      Live false size later ∧ later.Transfers (sys.published ++ sys.producer.rest)
        (sys.consumed.length + sys.consumer.left) →
      Live false size (later.step event) ∧
        (later.step event).Transfers (sys.published ++ sys.producer.rest)
          (sys.consumed.length + sys.consumer.left) := by
    rintro later event hevent ⟨hnow, htransfers⟩
    exact ⟨hnow.step event, hnow.transfers_step htransfers hevent⟩
  exact trajectory_preserves hstep hthreads ⟨hlive, rfl, rfl⟩ time

/-- A fair schedule ends where a busy thread can only wait for an idle one. -/
theorem settles (hlive : sys.Live false size) (hsize : 2 ≤ size)
    (hthreads : ∀ time, ThreadEvent (schedule time)) (hproducer : Recurring schedule .producer)
    (hconsumer : Recurring schedule .consumer) :
    ∃ time, (trajectory step sys schedule time).Settled := by
  have hprogress : ∀ later event, ThreadEvent event → Live false size later →
      ¬later.Settled → Progresses step helpful remaining later event := by
    rintro later event (rfl | rfl) hnow hunsettled
    · exact hnow.progresses_producer
    · exact hnow.progresses_consumer hsize hunsettled
  have hfair : ∀ later, Recurring schedule (helpful later) := by
    intro later
    rw [helpful]
    split
    · exact hproducer
    · exact hconsumer
  exact reaches_of_helpful (fun later event _ hnow => hnow.step event) hprogress hthreads hfair
    hlive

end Fair

/-- The size of the ring that a region gives. -/
theorem ringbuf_size {mem : Region} (hmem : ringHeaderSize < mem.totalSize) (nonBlocking : Bool) :
    (ringbuf mem nonBlocking).ringbufferSize = mem.totalSize - ringHeaderSize := by
  simp only [ringbuf]
  rw [if_pos hmem]

/-- Two blocking threads on a ring of at least two cells, under any schedule that takes the next
step of each again and again, from any state that a run reaches.  The write returns exactly if what
it has left fits, after what the pending read still takes, into the ring; the read returns exactly
if what it waits for is in the ring or pending in the write; and it has then taken the next bytes of
the stream. -/
theorem fair_transfer (mem : Region) (hmem : ringHeaderSize + 2 ≤ mem.totalSize)
    (before : List RingEvent) {schedule : Nat → RingEvent}
    (hthreads : ∀ time, schedule time = .producer ∨ schedule time = .consumer)
    (hproducer : Recurring schedule .producer) (hconsumer : Recurring schedule .consumer) :
    let sys := before.foldl step (start mem false)
    let later := trajectory step sys schedule
    ((∃ time, (later time).producer = .idle) ↔
      sys.held + sys.producer.rest.length ≤
        sys.consumer.left + (mem.totalSize - ringHeaderSize - 1)) ∧
    ((∃ time, (later time).consumer = .idle) ↔
      sys.consumer.left ≤ sys.held + sys.producer.rest.length) ∧
    ∀ time, (later time).consumer = .idle →
      (later time).consumed =
        (sys.published ++ sys.producer.rest).take (sys.consumed.length + sys.consumer.left) := by
  intro sys later
  have hsize_eq := ringbuf_size (show ringHeaderSize < mem.totalSize by omega) false
  have hlive : sys.Live false (mem.totalSize - ringHeaderSize) :=
    hsize_eq ▸ live_run mem false before
  have hcarried : ∀ time, (later time).Live false (mem.totalSize - ringHeaderSize) ∧
      (later time).Transfers (sys.published ++ sys.producer.rest)
        (sys.consumed.length + sys.consumer.left) := transfers_trajectory hlive hthreads
  obtain ⟨settled, hproducer_settled, hconsumer_settled⟩ : ∃ time, (later time).Settled :=
    settles hlive (by omega) hthreads hproducer hconsumer
  obtain ⟨hsettled, htransfers⟩ := hcarried settled
  obtain ⟨hpublished, hconsumed, -⟩ := htransfers.lengths hsettled hlive
  refine ⟨⟨?_, ?_⟩, ⟨?_, ?_⟩, ?_⟩
  · rintro ⟨time, hidle⟩
    obtain ⟨hpublished, hconsumed, hlt⟩ := (hcarried time).2.lengths (hcarried time).1 hlive
    rw [hidle, Producer.rest, List.length_nil] at hpublished
    omega
  · intro hfits
    refine ⟨settled, hproducer_settled.elim id ?_⟩
    rintro ⟨hfull, hidle⟩
    rw [hsettled.size_eq] at hfull
    rw [hidle, Consumer.left] at hconsumed
    have hnone : (later settled).producer.rest.length = 0 := by omega
    exact hsettled.producer.idle_iff.mpr (List.eq_nil_of_length_eq_zero hnone)
  · rintro ⟨time, hidle⟩
    obtain ⟨hpublished, hconsumed, -⟩ := (hcarried time).2.lengths (hcarried time).1 hlive
    rw [hidle, Consumer.left] at hconsumed
    omega
  · intro hwanted
    refine ⟨settled, hconsumer_settled.elim id ?_⟩
    rintro ⟨hempty, hidle⟩
    rw [hidle, Producer.rest, List.length_nil] at hpublished
    have hnone : (later settled).consumer.left = 0 := by omega
    exact hsettled.consumer.idle_iff.mpr hnone
  · intro time hidle
    obtain ⟨-, hconsumed, -⟩ := (hcarried time).2.lengths (hcarried time).1 hlive
    obtain ⟨⟨⟨items, hsafe⟩, -, -, -, -⟩, hstream, -⟩ := hcarried time
    rw [hidle, Consumer.left, Nat.add_zero] at hconsumed
    rw [← hconsumed, ← hstream, hsafe.published_eq, List.append_assoc, List.take_left']
    rfl

/-- Three bytes go through a ring that holds one, by turns. -/
theorem fair_transfer_by_turns :
    let sys := [RingEvent.write [7, 8, 9], .read 3].foldl step
      (start ⟨18, fun _ => 0, by decide⟩ false)
    let turns : Nat → RingEvent := fun time => if time % 2 = 0 then .producer else .consumer
    ∃ time, (trajectory step sys turns time).consumer = .idle := by
  intro sys turns
  have hthreads : ∀ time, turns time = .producer ∨ turns time = .consumer := by
    intro time
    by_cases heven : time % 2 = 0
    · exact .inl (if_pos heven)
    · exact .inr (if_neg heven)
  have hproducer : Recurring turns .producer := fun time =>
    ⟨2 * time, by omega, if_pos (by omega)⟩
  have hconsumer : Recurring turns .consumer := fun time =>
    ⟨2 * time + 1, by omega, if_neg (by omega)⟩
  exact (fair_transfer ⟨18, fun _ => 0, by decide⟩ (by decide) [.write [7, 8, 9], .read 3]
    hthreads hproducer hconsumer).2.1.mpr (by decide)

end RingSystem
end Iostreams
