import Iostreams.Foundation.ReadProgram
import Iostreams.Ring.Progress

/-!
# Programs on the two ends of a ring

One thread makes a list of `sputn` calls, and another runs a program that calls `sgetn` again and
again, where what it asks for may depend on what it has got.  On a blocking ring, however small and
whatever the schedule, the second thread computes what its program computes on the bytes of all the
calls: `expected`, the rest of the program on the bytes that are still to come, does not change in
any step.

A thread begins or ends a call in steps of their own, and `effort` counts these as well.
-/

namespace Iostreams

open Foundation Ringbuf

/-- The thread that reads: between two calls, or in a call that began at the byte `mark` of
the stream. -/
inductive RingReader (α : Type) where
  | ready (program : ReadProgram UInt8 α)
  | waiting (mark : Nat) (next : List UInt8 → ReadProgram UInt8 α)

inductive RingThread where
  | producer
  | consumer
  deriving DecidableEq

structure RingPrograms (α : Type) where
  sys : RingSystem
  /-- The calls that the producer has not begun. -/
  writes : List (List UInt8)
  reader : RingReader α

namespace RingPrograms

variable {α : Type}

def start (mem : Region) (writes : List (List UInt8)) (program : ReadProgram UInt8 α) :
    RingPrograms α where
  sys := .start mem false
  writes := writes
  reader := .ready program

def produce (state : RingPrograms α) : RingPrograms α :=
  match state.sys.producer with
  | .idle =>
      match state.writes with
      | [] => state
      | s :: writes => { state with sys := state.sys.step (.write s), writes }
  | _ => { state with sys := state.sys.step .producer }

def consume (state : RingPrograms α) : RingPrograms α :=
  match state.reader with
  | .ready (.done _) => state
  | .ready (.read n next) =>
      { state with
        sys := state.sys.step (.read n)
        reader := .waiting state.sys.consumed.length next }
  | .waiting mark next =>
      match state.sys.consumer with
      | .idle => { state with reader := .ready (next (state.sys.consumed.drop mark)) }
      | _ => { state with sys := state.sys.step .consumer }

def step (state : RingPrograms α) : RingThread → RingPrograms α
  | .producer => state.produce
  | .consumer => state.consume

/-- The thread has returned. -/
def Returns (state : RingPrograms α) (result : α) : Prop :=
  state.reader = .ready (.done result)

def ProducerDone (state : RingPrograms α) : Prop :=
  state.sys.producer = .idle ∧ state.writes = []

/-! ## The rest of the program -/

/-- The bytes that are still to be consumed. -/
def future (state : RingPrograms α) : List UInt8 :=
  (state.sys.published ++ state.sys.producer.rest ++ state.writes.flatten).drop
    state.sys.consumed.length

/-- What the reader computes if it gets these bytes. -/
def expected (state : RingPrograms α) : Option (α × List UInt8) :=
  match state.reader with
  | .ready program => program.run state.future
  | .waiting mark next =>
      ReadProgram.resume (state.sys.consumed.drop mark) state.sys.consumer.left next state.future

def readerWork (state : RingPrograms α) : Nat :=
  match state.reader with
  | .ready program => program.work state.future
  | .waiting mark next =>
      ReadProgram.resumeWork (state.sys.consumed.drop mark) state.sys.consumer.left next
        state.future

/-- The bytes that are not published. -/
def unpublished (state : RingPrograms α) : Nat :=
  state.sys.producer.rest.length + state.writes.flatten.length

/-- A live system whose consumer is busy in calls only. -/
structure Running (size : Nat) (state : RingPrograms α) : Prop where
  live : state.sys.Live false size
  reader : match state.reader with
    | .ready _ => state.sys.consumer = .idle
    | .waiting mark _ => mark ≤ state.sys.consumed.length

variable {size : Nat} {state : RingPrograms α}

theorem Running.future_length (hrunning : state.Running size) :
    state.future.length = state.sys.held + state.unpublished := by
  have hpublished := hrunning.live.published_length
  simp only [future, unpublished, List.length_drop, List.length_append]
  omega

/-! ## Steps -/

/-- What a step of the producer can be. -/
theorem produce_cases (state : RingPrograms α) :
    state.ProducerDone ∧ state.produce = state ∨
    (∃ s writes, state.sys.producer = .idle ∧ state.writes = s :: writes ∧ state.produce =
      ⟨{ state.sys with producer := .loop ⟨s, 0, 0⟩ }, writes, state.reader⟩) ∨
    state.sys.producer ≠ .idle ∧ state.produce = { state with sys := state.sys.produce } := by
  by_cases hidle : state.sys.producer = .idle
  · cases hwrites : state.writes with
    | nil => exact .inl ⟨⟨hidle, hwrites⟩, by simp only [produce, hidle, hwrites]⟩
    | cons s writes =>
        exact .inr (.inl ⟨s, writes, hidle, rfl, by
          simp only [produce, hidle, hwrites, RingSystem.step]⟩)
  · refine .inr (.inr ⟨hidle, ?_⟩)
    unfold produce
    split
    · next hnow => exact absurd hnow hidle
    · rfl

/-- What a step of the reader can be. -/
theorem Running.consume_cases (hrunning : state.Running size) :
    (∃ result, state.Returns result ∧ state.consume = state) ∨
    (∃ n next, state.reader = .ready (.read n next) ∧ state.sys.consumer = .idle ∧
      state.consume = ⟨{ state.sys with consumer := .loop ⟨n, [], 0⟩ }, state.writes,
        .waiting state.sys.consumed.length next⟩) ∨
    (∃ mark next, state.reader = .waiting mark next ∧ state.sys.consumer = .idle ∧
      state.consume = { state with reader := .ready (next (state.sys.consumed.drop mark)) }) ∨
    ∃ mark next, state.reader = .waiting mark next ∧ mark ≤ state.sys.consumed.length ∧
      state.sys.consumer ≠ .idle ∧ state.consume = { state with sys := state.sys.consume } := by
  have hreading := hrunning.reader
  cases hreader : state.reader with
  | ready program =>
      rw [hreader] at hreading
      cases program with
      | done result => exact .inl ⟨result, hreader, by simp only [consume, hreader]⟩
      | read n next =>
          refine .inr (.inl ⟨n, next, rfl, hreading, ?_⟩)
          have hidle : state.sys.consumer = .idle := hreading
          simp only [consume, hreader, RingSystem.step, hidle]
  | waiting mark next =>
      rw [hreader] at hreading
      by_cases hidle : state.sys.consumer = .idle
      · exact .inr (.inr (.inl ⟨mark, next, rfl, hidle, by simp only [consume, hreader, hidle]⟩))
      · exact .inr (.inr (.inr ⟨mark, next, rfl, hreading, hidle, by
          simp only [consume, hreader, RingSystem.step]⟩))

/-- A step of the consumer appends to what is consumed. -/
theorem consumed_consume (sys : RingSystem) :
    ∃ chunk, sys.consume.consumed = sys.consumed ++ chunk := by
  unfold RingSystem.consume
  split
  · exact ⟨[], (List.append_nil _).symm⟩
  · exact ⟨[], (List.append_nil _).symm⟩
  · exact ⟨[], (List.append_nil _).symm⟩
  · exact ⟨[], (List.append_nil _).symm⟩
  · exact ⟨[], (List.append_nil _).symm⟩
  · next rd chunk t copied _ => exact ⟨copied, rfl⟩

/-- In a call the consumer takes a chunk of the future, which may be empty. -/
theorem Running.consume_chunk (hrunning : state.Running size) :
    ∃ chunk, state.sys.consume.consumed = state.sys.consumed ++ chunk ∧
      state.sys.consumer.left = chunk.length + state.sys.consume.consumer.left ∧
      state.future = chunk ++ { state with sys := state.sys.consume }.future := by
  obtain ⟨chunk, hchunk⟩ := consumed_consume state.sys
  obtain ⟨hproducer, hpublished, -⟩ := state.sys.consume_frame
  refine ⟨chunk, hchunk, ?_, ?_⟩
  · obtain ⟨count, -, hlength, hleft⟩ | ⟨hconsumed, hleft, -⟩ := hrunning.live.consume_progress
    · rw [hchunk, List.length_append] at hlength
      omega
    · rw [hchunk, List.append_right_eq_self] at hconsumed
      rw [hconsumed, hleft, List.length_nil, Nat.zero_add]
  · obtain ⟨items, hsafe⟩ := (hrunning.live.step .consumer).safe
    have hstream : state.sys.published = state.sys.consumed ++ (chunk ++ items) := by
      rw [← List.append_assoc, ← hchunk, ← hpublished]
      exact hsafe.published_eq
    simp only [future, hproducer, hpublished, hchunk, hstream, List.append_assoc,
      List.drop_left, List.length_append, List.drop_length_add_append]

/-- A producer that is busy does not change what is still to come. -/
theorem Running.produce_future (hrunning : state.Running size) :
    { state with sys := state.sys.produce }.future = state.future := by
  obtain ⟨-, hconsumed, -⟩ := state.sys.produce_frame
  have hstream := (hrunning.live.transfers_step ⟨rfl, rfl⟩ (.inl rfl)).stream_eq
  rw [RingSystem.step] at hstream
  simp only [future, hconsumed, hstream]

theorem Running.produce (hrunning : state.Running size) :
    state.produce.Running size ∧ state.produce.expected = state.expected ∧
      state.produce.readerWork = state.readerWork := by
  have hreading := hrunning.reader
  obtain ⟨-, hsame⟩ | ⟨s, writes, hidle, hwrites, hbegin⟩ | ⟨-, hbusy⟩ := state.produce_cases
  · rw [hsame]
    exact ⟨hrunning, rfl, rfl⟩
  · -- a call begins: its bytes are still to come as before
    have hlive := hrunning.live.step (.write s)
    simp only [RingSystem.step, hidle] at hlive
    have hnothing : state.sys.producer.rest = [] := by rw [hidle]; rfl
    have hrest : (Producer.loop ⟨s, 0, 0⟩).rest = s := Producer.rest_loop _
    have hfuture : state.produce.future = state.future := by
      rw [hbegin]
      simp only [future, hnothing, hrest, hwrites, List.append_nil, List.flatten_cons,
        List.append_assoc]
    refine ⟨?_, ?_, ?_⟩
    · rw [hbegin]
      exact ⟨hlive, hreading⟩
    · rw [expected, expected, hfuture, hbegin]
    · rw [readerWork, readerWork, hfuture, hbegin]
  · obtain ⟨hconsumer, hconsumed, -⟩ := state.sys.produce_frame
    have hfuture := hrunning.produce_future
    rw [hbusy]
    refine ⟨⟨hrunning.live.step .producer, ?_⟩, ?_, ?_⟩
    · simp only [hconsumer, hconsumed]
      exact hreading
    · rw [expected, expected, hfuture]
      simp only [hconsumer, hconsumed]
    · rw [readerWork, readerWork, hfuture]
      simp only [hconsumer, hconsumed]

theorem Running.consume (hrunning : state.Running size) :
    state.consume.Running size ∧ state.consume.expected = state.expected := by
  obtain ⟨-, -, hsame⟩ | ⟨n, next, hreader, hidle, hbegin⟩ | ⟨mark, next, hreader, hidle, hend⟩ |
    ⟨mark, next, hreader, hmark, -, hbusy⟩ := hrunning.consume_cases
  · rw [hsame]
    exact ⟨hrunning, rfl⟩
  · have hlive := hrunning.live.step (.read n)
    simp only [RingSystem.step, hidle] at hlive
    rw [hbegin]
    refine ⟨⟨hlive, Nat.le_refl _⟩, ?_⟩
    rw [expected, expected, hreader]
    simp only [future, List.drop_length, Consumer.left_loop, List.length_nil, Nat.sub_zero]
    rfl
  · rw [hend]
    refine ⟨⟨hrunning.live, hidle⟩, ?_⟩
    rw [expected, expected, hreader]
    simp only [hidle, Consumer.left, ReadProgram.resume_zero]
    rfl
  · obtain ⟨chunk, hconsumed, hleft, hfuture⟩ := hrunning.consume_chunk
    rw [hbusy]
    refine ⟨⟨hrunning.live.step .consumer, ?_⟩, ?_⟩
    · simp only [hreader, hconsumed, List.length_append]
      omega
    · rw [expected, expected, hfuture]
      simp only [hreader, hconsumed, hleft, ReadProgram.resume_append,
        List.drop_append_of_le_length hmark]

/-! ## The helpful thread -/

/-- The producer can begin a call, or finds free space in the one that it is in. -/
def ProducerHelps (state : RingPrograms α) : Prop :=
  if state.sys.producer.rest = [] then state.writes ≠ []
  else state.sys.held + 1 < state.sys.ring.ringbufferSize

instance (state : RingPrograms α) : Decidable state.ProducerHelps := by
  unfold ProducerHelps
  exact inferInstance

def helpful (state : RingPrograms α) : RingThread :=
  if state.ProducerHelps then .producer else .consumer

/-- Every store, and every begin and end of a call, counts more than the steps up to the next
one. -/
def effort (state : RingPrograms α) : Nat :=
  7 * (state.unpublished + state.readerWork + state.writes.length) +
    if state.ProducerHelps then RingSystem.producerPhase state.sys.producer
    else RingSystem.consumerPhase state.sys.ring state.sys.consumer

/-- Nothing more happens: the reader has returned or waits for bytes that nobody will write, and
the producer has returned or waits for space. -/
def Settled (state : RingPrograms α) : Prop :=
  ¬state.ProducerHelps ∧
    ((∃ result, state.Returns result) ∨ state.sys.consumer.left ≠ 0 ∧ state.sys.held = 0)

theorem effort_lt {next : RingPrograms α}
    (hcount : next.unpublished + next.readerWork + next.writes.length <
      state.unpublished + state.readerWork + state.writes.length) : next.effort < state.effort := by
  have hproducer := RingSystem.producerPhase_le next.sys.producer
  have hconsumer := RingSystem.consumerPhase_le next.sys.ring next.sys.consumer
  rw [effort, effort]
  split <;> omega

theorem Running.progresses_producer (hrunning : state.Running size) :
    Progresses step helpful effort state .producer := by
  have hwork := hrunning.produce.2.2
  have hlive := hrunning.live
  obtain ⟨hdone, hsame⟩ | ⟨s, writes, hidle, hwrites, hbegin⟩ | ⟨hbusy, hstep⟩ :=
    state.produce_cases
  · -- nothing is left to write
    have hnot : ¬state.ProducerHelps := by
      simp [ProducerHelps, hdone.1, hdone.2, Producer.rest]
    rw [Progresses, RingPrograms.step, hsame]
    exact .inr ⟨by simp [helpful, hnot], rfl, rfl⟩
  · -- a call begins, which counts as one of those that are left
    refine .inl (effort_lt ?_)
    have hnothing : state.sys.producer.rest = [] := by rw [hidle]; rfl
    have hrest : (Producer.loop ⟨s, 0, 0⟩).rest = s := Producer.rest_loop _
    rw [RingPrograms.step, hwork]
    simp only [unpublished, hbegin, hnothing, hrest, hwrites, List.flatten_cons, List.length_append,
      List.length_nil, List.length_cons]
    omega
  · obtain ⟨hconsumer, hconsumed, htail, hringsize, -⟩ := state.sys.produce_frame
    have hrest_ne : state.sys.producer.rest ≠ [] := mt hlive.producer.idle_iff.mpr hbusy
    obtain ⟨chunk, hchunk, -, hrest⟩ | ⟨hpublished, hrest, hphase⟩ := hlive.produce_progress
    · -- a chunk is published
      refine .inl (effort_lt ?_)
      have hpos := List.length_pos_iff.mpr hchunk
      rw [RingPrograms.step, hwork]
      simp only [unpublished, hstep, hrest, List.length_append]
      omega
    · -- no chunk: the thread is at the next step of its round, or in a vain one
      have hheld : state.sys.produce.held = state.sys.held := by
        rw [RingSystem.held, RingSystem.held, hpublished, hconsumed]
      have hhelps : state.produce.ProducerHelps ↔ state.ProducerHelps := by
        simp only [ProducerHelps, hstep, hrest, hheld, hringsize]
      have hunpublished : state.produce.unpublished = state.unpublished := by
        simp only [unpublished, hstep, hrest]
      have hcalls : state.produce.writes = state.writes := by rw [hstep]
      by_cases hnow : state.ProducerHelps
      · refine .inl ?_
        have hspace : state.sys.held + 1 < size := by
          rw [ProducerHelps, if_neg hrest_ne, hlive.size_eq] at hnow
          exact hnow
        have hlower := hphase hbusy hspace
        simp only [RingPrograms.step, effort, hhelps, hnow, if_true, hunpublished, hwork, hcalls]
        rw [hstep]
        simp only
        omega
      · refine .inr ⟨by simp [helpful, hnow], ?_, ?_⟩
        · simp only [RingPrograms.step, effort, hhelps, hnow, if_false, hunpublished, hwork, hcalls]
          rw [hstep]
          simp only [hconsumer, RingSystem.consumerPhase_congr hringsize htail]
        · simp only [RingPrograms.step, helpful, hhelps]

/-- An unsettled reader that has to help can. -/
theorem Running.consumer_helps (hrunning : state.Running size) (hunsettled : ¬state.Settled)
    (hhelps : ¬state.ProducerHelps) :
    (∀ result, ¬state.Returns result) ∧ (state.sys.consumer ≠ .idle → 0 < state.sys.held) := by
  refine ⟨fun result hreturns => hunsettled ⟨hhelps, .inl ⟨result, hreturns⟩⟩, fun hbusy => ?_⟩
  have hleft : state.sys.consumer.left ≠ 0 := mt hrunning.live.consumer.idle_iff.mpr hbusy
  exact Nat.pos_of_ne_zero fun hempty => hunsettled ⟨hhelps, .inr ⟨hleft, hempty⟩⟩

theorem Running.progresses_consumer (hrunning : state.Running size)
    (hunsettled : ¬state.Settled) : Progresses step helpful effort state .consumer := by
  have hlive := hrunning.live
  obtain ⟨result, hreturns, hsame⟩ | ⟨n, next, hreader, hidle, hbegin⟩ |
    ⟨mark, next, hreader, hidle, hend⟩ | ⟨mark, next, hreader, hmark, hbusy, hstep⟩ :=
    hrunning.consume_cases
  · -- the reader has returned, and the producer is the one to help
    have hhelps : state.ProducerHelps := by
      by_contra hnot
      exact (hrunning.consumer_helps hunsettled hnot).1 result hreturns
    rw [Progresses, RingPrograms.step, hsame]
    exact .inr ⟨by simp [helpful, hhelps], rfl, rfl⟩
  · -- a request begins
    refine .inl (effort_lt ?_)
    rw [RingPrograms.step, readerWork, readerWork, hbegin, hreader]
    simp only [unpublished, future, List.drop_length, Consumer.left_loop, List.length_nil,
      Nat.sub_zero, ReadProgram.work_read]
    omega
  · -- the program goes on with what the request has got
    refine .inl (effort_lt ?_)
    rw [RingPrograms.step, readerWork, readerWork, hend, hreader]
    simp only [unpublished, future, hidle, Consumer.left, ReadProgram.resumeWork_zero]
    omega
  · -- the request is in one of its rounds, which takes a chunk or nothing
    obtain ⟨hproducer, hpublished, -, hringsize, -⟩ := state.sys.consume_frame
    obtain ⟨chunk, hchunk, hleft, hfuture⟩ := hrunning.consume_chunk
    have hwork : state.readerWork = chunk.length + state.consume.readerWork := by
      rw [readerWork, readerWork, hstep, hfuture]
      simp only [hreader, hchunk, hleft, ReadProgram.resumeWork_append,
        List.drop_append_of_le_length hmark]
    have hunpublished : state.consume.unpublished = state.unpublished := by
      simp only [unpublished, hstep, hproducer]
    have hcalls : state.consume.writes = state.writes := by rw [hstep]
    by_cases hnone : chunk = []
    · rw [hnone, List.length_nil, Nat.zero_add] at hwork
      rw [hnone, List.append_nil] at hchunk
      have hheld : state.sys.consume.held = state.sys.held := by
        rw [RingSystem.held, RingSystem.held, hpublished, hchunk]
      have hhelps : state.consume.ProducerHelps ↔ state.ProducerHelps := by
        simp only [ProducerHelps, hstep, hproducer, hheld, hringsize]
      by_cases hnow : state.ProducerHelps
      · refine .inr ⟨by simp [helpful, hnow], ?_, ?_⟩
        · simp only [RingPrograms.step, effort, hhelps, hnow, if_true, hunpublished, ← hwork, hcalls]
          rw [hstep]
          simp only [hproducer]
        · simp only [RingPrograms.step, helpful, hhelps]
      · -- the consumer is nearer to its next store
        refine .inl ?_
        obtain ⟨count, hpos, hlength, -⟩ | ⟨-, -, hphase⟩ := hlive.consume_progress
        · rw [hchunk] at hlength
          omega
        · have hlower := hphase hbusy ((hrunning.consumer_helps hunsettled hnow).2 hbusy)
          simp only [RingPrograms.step, effort, hhelps, hnow, if_false, hunpublished, ← hwork,
            hcalls]
          rw [hstep]
          simp only
          omega
    · refine .inl (effort_lt ?_)
      have hpos := List.length_pos_iff.mpr hnone
      rw [RingPrograms.step, hunpublished, hcalls]
      omega

/-! ## Runs -/

theorem running_start (mem : Region) (writes : List (List UInt8)) (program : ReadProgram UInt8 α) :
    (start mem writes program).Running (ringbuf mem false).ringbufferSize :=
  ⟨RingSystem.live_start mem false, rfl⟩

section Schedules

variable {schedule : Nat → RingThread}

/-- All along a schedule the rest of the program has the result of the whole. -/
theorem running_trajectory (hrunning : state.Running size) (time : Nat) :
    (trajectory step state schedule time).Running size ∧
      (trajectory step state schedule time).expected = state.expected := by
  have hstep : ∀ (later : RingPrograms α) (thread : RingThread), True →
      Running size later ∧ later.expected = state.expected →
      Running size (later.step thread) ∧ (later.step thread).expected = state.expected := by
    rintro later thread - ⟨hlater, hexpected⟩
    cases thread with
    | producer => exact ⟨hlater.produce.1, hlater.produce.2.1.trans hexpected⟩
    | consumer => exact ⟨hlater.consume.1, hlater.consume.2.trans hexpected⟩
  exact trajectory_preserves hstep (fun _ => trivial) ⟨hrunning, rfl⟩ time

theorem settles (hrunning : state.Running size) (hproducer : Recurring schedule .producer)
    (hconsumer : Recurring schedule .consumer) :
    ∃ time, (trajectory step state schedule time).Settled := by
  have hinvariant : ∀ (later : RingPrograms α) (thread : RingThread), True →
      Running size later → Running size (later.step thread) := by
    rintro later thread - hlater
    cases thread with
    | producer => exact hlater.produce.1
    | consumer => exact hlater.consume.1
  have hprogress : ∀ (later : RingPrograms α) (thread : RingThread), True →
      Running size later → ¬later.Settled → Progresses step helpful effort later thread := by
    rintro later thread - hlater hunsettled
    cases thread with
    | producer => exact hlater.progresses_producer
    | consumer => exact hlater.progresses_consumer hunsettled
  have hfair : ∀ later : RingPrograms α, Recurring schedule (helpful later) := by
    intro later
    rw [helpful]
    split
    · exact hproducer
    · exact hconsumer
  exact reaches_of_helpful hinvariant hprogress (fun _ => trivial) hfair hrunning

end Schedules

/-- What a reader that has returned has computed. -/
theorem expected_of_returns {result : α} (hreturns : state.Returns result) :
    state.expected = some (result, state.future) := by
  have hreader : state.reader = .ready (.done result) := hreturns
  simp only [expected, hreader, ReadProgram.run]

/-- A producer that cannot help has returned, or the ring is full. -/
theorem Running.producer_of_not_helps (hrunning : state.Running size)
    (hhelps : ¬state.ProducerHelps) :
    state.ProducerDone ∨ state.sys.producer.rest ≠ [] ∧ size ≤ state.sys.held + 1 := by
  by_cases hrest : state.sys.producer.rest = []
  · rw [ProducerHelps, if_pos hrest, not_ne_iff] at hhelps
    exact .inl ⟨hrunning.live.producer.idle_iff.mpr hrest, hhelps⟩
  · rw [ProducerHelps, if_neg hrest, hrunning.live.size_eq] at hhelps
    exact .inr ⟨hrest, by omega⟩

/-- A settled reader that has not returned waits for ever, and the producer has returned. -/
theorem Running.of_settled (hrunning : state.Running size) (hsize : 2 ≤ size)
    (hsettled : state.Settled) :
    (∃ result, state.Returns result) ∨ state.expected = none ∧ state.ProducerDone := by
  obtain ⟨hhelps, hreturned | ⟨hleft, hempty⟩⟩ := hsettled
  · exact .inl hreturned
  · obtain hdone | ⟨-, hfull⟩ := hrunning.producer_of_not_helps hhelps
    · have hreading := hrunning.reader
      have hnothing : state.future.length = 0 := by
        rw [hrunning.future_length, hempty, unpublished, hdone.1, hdone.2]
        rfl
      refine .inr ⟨?_, hdone⟩
      cases hreader : state.reader with
      | ready program =>
          rw [hreader] at hreading
          exact absurd (hrunning.live.consumer.idle_iff.mp hreading) hleft
      | waiting mark next =>
          simp only [expected, hreader, ReadProgram.resume]
          rw [if_neg (by omega)]
    · omega

section Fair

variable {mem : Region} {writes : List (List UInt8)} {program : ReadProgram UInt8 α}
  {schedule : Nat → RingThread}

/-- Every state of a schedule, and one that is settled. -/
theorem settled_of_fair (hmem : ringHeaderSize + 2 ≤ mem.totalSize)
    (hproducer : Recurring schedule .producer) (hconsumer : Recurring schedule .consumer) :
    let later := trajectory step (start mem writes program) schedule
    (∀ time, (later time).Running (mem.totalSize - ringHeaderSize) ∧
      (later time).expected = program.run writes.flatten) ∧
    ∃ time, (later time).Settled := by
  intro later
  have hsize := RingSystem.ringbuf_size (show ringHeaderSize < mem.totalSize by omega) false
  have hstart := running_start mem writes program
  rw [hsize] at hstart
  exact ⟨running_trajectory hstart, settles hstart hproducer hconsumer⟩

theorem returns_iff (hmem : ringHeaderSize + 2 ≤ mem.totalSize)
    (hproducer : Recurring schedule .producer) (hconsumer : Recurring schedule .consumer)
    (result : α) :
    (∃ time, (trajectory step (start mem writes program) schedule time).Returns result) ↔
      ∃ rest, program.run writes.flatten = some (result, rest) := by
  obtain ⟨hlater, settled, hsettled⟩ := settled_of_fair hmem hproducer hconsumer
  obtain ⟨hrunning, hexpected⟩ := hlater settled
  constructor
  · rintro ⟨time, hreturns⟩
    exact ⟨_, (hlater time).2.symm.trans (expected_of_returns hreturns)⟩
  · -- in the settled state the result is there, or the program lacks bytes
    rintro ⟨rest, hrun⟩
    obtain ⟨value, hreturns⟩ | ⟨hnone, -⟩ := hrunning.of_settled (by omega) hsettled
    · have hvalue := (expected_of_returns hreturns).symm.trans (hexpected.trans hrun)
      obtain ⟨rfl, -⟩ := Prod.mk.inj (Option.some.inj hvalue)
      exact ⟨settled, hreturns⟩
    · exact absurd (hnone.symm.trans (hexpected.trans hrun)) (by simp)

/-- The writer is done exactly if what the program leaves unread fits into the ring. -/
theorem producerDone_iff (hmem : ringHeaderSize + 2 ≤ mem.totalSize)
    (hproducer : Recurring schedule .producer) (hconsumer : Recurring schedule .consumer) :
    (∃ time, (trajectory step (start mem writes program) schedule time).ProducerDone) ↔
      ∀ result rest, program.run writes.flatten = some (result, rest) →
        rest.length ≤ mem.totalSize - ringHeaderSize - 1 := by
  obtain ⟨hlater, settled, hsettled⟩ := settled_of_fair hmem hproducer hconsumer
  constructor
  · -- what is left unread is at most what the ring holds
    rintro ⟨time, hidle, hwrites⟩ result rest hrun
    obtain ⟨hnow, hsame⟩ := hlater time
    have hle : rest.length ≤
        (trajectory step (start mem writes program) schedule time).future.length := by
      have hcomputed := hsame.trans hrun
      rw [expected] at hcomputed
      split at hcomputed
      · exact ReadProgram.length_le_of_run hcomputed
      · exact ReadProgram.length_le_of_resume hcomputed
    have hheld := hnow.live.held_lt
    rw [hnow.future_length, unpublished, hidle, hwrites] at hle
    simp only [Producer.rest, List.flatten_nil, List.length_nil] at hle
    omega
  · -- a full ring and a byte more would be left unread
    intro hfits
    obtain ⟨hrunning, hexpected⟩ := hlater settled
    refine ⟨settled, ?_⟩
    obtain ⟨value, hreturns⟩ | ⟨-, hdone⟩ := hrunning.of_settled (by omega) hsettled
    · obtain hdone | ⟨hrest, hfull⟩ := hrunning.producer_of_not_helps hsettled.1
      · exact hdone
      · have hleft := hfits value _ (hexpected.symm.trans (expected_of_returns hreturns))
        have hpos := List.length_pos_iff.mpr hrest
        rw [hrunning.future_length, unpublished] at hleft
        omega
    · exact hdone

end Fair

/-- Two threads on a blocking ring of at least two cells, under any schedule that takes the next
step of each again and again.  The reader returns exactly what its program returns on the bytes of
all the writes, and never where its program asks for more than there are; the writer returns exactly
if what the program leaves unread fits into the ring. -/
theorem programs_deterministic (mem : Region) (hmem : ringHeaderSize + 2 ≤ mem.totalSize)
    (writes : List (List UInt8)) (program : ReadProgram UInt8 α) {schedule : Nat → RingThread}
    (hproducer : Recurring schedule .producer) (hconsumer : Recurring schedule .consumer) :
    let later := trajectory step (start mem writes program) schedule
    (∀ result, (∃ time, (later time).Returns result) ↔
      ∃ rest, program.run writes.flatten = some (result, rest)) ∧
    ((∃ time, (later time).ProducerDone) ↔
      ∀ result rest, program.run writes.flatten = some (result, rest) →
        rest.length ≤ mem.totalSize - ringHeaderSize - 1) :=
  ⟨returns_iff hmem hproducer hconsumer, producerDone_iff hmem hproducer hconsumer⟩

/-- A message that begins with its length. -/
def message : ReadProgram UInt8 (List UInt8) :=
  .read 1 fun length => .read (length.headD 0).toNat fun text => .done text

/-- A message in two writes goes through a ring that holds one byte; what follows is not read. -/
theorem programs_deterministic_message :
    let turns : Nat → RingThread := fun time => if time % 2 = 0 then .producer else .consumer
    ∃ time, (trajectory step (start ⟨18, fun _ => 0, by decide⟩ [[2, 7], [8], [1]] message)
      turns time).Returns [7, 8] := by
  intro turns
  have hproducer : Recurring turns .producer := fun time =>
    ⟨2 * time, by omega, if_pos (by omega)⟩
  have hconsumer : Recurring turns .consumer := fun time =>
    ⟨2 * time + 1, by omega, if_neg (by omega)⟩
  exact ((programs_deterministic ⟨18, fun _ => 0, by decide⟩ (by decide) [[2, 7], [8], [1]] message
    hproducer hconsumer).1 [7, 8]).mpr ⟨[1], by decide⟩

end RingPrograms
end Iostreams
