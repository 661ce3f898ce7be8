import Iostreams.Ring.Buffer

/-!
# One producer and one consumer

The producer runs `write_internal` again and again, the consumer `read_internal`.
Every load and every store of a counter and every copy of a chunk is one step;
what a thread computes in between belongs to the step before it.  A thread is
where it will take its next step, with its local variables.  The space a thread
has computed is stale when it copies, because the other one went on meanwhile.

`published` and `consumed` record the bytes that were handed over by storing the
head and the tail; they are not part of the program.  The invariant is that the
buffer holds the published bytes that were not consumed, and that what a thread
has computed is at most what is there now: `ProducerOk` and `ConsumerOk`.
-/

namespace Iostreams

open Foundation Ringbuf

/-- The locals of `write_internal(s, n)`. -/
structure Writing where
  s : List UInt8
  written : Nat
  fullSpins : Nat

/-- The bytes the next `count` of which are stored. -/
def Writing.next (w : Writing) (count : Nat) : List UInt8 := (w.s.drop w.written).take count

/-- The next step of the producer. -/
inductive Producer where
  | idle
  | loadHead (w : Writing)
  | loadTail (w : Writing) (h : Nat)
  | reloadHead (w : Writing) (chunk : Nat)
  | copy (w : Writing) (chunk h : Nat)
  | storeHead (w : Writing) (chunk h : Nat)

/-- The locals of `read_internal(s, n)`; `bytes` is what lies in `s`. -/
structure Reading where
  n : Nat
  bytes : List UInt8
  emptySpins : Nat

/-- The next step of the consumer. -/
inductive Consumer where
  | idle
  | loadHead (rd : Reading)
  | loadTail (rd : Reading) (h : Nat)
  | reloadTail (rd : Reading) (chunk : Nat)
  | copy (rd : Reading) (chunk t : Nat)
  | storeTail (rd : Reading) (chunk t : Nat) (copied : List UInt8)

structure RingSystem where
  ring : Ringbuf
  producer : Producer
  consumer : Consumer
  published : List UInt8
  consumed : List UInt8

/-- A choice of the scheduler: an idle thread gets a request, or a thread takes its
next step. -/
inductive RingEvent where
  | write (s : List UInt8)
  | read (n : Nat)
  | producer
  | consumer

/-! ## The steps of the producer -/

/-- `while (written < n)` -/
def Producer.loop (w : Writing) : Producer :=
  if w.written < w.s.length then .loadHead w else .idle

/-- From the computation of the available space to the next step. -/
def Producer.decide (nonBlocking : Bool) (avail : Nat) (w : Writing) : Producer :=
  if avail = 0 then
    if nonBlocking then
      if 0 < w.written ∨ 100 < w.fullSpins then .idle
      else .loadHead { w with fullSpins := w.fullSpins + 1 }
    else .loadHead w
  else .reloadHead w (min avail (w.s.length - w.written))

/-- `full_spins` and `written` after a chunk. -/
def Writing.advance (w : Writing) (chunk : Nat) : Writing :=
  { w with written := w.written + chunk }

def RingSystem.produce (sys : RingSystem) : RingSystem :=
  match sys.producer with
  | .idle => sys
  | .loadHead w => { sys with producer := .loadTail w sys.ring.head }
  | .loadTail w h =>
      let avail := sys.ring.availableWriteAt h sys.ring.tail
      { sys with producer := .decide sys.ring.nonBlocking avail w }
  | .reloadHead w chunk => { sys with producer := .copy w chunk sys.ring.head }
  | .copy w chunk h =>
      { sys with ring := sys.ring.copyIn h (w.next chunk), producer := .storeHead w chunk h }
  | .storeHead w chunk h =>
      { sys with
        ring := sys.ring.setHead (sys.ring.advance h chunk)
        producer := .loop (w.advance chunk)
        published := sys.published ++ w.next chunk }

/-! ## The steps of the consumer -/

/-- `while (read_bytes < n)` -/
def Consumer.loop (rd : Reading) : Consumer :=
  if rd.bytes.length < rd.n then .loadHead rd else .idle

/-- From the computation of the available bytes to the next step. -/
def Consumer.decide (nonBlocking : Bool) (avail : Nat) (rd : Reading) : Consumer :=
  if avail = 0 then
    if nonBlocking then
      if 0 < rd.bytes.length ∨ 1000000 < rd.emptySpins then .idle
      else .loadHead { rd with emptySpins := rd.emptySpins + 1 }
    else .loadHead rd
  else .reloadTail rd (min avail (rd.n - rd.bytes.length))

def Reading.receive (rd : Reading) (copied : List UInt8) : Reading :=
  { rd with bytes := rd.bytes ++ copied }

def RingSystem.consume (sys : RingSystem) : RingSystem :=
  match sys.consumer with
  | .idle => sys
  | .loadHead rd => { sys with consumer := .loadTail rd sys.ring.head }
  | .loadTail rd h =>
      let avail := sys.ring.availableReadAt h sys.ring.tail
      { sys with consumer := .decide sys.ring.nonBlocking avail rd }
  | .reloadTail rd chunk => { sys with consumer := .copy rd chunk sys.ring.tail }
  | .copy rd chunk t => { sys with consumer := .storeTail rd chunk t (sys.ring.copyOut t chunk) }
  | .storeTail rd chunk t copied =>
      { sys with
        ring := sys.ring.setTail (sys.ring.advance t chunk)
        consumer := .loop (rd.receive copied)
        consumed := sys.consumed ++ copied }

/-! ## Schedules -/

/-- One step; a request to a busy thread is not made. -/
def RingSystem.step (sys : RingSystem) : RingEvent → RingSystem
  | .write s =>
      match sys.producer with
      | .idle => { sys with producer := .loop ⟨s, 0, 0⟩ }
      | _ => sys
  | .read n =>
      match sys.consumer with
      | .idle => { sys with consumer := .loop ⟨n, [], 0⟩ }
      | _ => sys
  | .producer => sys.produce
  | .consumer => sys.consume

/-- A new ring buffer and two idle threads. -/
def RingSystem.start (mem : Region) (nonBlocking : Bool) : RingSystem where
  ring := ringbuf mem nonBlocking
  producer := .idle
  consumer := .idle
  published := []
  consumed := []

/-- The cells a copy of `count` bytes from cell `offset` on goes over. -/
def copyCells (size offset count : Nat) : List Nat := loadWrapped size id offset count

namespace RingSystem

/-- The cells of the bytes that were published and not consumed. -/
def unconsumedCells (sys : RingSystem) : List Nat :=
  copyCells sys.ring.ringbufferSize sys.ring.tail (sys.published.length - sys.consumed.length)

/-- The cells the consumer is copying until it stores the tail. -/
def consumerCells (sys : RingSystem) : List Nat :=
  match sys.consumer with
  | .copy _ chunk t => copyCells sys.ring.ringbufferSize t chunk
  | .storeTail _ chunk t _ => copyCells sys.ring.ringbufferSize t chunk
  | _ => []

/-- The cells the next step of the producer writes. -/
def writtenCells (sys : RingSystem) : List Nat :=
  match sys.producer with
  | .copy _ chunk h => copyCells sys.ring.ringbufferSize h chunk
  | _ => []

/-! ## What a thread knows -/

/-- The producer's next chunk is complete and fits behind `items`. -/
structure ChunkFits (r : Ringbuf) (items : List UInt8) (w : Writing) (chunk : Nat) : Prop where
  length_eq : (w.next chunk).length = chunk
  fits : items.length + chunk < r.ringbufferSize

/-- The locals of the producer, for a buffer that holds `items` after `start` bytes. -/
def ProducerOk (r : Ringbuf) (start : Nat) (items : List UInt8) : Producer → Prop
  | .idle | .loadHead _ => True
  | .loadTail _ h => h = r.head
  | .reloadHead w chunk => ChunkFits r items w chunk
  | .copy w chunk h => ChunkFits r items w chunk ∧ h = r.head
  | .storeHead w chunk h => ChunkFits r items w chunk ∧ h = r.head ∧
      window r.ringbufferSize r.ringbuffer (start + items.length) chunk = w.next chunk

/-- The locals of the consumer.  A head it loaded may be an earlier one. -/
def ConsumerOk (r : Ringbuf) (start : Nat) (items : List UInt8) : Consumer → Prop
  | .idle | .loadHead _ => True
  | .loadTail _ h => ∃ count ≤ items.length, h = (start + count) % r.ringbufferSize
  | .reloadTail _ chunk => chunk ≤ items.length
  | .copy _ chunk t => chunk ≤ items.length ∧ t = r.tail
  | .storeTail _ chunk t copied => chunk ≤ items.length ∧ t = r.tail ∧ copied = items.take chunk

/-- The buffer holds `items`, the bytes that were published and not consumed. -/
structure Safe (sys : RingSystem) (items : List UInt8) : Prop where
  published_eq : sys.published = sys.consumed ++ items
  holds : sys.ring.Holds sys.consumed.length items
  producer : ProducerOk sys.ring sys.consumed.length items sys.producer
  consumer : ConsumerOk sys.ring sys.consumed.length items sys.consumer

section Locals

variable {r : Ringbuf} {start : Nat} {items : List UInt8}

theorem producerOk_loop (w : Writing) : ProducerOk r start items (.loop w) := by
  unfold Producer.loop
  split <;> exact trivial

theorem consumerOk_loop (rd : Reading) : ConsumerOk r start items (.loop rd) := by
  unfold Consumer.loop
  split <;> exact trivial

theorem producerOk_decide (w : Writing) (nonBlocking : Bool) {avail : Nat}
    (havail : avail < r.ringbufferSize - items.length) :
    ProducerOk r start items (.decide nonBlocking avail w) := by
  unfold Producer.decide
  by_cases hfull : avail = 0
  · rw [if_pos hfull]
    split
    · split <;> exact trivial
    · exact trivial
  · rw [if_neg hfull]
    refine ⟨?_, by omega⟩
    rw [Writing.next, List.length_take, List.length_drop]
    omega

theorem consumerOk_decide (rd : Reading) (nonBlocking : Bool) {avail : Nat}
    (havail : avail ≤ items.length) :
    ConsumerOk r start items (.decide nonBlocking avail rd) := by
  unfold Consumer.decide
  by_cases hempty : avail = 0
  · rw [if_pos hempty]
    split
    · split <;> exact trivial
    · exact trivial
  · rw [if_neg hempty]
    exact Nat.le_trans (Nat.min_le_left _ _) havail

/-- Bytes that are published keep what the consumer knows. -/
theorem ConsumerOk.publish {next : Ringbuf} (hsize : next.ringbufferSize = r.ringbufferSize)
    (htail : next.tail = r.tail) (more : List UInt8) {consumer : Consumer}
    (hok : ConsumerOk r start items consumer) :
    ConsumerOk next start (items ++ more) consumer := by
  have hle : items.length ≤ (items ++ more).length := by simp
  cases consumer with
  | idle => trivial
  | loadHead rd => trivial
  | loadTail rd h =>
      obtain ⟨count, hcount, rfl⟩ := hok
      exact ⟨count, by omega, by rw [hsize]⟩
  | reloadTail rd chunk => exact Nat.le_trans hok hle
  | copy rd chunk t => exact ⟨Nat.le_trans hok.1 hle, hok.2.trans htail.symm⟩
  | storeTail rd chunk t copied =>
      obtain ⟨hchunk, ht, hcopied⟩ := hok
      refine ⟨Nat.le_trans hchunk hle, ht.trans htail.symm, ?_⟩
      rw [hcopied, List.take_append_of_le_length hchunk]

/-- Bytes that are consumed keep what the producer knows. -/
theorem ProducerOk.consume (tail : Nat) {count : Nat} (hcount : count ≤ items.length)
    {producer : Producer} (hok : ProducerOk r start items producer) :
    ProducerOk (r.setTail tail) (start + count) (items.drop count) producer := by
  have hlength : (items.drop count).length = items.length - count := List.length_drop
  have hfits : ∀ {w chunk}, ChunkFits r items w chunk →
      ChunkFits (r.setTail tail) (items.drop count) w chunk := by
    intro w chunk hchunk
    have hlt := hchunk.fits
    exact ⟨hchunk.length_eq, by rw [Ringbuf.setTail_ringbufferSize]; omega⟩
  cases producer with
  | idle => trivial
  | loadHead w => trivial
  | loadTail w h => exact hok
  | reloadHead w chunk => exact hfits hok
  | copy w chunk h => exact ⟨hfits hok.1, hok.2⟩
  | storeHead w chunk h =>
      obtain ⟨hchunk, hhead, hwindow⟩ := hok
      refine ⟨hfits hchunk, hhead, ?_⟩
      rw [hlength, show start + count + (items.length - count) = start + items.length by omega]
      exact hwindow

end Locals

/-! ## One step -/

variable {sys : RingSystem} {items : List UInt8}

namespace Safe

theorem produce (hsafe : sys.Safe items) : ∃ items', sys.produce.Safe items' := by
  obtain ⟨hpublished, hholds, hproducer, hconsumer⟩ := hsafe
  have hlt := hholds.length_lt
  unfold RingSystem.produce
  cases hpc : sys.producer with
  | idle => exact ⟨items, hpublished, hholds, hproducer, hconsumer⟩
  | loadHead w => exact ⟨items, hpublished, hholds, rfl, hconsumer⟩
  | loadTail w h =>
      -- the tail only moves away later, so what is free now stays free
      rw [hpc] at hproducer
      have havail : sys.ring.availableWriteAt h sys.ring.tail =
          sys.ring.ringbufferSize - 1 - items.length := by
        rw [show h = sys.ring.head from hproducer]
        exact hholds.availableWrite
      have hfits : sys.ring.availableWriteAt h sys.ring.tail <
          sys.ring.ringbufferSize - items.length := by omega
      exact ⟨items, hpublished, hholds, producerOk_decide w _ hfits, hconsumer⟩
  | reloadHead w chunk =>
      rw [hpc] at hproducer
      exact ⟨items, hpublished, hholds, ⟨hproducer, rfl⟩, hconsumer⟩
  | copy w chunk h =>
      rw [hpc] at hproducer
      obtain ⟨hchunk, rfl⟩ := hproducer
      have hfits : items.length + (w.next chunk).length < sys.ring.ringbufferSize := by
        rw [hchunk.length_eq]
        exact hchunk.fits
      -- the copy goes into free cells, and nothing is published before the head is stored
      have hwindow := hholds.window_copyIn hfits
      rw [hchunk.length_eq] at hwindow
      have hkept := hconsumer.publish (copyIn_ringbufferSize sys.ring sys.ring.head (w.next chunk))
        rfl []
      rw [List.append_nil] at hkept
      exact ⟨items, hpublished, hholds.copyIn hfits,
        ⟨⟨hchunk.length_eq, hchunk.fits⟩, rfl, hwindow⟩, hkept⟩
  | storeHead w chunk h =>
      rw [hpc] at hproducer
      obtain ⟨hchunk, rfl, hwindow⟩ := hproducer
      have hnext := hholds.setHead (by rw [hchunk.length_eq]; exact hchunk.fits)
        (by rw [hchunk.length_eq]; exact hwindow)
      rw [hchunk.length_eq] at hnext
      refine ⟨items ++ w.next chunk, ?_, hnext, producerOk_loop _, ?_⟩
      · simp only [hpublished, List.append_assoc]
      · exact hconsumer.publish (setHead_ringbufferSize _ _) rfl _

theorem consume (hsafe : sys.Safe items) : ∃ items', sys.consume.Safe items' := by
  obtain ⟨hpublished, hholds, hproducer, hconsumer⟩ := hsafe
  unfold RingSystem.consume
  cases hpc : sys.consumer with
  | idle => exact ⟨items, hpublished, hholds, hproducer, hconsumer⟩
  | loadHead rd =>
      exact ⟨items, hpublished, hholds, hproducer, items.length, Nat.le_refl _, hholds.head_eq⟩
  | loadTail rd h =>
      -- the head that was loaded may be old; it bounds what is taken from below
      rw [hpc] at hconsumer
      obtain ⟨count, hcount, rfl⟩ := hconsumer
      have havail : sys.ring.availableReadAt
          ((sys.consumed.length + count) % sys.ring.ringbufferSize) sys.ring.tail = count := by
        rw [hholds.tail_eq]
        exact availableReadAt_cells hholds.size_le (Nat.lt_of_le_of_lt hcount hholds.length_lt)
      refine ⟨items, hpublished, hholds, hproducer, ?_⟩
      simp only [havail]
      exact consumerOk_decide rd _ hcount
  | reloadTail rd chunk =>
      rw [hpc] at hconsumer
      exact ⟨items, hpublished, hholds, hproducer, hconsumer, rfl⟩
  | copy rd chunk t =>
      rw [hpc] at hconsumer
      obtain ⟨hchunk, rfl⟩ := hconsumer
      exact ⟨items, hpublished, hholds, hproducer, hchunk, rfl, hholds.copyOut hchunk⟩
  | storeTail rd chunk t copied =>
      rw [hpc] at hconsumer
      obtain ⟨hchunk, rfl, rfl⟩ := hconsumer
      have hlength : (sys.consumed ++ items.take chunk).length = sys.consumed.length + chunk := by
        rw [List.length_append, List.length_take, Nat.min_eq_left hchunk]
      refine ⟨items.drop chunk, ?_, ?_, ?_, consumerOk_loop _⟩
      · simp only [hpublished, List.append_assoc, List.take_append_drop]
      · simp only [hlength]
        exact hholds.setTail hchunk
      · simp only [hlength]
        exact hproducer.consume _ hchunk

theorem step (hsafe : sys.Safe items) (event : RingEvent) :
    ∃ items', (sys.step event).Safe items' := by
  cases event with
  | write s =>
      rw [RingSystem.step]
      split
      · exact ⟨items, hsafe.published_eq, hsafe.holds, producerOk_loop _, hsafe.consumer⟩
      · exact ⟨items, hsafe⟩
  | read n =>
      rw [RingSystem.step]
      split
      · exact ⟨items, hsafe.published_eq, hsafe.holds, hsafe.producer, consumerOk_loop _⟩
      · exact ⟨items, hsafe⟩
  | producer => exact hsafe.produce
  | consumer => exact hsafe.consume

end Safe

/-- Every schedule keeps the threads safe. -/
theorem safe_run (mem : Region) (nonBlocking : Bool) (schedule : List RingEvent) :
    ∃ items, (schedule.foldl step (start mem nonBlocking)).Safe items := by
  refine List.foldlRecOn (motive := fun sys => ∃ items, sys.Safe items) schedule step ?_ ?_
  · exact ⟨[], rfl, ringbuf_holds mem nonBlocking, trivial, trivial⟩
  · rintro sys ⟨items, hsafe⟩ event -
    exact hsafe.step event

/-! ## The cells -/

theorem mem_copyCells {size offset : Nat} (hoffset : offset < size) {count : Nat}
    (hcount : count ≤ size) {cell : Nat} :
    cell ∈ copyCells size offset count ↔ ∃ i < count, (offset + i) % size = cell := by
  simp [copyCells, loadWrapped_eq hoffset _ hcount, window]

/-- A copy changes only the cells it goes over. -/
theorem ringbuffer_copyIn {r : Ringbuf} {h : Nat} (hh : h < r.ringbufferSize) {chunk : List UInt8}
    (hchunk : chunk.length ≤ r.ringbufferSize) {cell : Nat} (hcell : cell < r.ringbufferSize)
    (hother : cell ∉ copyCells r.ringbufferSize h chunk.length) :
    (r.copyIn h chunk).ringbuffer cell = r.ringbuffer cell := by
  apply (storeWrapped_apply hh r.ringbuffer hchunk hcell).trans
  apply List.getD_eq_default
  by_contra hinside
  rw [Nat.not_le] at hinside
  exact hother ((mem_copyCells hh hchunk).mpr ⟨_, hinside, cell_index hh hcell⟩)

/-- The producer writes behind the bytes that were not consumed. -/
theorem Safe.writtenCells_free (hsafe : sys.Safe items) {cell : Nat}
    (hwritten : cell ∈ sys.writtenCells) :
    ∃ i, items.length ≤ i ∧ i < sys.ring.ringbufferSize ∧
      (sys.consumed.length + i) % sys.ring.ringbufferSize = cell := by
  have hlt := hsafe.holds.length_lt
  have hproducer := hsafe.producer
  unfold writtenCells at hwritten
  cases hpc : sys.producer with
  | copy w chunk h =>
      rw [hpc] at hproducer hwritten
      obtain ⟨hchunk, rfl⟩ := hproducer
      have hfits := hchunk.fits
      have hhead := hsafe.holds.head_eq
      have hhead_lt : sys.ring.head < sys.ring.ringbufferSize := by
        rw [hhead]
        exact Nat.mod_lt _ (by omega)
      obtain ⟨i, hi, hcell⟩ := (mem_copyCells hhead_lt (by omega)).mp hwritten
      refine ⟨items.length + i, by omega, by omega, ?_⟩
      rw [← hcell, hhead, Nat.mod_add_mod, Nat.add_assoc]
  | _ => rw [hpc] at hwritten; exact absurd hwritten List.not_mem_nil

theorem Safe.oldCells (hsafe : sys.Safe items) {count cell : Nat} (hcount : count ≤ items.length)
    (hcell : cell ∈ copyCells sys.ring.ringbufferSize sys.ring.tail count) :
    ∃ i < items.length, (sys.consumed.length + i) % sys.ring.ringbufferSize = cell := by
  have hlt := hsafe.holds.length_lt
  have htail := hsafe.holds.tail_eq
  have htail_lt : sys.ring.tail < sys.ring.ringbufferSize := by
    rw [htail]
    exact Nat.mod_lt _ (by omega)
  obtain ⟨i, hi, hcell⟩ := (mem_copyCells htail_lt (by omega)).mp hcell
  refine ⟨i, by omega, ?_⟩
  rw [← hcell, htail, Nat.mod_add_mod]

theorem Safe.consumerCells_old (hsafe : sys.Safe items) {cell : Nat}
    (hcell : cell ∈ sys.consumerCells) :
    ∃ i < items.length, (sys.consumed.length + i) % sys.ring.ringbufferSize = cell := by
  have hconsumer := hsafe.consumer
  unfold consumerCells at hcell
  cases hpc : sys.consumer with
  | copy rd chunk t =>
      rw [hpc] at hconsumer hcell
      obtain ⟨hchunk, rfl⟩ := hconsumer
      exact hsafe.oldCells hchunk hcell
  | storeTail rd chunk t copied =>
      rw [hpc] at hconsumer hcell
      obtain ⟨hchunk, rfl, -⟩ := hconsumer
      exact hsafe.oldCells hchunk hcell
  | _ => rw [hpc] at hcell; exact absurd hcell List.not_mem_nil

/-- Under every schedule, what was consumed is a prefix of what was published, and a
copy of the producer writes no cell of the bytes that were published and not
consumed, and none the consumer is copying. -/
theorem spsc_safety (mem : Region) (nonBlocking : Bool) (schedule : List RingEvent) :
    let sys := schedule.foldl step (start mem nonBlocking)
    sys.consumed <+: sys.published ∧
      ∀ cell ∈ sys.writtenCells, cell ∉ sys.unconsumedCells ∧ cell ∉ sys.consumerCells := by
  intro sys
  obtain ⟨items, hsafe⟩ : ∃ items, sys.Safe items := safe_run mem nonBlocking schedule
  refine ⟨⟨items, hsafe.published_eq.symm⟩, ?_⟩
  intro cell hwritten
  obtain ⟨free, hfree, hnear, hcell⟩ := hsafe.writtenCells_free hwritten
  have hdistinct : ¬∃ i < items.length,
      (sys.consumed.length + i) % sys.ring.ringbufferSize = cell := by
    rintro ⟨old, hold, hsame⟩
    exact cell_ne (by omega) (by omega) (hsame.trans hcell.symm)
  have hcount : sys.published.length - sys.consumed.length = items.length := by
    rw [hsafe.published_eq, List.length_append]
    omega
  constructor
  · intro hunconsumed
    rw [unconsumedCells, hcount] at hunconsumed
    exact hdistinct (hsafe.oldCells (Nat.le_refl _) hunconsumed)
  · intro hconsumer
    exact hdistinct (hsafe.consumerCells_old hconsumer)

/-- Two usable bytes hold one; the request of two bytes takes two chunks. -/
example :
    let rounds := List.replicate 5 RingEvent.producer ++ List.replicate 5 RingEvent.consumer
    let sys := ([RingEvent.write [7, 8], RingEvent.read 2] ++ rounds ++ rounds).foldl step
      (start ⟨18, fun _ => 0, by decide⟩ false)
    sys.published = [7, 8] ∧ sys.consumed = [7, 8] := by
  decide

end RingSystem
end Iostreams
