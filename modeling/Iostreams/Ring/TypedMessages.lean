import Iostreams.Ring.Programs
import Iostreams.Serial.InputPrograms

/-!
# Typed messages between two threads

One thread writes values of any types with `<<` to a stream over a blocking ring, and another reads
them with `>>`.  What the first makes of the values are the `sputn` calls that they make on a tape
(`sputnCalls`), and what the second does is the program of its targets (`InputProgram.getAll`), so
that the two threads are programs on the ends of a ring.
-/

namespace Iostreams

open Foundation Serial RingPrograms

variable {T : ScalarTypes} {K : Keys T}

/-- The `sputn` calls that `serial << v₁ << v₂ …` makes. -/
def Entry.sputnCalls (depth : Nat) (entries : List (Entry K)) :
    Except Halt (List (List UInt8)) := do
  let s ← putAll depth entries (ofStream ({ rdbuf := {} } : IOStream Tape) false)
  .ok (s.stream.elim [] fun io => io.rdbuf.blocks)

/-- Together they put the wire format of the values. -/
theorem Entry.sputnCalls_eq (depth : Nat) (entries : List (Entry K))
    (hsize : (encodeAll entries).length < 2 ^ 63) :
    ∃ writes, sputnCalls (depth + 2) entries = .ok writes ∧
      writes.flatten = encodeAll entries := by
  have hempty : Pipe.Holding ({} : Tape) [] (2 ^ 63 - 1) := ⟨rfl, by decide⟩
  have hchannel : (ofStream ({ rdbuf := {} } : IOStream Tape) false).Channel [] (2 ^ 63 - 1) :=
    channel_ofStream rfl hempty
  have hblocks : (pipeBytes Tape Tape).Blocks (depth + 2) := pipeBytes_blocks depth
  obtain ⟨s, hput, hwrote⟩ := hblocks.puts_each
    (fun entry : Entry K => hblocks.puts_value K entry.ty entry.value) entries _
    ⟨[], _, hchannel, Nat.le_sub_one_of_lt hsize⟩
  obtain ⟨io, hmode, -, hbytes, -⟩ := (hwrote _ _ hchannel (Nat.le_sub_one_of_lt hsize)).stream
  refine ⟨io.rdbuf.blocks, ?_, hbytes⟩
  have hput' : putAll (depth + 2) entries (ofStream ({ rdbuf := {} } : IOStream Tape) false) =
      .ok s := hput
  rw [sputnCalls, hput', ok_bind, hmode.stream]
  rfl

/-- Whatever bytes the one thread writes, and under every schedule: what the other thread reads into
its targets is what the same operators read from a pipe that holds all the bytes. -/
theorem typed_reads_sequential {β γ : Type} [Pipe β] [Streambuf γ] (mem : Region)
    (writes : List (List UInt8)) (entries : List (Entry K)) (schedule : Nat → RingThread)
    {time : Nat} {targets : List (Σ t : Ty T, t.Value)}
    (hreturns : (trajectory step (start mem writes (InputProgram.getAll entries)) schedule
      time).Returns targets)
    {s : Serial β} {room : Nat} (hchannel : s.Channel writes.flatten room) (depth : Nat) :
    ∃ s', Entry.getAll (depth + 2) entries (⟨s, none⟩ : Reader β γ) =
      .ok (targets, ⟨s', none⟩) := by
  have hstart := running_start mem writes (InputProgram.getAll entries)
  obtain ⟨-, hexpected⟩ : _ ∧ (trajectory step (start mem writes (InputProgram.getAll entries))
      schedule time).expected = _ := running_trajectory hstart time
  have hrun := (expected_of_returns hreturns).symm.trans hexpected
  have hfollows : Follows (Entry.getAll (depth + 2) entries : Reader β γ → _) _ :=
    getAll_follows depth entries
  obtain ⟨s', room', hget, -⟩ := hfollows _ _ _ _ _ hchannel hrun.symm
  exact ⟨s', hget⟩

/-- The schedule on which the threads take turns. -/
def turns (time : Nat) : RingThread := if time % 2 = 0 then .producer else .consumer

theorem recurring_turns : Recurring turns .producer ∧ Recurring turns .consumer :=
  ⟨fun time => ⟨2 * time, by omega, if_pos (by omega)⟩,
    fun time => ⟨2 * time + 1, by omega, if_neg (by omega)⟩⟩

/-- A string that arrives in two writes, and a seven that is read as a boolean. -/
theorem typed_reads_sequential_bytes :
    let K := Keys.equality byteScalars
    let writes : List (List UInt8) := [[3, 0, 0, 0, 0, 0, 0, 0, 104], [105, 33, 7]]
    let entries : List (Entry K) := [⟨.string, ([] : List UInt8), ([] : List UInt8)⟩,
      ⟨.bool, false, false⟩]
    let s : Serial Tape := ofStream { rdbuf := ⟨writes⟩ } false
    ∃ s', Entry.getAll 2 entries (⟨s, none⟩ : Reader Tape Tape) =
      .ok ([⟨.string, ([104, 105, 33] : List UInt8)⟩, ⟨.bool, true⟩], ⟨s', none⟩) := by
  intro K writes entries s
  have hmem : ringHeaderSize + 2 ≤ (⟨18, fun _ => 0, by decide⟩ : Region).totalSize := by decide
  have hrun : (InputProgram.getAll entries).run writes.flatten =
      some ([⟨.string, ([104, 105, 33] : List UInt8)⟩, ⟨.bool, true⟩], []) := rfl
  have hreturns := (returns_iff hmem recurring_turns.1 recurring_turns.2 _).mpr ⟨[], hrun⟩
  obtain ⟨time, htime⟩ := hreturns
  exact typed_reads_sequential _ writes entries turns htime
    (channel_ofStream rfl (show Pipe.Holding (⟨writes⟩ : Tape) writes.flatten 0 from
      ⟨rfl, by decide⟩)) 0

/-- **Typed messages.**  Under any schedule that takes the next step of each thread again and again,
on a blocking ring of at least two cells, both threads return, and every target holds what the value
that was written in its place was merged into. -/
theorem typed_messages (mem : Region) (hmem : ringHeaderSize + 2 ≤ mem.totalSize)
    (entries : List (Entry K)) (hsize : (Entry.encodeAll entries).length < 2 ^ 63) (depth : Nat)
    {schedule : Nat → RingThread} (hproducer : Recurring schedule .producer)
    (hconsumer : Recurring schedule .consumer) :
    ∃ writes, Entry.sputnCalls (depth + 2) entries = .ok writes ∧
      let later := trajectory step (start mem writes (InputProgram.getAll entries)) schedule
      (∃ time, (later time).Returns (entries.map Entry.merged)) ∧
      (∀ time targets, (later time).Returns targets → targets = entries.map Entry.merged) ∧
      ∃ time, (later time).ProducerDone := by
  obtain ⟨writes, hwrites, hbytes⟩ := Entry.sputnCalls_eq depth entries hsize
  have hrun := run_getAll entries (by omega) []
  rw [List.append_nil, ← hbytes] at hrun
  have hreturns : ∀ targets, (∃ time, (trajectory step (start mem writes
      (InputProgram.getAll entries)) schedule time).Returns targets) ↔ _ :=
    returns_iff hmem hproducer hconsumer
  refine ⟨writes, hwrites, (hreturns _).mpr ⟨[], hrun⟩, ?_, ?_⟩
  · intro time targets htargets
    obtain ⟨rest, hother⟩ := (hreturns targets).mp ⟨time, htargets⟩
    exact (Prod.mk.inj (Option.some.inj (hother.symm.trans hrun))).1
  · refine (producerDone_iff hmem hproducer hconsumer).mpr ?_
    intro targets rest hother
    obtain ⟨-, rfl⟩ := Prod.mk.inj (Option.some.inj (hother.symm.trans hrun))
    exact Nat.zero_le _

/-- Two strings and a map through a ring that holds one byte. -/
theorem typed_messages_turns :
    ∃ writes, Entry.sputnCalls 2 sampleEntries = .ok writes ∧
      let later := trajectory step (start ⟨18, fun _ => 0, by decide⟩ writes
        (InputProgram.getAll sampleEntries)) turns
      (∃ time, (later time).Returns (sampleEntries.map Entry.merged)) ∧
        ∃ time, (later time).ProducerDone := by
  obtain ⟨writes, hwrites, hreturns, -, hdone⟩ := typed_messages ⟨18, fun _ => 0, by decide⟩
    (by decide) sampleEntries (by decide) 0 recurring_turns.1 recurring_turns.2
  exact ⟨writes, hwrites, hreturns, hdone⟩

end Iostreams
