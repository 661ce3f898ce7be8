import Iostreams.Memory.Stream
import Iostreams.Ring.Stream
import Iostreams.Serial.Channel

/-!
# A queue of typed values

A `Serial` over one stream whose buffer is a pipe is a queue of values of any types: what `<<`
writes is obtained by the `>>` at the same place in the order of the reads, merged into its target,
as long as a value is written only when there is room for its wire format and read only as the type
it was written as.  A ring buffer reuses the room of what was read, a block of memory and a
string do not.
-/

namespace Iostreams

open Foundation Serial

variable {T : ScalarTypes} {K : Keys T}

/-- The values that were written and not read, and the bytes there is room for. -/
structure ValueQueue (K : Keys T) where
  values : List (Σ t : Ty T, (t.layout K).Stored)
  room : Nat

inductive QueueCall (K : Keys T) where
  /-- `<< value` -/
  | put (t : Ty T) (value : (t.layout K).Stored)
  /-- `>> target` -/
  | get (t : Ty T) (target : t.Value)

/-- The target of a read, afterwards. -/
abbrev QueueAnswer (T : ScalarTypes) := Option (Σ t : Ty T, t.Value)

namespace ValueQueue

def bytes (queue : ValueQueue K) : List UInt8 :=
  queue.values.flatMap fun value => value.1.encode K value.2

/-- A run of calls that the queue allows, and what it answers.  A value that is read makes room
as `regained` says. -/
inductive Answers (regained : Nat → Nat) :
    ValueQueue K → List (QueueCall K) → List (QueueAnswer T) → ValueQueue K → Prop
  | nil (queue : ValueQueue K) : Answers regained queue [] [] queue
  | put {values : List (Σ t : Ty T, (t.layout K).Stored)} {room : Nat} {t : Ty T}
      {value : (t.layout K).Stored} {calls : List (QueueCall K)} {answers : List (QueueAnswer T)}
      {final : ValueQueue K} (fits : (t.encode K value).length ≤ room)
      (later : Answers regained ⟨values ++ [⟨t, value⟩], room - (t.encode K value).length⟩
        calls answers final) :
      Answers regained ⟨values, room⟩ (.put t value :: calls) (none :: answers) final
  | get {values : List (Σ t : Ty T, (t.layout K).Stored)} {room : Nat} {t : Ty T}
      {value : (t.layout K).Stored} {target : t.Value} {calls : List (QueueCall K)}
      {answers : List (QueueAnswer T)} {final : ValueQueue K}
      (later : Answers regained ⟨values, room + regained (t.encode K value).length⟩
        calls answers final) :
      Answers regained ⟨⟨t, value⟩ :: values, room⟩ (.get t target :: calls)
        (some ⟨t, t.merge K target ((t.layout K).content value)⟩ :: answers) final

end ValueQueue

/-! ## The calls on a `Serial` -/

variable {β : Type}

def QueueCall.perform [Streambuf β] (depth : Nat) (s : Serial β) :
    QueueCall K → Except Halt (QueueAnswer T × Serial β)
  | .put t value => do
      let s ← Serial.put K depth t value s
      .ok (none, s)
  | .get t target => do
      let (value, r) ← Reader.get K depth t target (⟨s, none⟩ : Reader β β)
      .ok (some ⟨t, value⟩, r.serial)

/-- The `Serial` holds the values of the queue. -/
def Serial.HoldsQueue [Pipe β] (s : Serial β) (queue : ValueQueue K) : Prop :=
  s.Channel queue.bytes queue.room

namespace Serial.HoldsQueue

variable [Pipe β] {s : Serial β} {values : List (Σ t : Ty T, (t.layout K).Stored)} {room : Nat}
  {t : Ty T} {value : (t.layout K).Stored}

theorem put (hqueue : s.HoldsQueue ⟨values, room⟩) (hfits : (t.encode K value).length ≤ room)
    (depth : Nat) :
    ∃ s', QueueCall.perform (depth + 2) s (.put t value) = .ok (none, s') ∧
      s'.HoldsQueue ⟨values ++ [⟨t, value⟩], room - (t.encode K value).length⟩ := by
  have hblocks : (pipeBytes β β).Blocks (depth + 2) := pipeBytes_blocks depth
  obtain ⟨s', hput, hwrote⟩ := hblocks.puts_value K t value s ⟨_, _, hqueue, hfits⟩
  refine ⟨s', by simp only [QueueCall.perform, hput, ok_bind], ?_⟩
  have hnext := hwrote _ _ hqueue hfits
  simp only [HoldsQueue, ValueQueue.bytes, List.flatMap_append, List.flatMap_singleton]
  exact hnext

theorem get (hqueue : s.HoldsQueue ⟨⟨t, value⟩ :: values, room⟩) (target : t.Value)
    (depth : Nat) :
    ∃ s', QueueCall.perform (depth + 2) s (.get t target : QueueCall K) =
        .ok (some ⟨t, t.merge K target ((t.layout K).content value)⟩, s') ∧
      s'.HoldsQueue ⟨values, room + Pipe.regained β (t.encode K value).length⟩ := by
  have hblocks : (pipeBytes β β).Blocks (depth + 2) := pipeBytes_blocks depth
  obtain ⟨⟨s', readBuffer⟩, hget, -, htaken⟩ := hblocks.gets_value K t target value ⟨s, none⟩
    ⟨rfl, _, _, hqueue⟩
  exact ⟨s', by simp only [QueueCall.perform, hget, ok_bind], htaken _ _ hqueue⟩

end Serial.HoldsQueue

/-- A `Serial` over a pipe answers every run of writes and reads that the queue allows as the queue
does, and then holds the values that are left in it. -/
theorem serial_refines_queue [Pipe β] {queue final : ValueQueue K} {calls : List (QueueCall K)}
    {answers : List (QueueAnswer T)}
    (hanswers : ValueQueue.Answers (Pipe.regained β) queue calls answers final) {s : Serial β}
    (hqueue : s.HoldsQueue queue) (depth : Nat) :
    ∃ s', runEach (QueueCall.perform (depth + 2)) calls s = .ok (answers, s') ∧
      s'.HoldsQueue final := by
  induction hanswers generalizing s with
  | nil queue => exact ⟨s, rfl, hqueue⟩
  | put fits later ih =>
      obtain ⟨next, hput, hnext⟩ := hqueue.put fits depth
      obtain ⟨last, hlater, hlast⟩ := ih hnext
      exact ⟨last, runEach_cons_eq hput hlater, hlast⟩
  | @get values room t value target calls answers final later ih =>
      obtain ⟨next, hget, hnext⟩ := hqueue.get target depth
      obtain ⟨last, hlater, hlast⟩ := ih hnext
      exact ⟨last, runEach_cons_eq hget hlater, hlast⟩

/-- Strings and a boolean through a ring of twelve cells, where the second string wraps around. -/
theorem serial_refines_queue_ring :
    let K := Keys.equality byteScalars
    let io : IOStream NonBlockingRing := { rdbuf := .ofRegion ⟨28, fun _ => 0, by decide⟩ }
    let calls : List (QueueCall K) := [.put .string ([1] : List UInt8), .get .string [],
      .put .string ([2, 3] : List UInt8), .put .bool true, .get .string [], .get .bool false]
    let answers : List (QueueAnswer byteScalars) := [none, some ⟨.string, [1]⟩, none, none,
      some ⟨.string, [2, 3]⟩, some ⟨.bool, true⟩]
    ∃ s', runEach (QueueCall.perform 2) calls (ofStream io false) = .ok (answers, s') ∧
      s'.HoldsQueue (⟨[], 11⟩ : ValueQueue K) := by
  intro K io calls answers
  have hanswers : ValueQueue.Answers (Pipe.regained NonBlockingRing) ⟨[], 11⟩ calls answers
      ⟨[], 11⟩ :=
    .put (by decide) (.get (.put (by decide) (.put (by decide) (.get (.get (.nil _))))))
  exact serial_refines_queue hanswers
    (channel_ofStream rfl (NonBlockingRing.holding_ofRegion (by decide))) 0

end Iostreams
