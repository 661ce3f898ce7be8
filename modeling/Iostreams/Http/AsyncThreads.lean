import Iostreams.Foundation.FiniteMap
import Iostreams.Foundation.MachineInt
import Iostreams.Foundation.Run

/-!
# The threads of `restAsync`

A call of `restAsync` allocates an id, starts its worker, puts the entry with the
`std::thread` into `tcpClients` and returns.  The worker runs the task and the callback and
erases its entry; `cancelRestAsync` erases the entry of any id.  `AsyncStep` is one of these
steps, and a schedule lets the steps of all calls and workers follow one another in any order.

No thread is ever joined or detached, so a `std::thread` is joinable from its start on and has
to be referenced for as long as the program runs.  After its call has returned the entry is
the last reference.
-/

namespace Iostreams

open Foundation

/-- How far a call of `restAsync` has come. -/
inductive CallerPhase where
  | uncalled
  | allocated
  | started
  | inserted
  | returned
  deriving DecidableEq

/-- How far a worker has come. -/
inductive WorkerPhase where
  | waiting
  | ranTask
  | ranCallback
  | finished
  deriving DecidableEq

structure AsyncCall where
  caller : CallerPhase := .uncalled
  worker : WorkerPhase := .waiting
  id : Nat := 0

namespace AsyncCall

/-- `thread`, and later `clientTuple`, refer to the thread until the call returns. -/
def hasLocals (call : AsyncCall) : Bool := call.caller = .started ∨ call.caller = .inserted

/-- The thread was started.  Nothing joins or detaches it. -/
def joinable (call : AsyncCall) : Bool := call.hasLocals ∨ call.caller = .returned

end AsyncCall

/-- `tcpClients`, and the calls that were made, by the order of their allocations. -/
structure RestAsync where
  counter : Nat := 0
  /-- The call whose thread the entry of an id refers to. -/
  clientsMap : Finmap (fun _ : Nat => Nat) := ∅
  launched : Nat := 0
  calls : Nat → AsyncCall := fun _ => {}

inductive AsyncStep where
  | call
  | start (k : Nat)
  | insert (k : Nat)
  | ret (k : Nat)
  | runTask (k : Nat)
  | runCallback (k : Nat)
  | erase (k : Nat)
  | cancel (id : Nat)

namespace RestAsync

def setCall (state : RestAsync) (k : Nat) (call : AsyncCall) : RestAsync :=
  { state with calls := Function.update state.calls k call }

/-- The state after a step.  A step whose turn it is not changes nothing. -/
def perform (state : RestAsync) : AsyncStep → RestAsync
  | .call =>
      let id := toSizeT (state.counter + 1)
      { state with counter := id, launched := state.launched + 1 }.setCall state.launched
        { caller := .allocated, id }
  | .start k =>
      if (state.calls k).caller = .allocated then
        state.setCall k { state.calls k with caller := .started }
      else state
  | .insert k =>
      if (state.calls k).caller = .started then
        { state with clientsMap := state.clientsMap.insert (state.calls k).id k }.setCall k
          { state.calls k with caller := .inserted }
      else state
  | .ret k =>
      if (state.calls k).caller = .inserted then
        state.setCall k { state.calls k with caller := .returned }
      else state
  | .runTask k =>
      if (state.calls k).joinable ∧ (state.calls k).worker = .waiting then
        state.setCall k { state.calls k with worker := .ranTask }
      else state
  | .runCallback k =>
      if (state.calls k).worker = .ranTask then
        state.setCall k { state.calls k with worker := .ranCallback }
      else state
  | .erase k =>
      if (state.calls k).worker = .ranCallback then
        { state with clientsMap := state.clientsMap.erase (state.calls k).id }.setCall k
          { state.calls k with worker := .finished }
      else state
  | .cancel id => { state with clientsMap := state.clientsMap.erase id }

/-! ## Destroyed threads -/

/-- A local variable or an entry refers to the thread of a call. -/
def Referenced (state : RestAsync) (k : Nat) : Prop :=
  (state.calls k).hasLocals ∨ ∃ id, state.clientsMap.lookup id = some k

/-- The thread of a call was started, and its object is gone while it is joinable. -/
def DestroyedJoinable (state : RestAsync) (k : Nat) : Prop :=
  (state.calls k).joinable ∧ ¬state.Referenced k

/-- No thread was destroyed while joinable, and what has returned and finished left no entry. -/
def Safe (state : RestAsync) : Prop :=
  (∀ k, ¬state.DestroyedJoinable k) ∧
    ∀ k, (state.calls k).caller = .returned → (state.calls k).worker = .finished →
      state.clientsMap.lookup (state.calls k).id = none

/-- The entry under an id, if there is one, is of a call that has not returned. -/
def OfUnreturned (state : RestAsync) (id : Nat) : Prop :=
  ∀ j, state.clientsMap.lookup id = some j → (state.calls j).caller ≠ .returned

/-- A step takes no entry away from a call that has returned, no worker of such a call finishes,
and a call returns with its entry in the map and its worker at work. -/
def Keeps (state : RestAsync) : AsyncStep → Prop
  | .insert k => (state.calls k).caller = .started → state.OfUnreturned (state.calls k).id
  | .ret k => (state.calls k).caller = .inserted →
      (state.calls k).worker ≠ .finished ∧
        state.clientsMap.lookup (state.calls k).id = some k
  | .erase k => (state.calls k).worker = .ranCallback →
      (state.calls k).caller ≠ .returned ∧ state.OfUnreturned (state.calls k).id
  | .cancel id => state.OfUnreturned id
  | _ => True

/-! ## Entries -/

/-- An entry is under the id of its call, which has put it there, and calls to come are fresh. -/
structure Linked (state : RestAsync) : Prop where
  id : ∀ id k, state.clientsMap.lookup id = some k → (state.calls k).id = id
  caller : ∀ id k, state.clientsMap.lookup id = some k →
    (state.calls k).caller = .inserted ∨ (state.calls k).caller = .returned
  fresh : ∀ k, state.launched ≤ k → state.calls k = {}

/-- Every call that has returned has its entry in the map and its worker at work. -/
def Listed (state : RestAsync) : Prop :=
  ∀ k, (state.calls k).caller = .returned →
    (state.calls k).worker ≠ .finished ∧ state.clientsMap.lookup (state.calls k).id = some k

theorem linked_start : Linked {} :=
  ⟨fun _ _ hlookup => (nomatch hlookup), fun _ _ hlookup => (nomatch hlookup), fun _ _ => rfl⟩

theorem listed_start : Listed {} := fun _ hreturned => nomatch hreturned

/-- Only the entry refers to the thread of a call that has returned, so it has to be there, and
then the worker must not be done. -/
theorem safe_iff_listed {state : RestAsync} (hlinked : state.Linked) :
    state.Safe ↔ state.Listed := by
  constructor
  · rintro ⟨hkept, hleft⟩ k hreturned
    -- the locals are gone, so an entry holds the thread, and it is under the id of the call
    have hjoinable : (state.calls k).joinable = true := by simp [AsyncCall.joinable, hreturned]
    have hlocals : ¬(state.calls k).hasLocals = true := by simp [AsyncCall.hasLocals, hreturned]
    have hreferenced : state.Referenced k := by
      by_contra hgone
      exact hkept k ⟨hjoinable, hgone⟩
    obtain ⟨id, hlookup⟩ := hreferenced.resolve_left hlocals
    have hentry : state.clientsMap.lookup (state.calls k).id = some k := by
      rw [hlinked.id id k hlookup]
      exact hlookup
    refine ⟨fun hfinished => ?_, hentry⟩
    rw [hleft k hreturned hfinished] at hentry
    exact nomatch hentry
  · intro hlisted
    constructor
    · rintro k ⟨hjoinable, hgone⟩
      by_cases hlocals : (state.calls k).hasLocals = true
      · exact hgone (Or.inl hlocals)
      · have hreturned : (state.calls k).caller = .returned := by
          simpa [AsyncCall.joinable, hlocals] using hjoinable
        exact hgone (Or.inr ⟨_, (hlisted k hreturned).2⟩)
    · intro k hreturned hfinished
      exact absurd hfinished (hlisted k hreturned).1

/-! ## Steps -/

@[simp] theorem calls_setCall_self (state : RestAsync) (k : Nat) (call : AsyncCall) :
    (state.setCall k call).calls k = call := by
  simp only [setCall, Function.update_self]

@[simp] theorem calls_setCall_of_ne (state : RestAsync) {j k : Nat} (hne : j ≠ k)
    (call : AsyncCall) : (state.setCall k call).calls j = state.calls j := by
  simp only [setCall, Function.update_of_ne hne]

@[simp] theorem clientsMap_setCall (state : RestAsync) (k : Nat) (call : AsyncCall) :
    (state.setCall k call).clientsMap = state.clientsMap := rfl

@[simp] theorem launched_setCall (state : RestAsync) (k : Nat) (call : AsyncCall) :
    (state.setCall k call).launched = state.launched := rfl

/-- A call that is under way keeps its id while it goes on. -/
theorem Linked.setCall {state : RestAsync} (hlinked : state.Linked) {k : Nat} {call : AsyncCall}
    (hunder : state.calls k ≠ {}) (hid : call.id = (state.calls k).id)
    (hcaller : (state.calls k).caller = .inserted ∨ (state.calls k).caller = .returned →
      call.caller = .inserted ∨ call.caller = .returned) :
    (state.setCall k call).Linked := by
  refine ⟨fun id j hlookup => ?_, fun id j hlookup => ?_, fun j hj => ?_⟩
  · by_cases hsame : j = k
    · subst hsame
      rw [calls_setCall_self, hid]
      exact hlinked.id id j hlookup
    · rw [calls_setCall_of_ne state hsame]
      exact hlinked.id id j hlookup
  · by_cases hsame : j = k
    · subst hsame
      rw [calls_setCall_self]
      exact hcaller (hlinked.caller id j hlookup)
    · rw [calls_setCall_of_ne state hsame]
      exact hlinked.caller id j hlookup
  · have hne : j ≠ k := by
      rintro rfl
      exact hunder (hlinked.fresh j hj)
    rw [calls_setCall_of_ne state hne]
    exact hlinked.fresh j hj

theorem Linked.eraseEntry {state : RestAsync} (hlinked : state.Linked) (id : Nat) :
    Linked { state with clientsMap := state.clientsMap.erase id } := by
  refine ⟨fun id' k hlookup => ?_, fun id' k hlookup => ?_, hlinked.fresh⟩
  · exact hlinked.id id' k (lookup_erase_eq_some.mp hlookup).2
  · exact hlinked.caller id' k (lookup_erase_eq_some.mp hlookup).2

theorem Linked.insertEntry {state : RestAsync} (hlinked : state.Linked) {k id : Nat}
    (hid : (state.calls k).id = id) (hcaller : (state.calls k).caller = .inserted) :
    Linked { state with clientsMap := state.clientsMap.insert id k } := by
  refine ⟨fun id' j hlookup => ?_, fun id' j hlookup => ?_, hlinked.fresh⟩
  · rcases lookup_insert_eq_some.mp hlookup with ⟨rfl, rfl⟩ | ⟨-, hold⟩
    · exact hid
    · exact hlinked.id id' j hold
  · rcases lookup_insert_eq_some.mp hlookup with ⟨-, rfl⟩ | ⟨-, hold⟩
    · exact Or.inl hcaller
    · exact hlinked.caller id' j hold

theorem calls_ne_of_caller {state : RestAsync} {k : Nat}
    (hcaller : (state.calls k).caller ≠ .uncalled) : state.calls k ≠ {} :=
  fun hfresh => hcaller (congrArg AsyncCall.caller hfresh)

theorem calls_ne_of_worker {state : RestAsync} {k : Nat}
    (hworker : (state.calls k).worker ≠ .waiting) : state.calls k ≠ {} :=
  fun hfresh => hworker (congrArg AsyncCall.worker hfresh)

theorem Linked.call {state : RestAsync} (hlinked : state.Linked) :
    (state.perform .call).Linked := by
  -- no entry is of the call that begins here
  have hother : ∀ id k, state.clientsMap.lookup id = some k → k ≠ state.launched := by
    rintro id k hlookup rfl
    have hcaller := hlinked.caller id _ hlookup
    rw [hlinked.fresh _ le_rfl] at hcaller
    rcases hcaller with hcaller | hcaller <;> exact nomatch hcaller
  refine ⟨fun id k hlookup => ?_, fun id k hlookup => ?_, fun k hk => ?_⟩
  · rw [perform, calls_setCall_of_ne _ (hother id k hlookup)]
    exact hlinked.id id k hlookup
  · rw [perform, calls_setCall_of_ne _ (hother id k hlookup)]
    exact hlinked.caller id k hlookup
  · have hk : state.launched + 1 ≤ k := hk
    rw [perform, calls_setCall_of_ne _ (by omega)]
    exact hlinked.fresh k (by omega)

theorem perform_linked {state : RestAsync} (hlinked : state.Linked) (step : AsyncStep) :
    (state.perform step).Linked := by
  cases step with
  | call => exact hlinked.call
  | start k =>
      rw [perform]
      split
      · rename_i hcaller
        refine hlinked.setCall (calls_ne_of_caller (by simp [hcaller])) rfl ?_
        simp [hcaller]
      · exact hlinked
  | insert k =>
      rw [perform]
      split
      · rename_i hcaller
        -- the call moves on first, and then its entry is put in
        have hinserted : (state.setCall k { state.calls k with caller := .inserted }).Linked :=
          hlinked.setCall (calls_ne_of_caller (by simp [hcaller])) rfl fun _ => Or.inl rfl
        exact hinserted.insertEntry (by simp) (by simp)
      · exact hlinked
  | ret k =>
      rw [perform]
      split
      · rename_i hcaller
        exact hlinked.setCall (calls_ne_of_caller (by simp [hcaller])) rfl fun _ => Or.inr rfl
      · exact hlinked
  | runTask k =>
      rw [perform]
      split
      · rename_i hturn
        refine hlinked.setCall (fun hfresh => ?_) rfl id
        rw [hfresh] at hturn
        exact absurd hturn.1 (by decide)
      · exact hlinked
  | runCallback k =>
      rw [perform]
      split
      · rename_i hworker
        exact hlinked.setCall (calls_ne_of_worker (by simp [hworker])) rfl id
      · exact hlinked
  | erase k =>
      rw [perform]
      split
      · rename_i hworker
        exact (hlinked.eraseEntry _).setCall (calls_ne_of_worker (by simp [hworker])) rfl id
      · exact hlinked
  | cancel id => exact hlinked.eraseEntry id

/-- A step of a call that does not return, and has not, changes nothing for those that have. -/
theorem listed_setCall_iff {state : RestAsync} {k : Nat} {call : AsyncCall}
    (hbefore : (state.calls k).caller ≠ .returned) (hafter : call.caller ≠ .returned) :
    (state.setCall k call).Listed ↔ state.Listed := by
  apply forall_congr'
  intro j
  by_cases hsame : j = k
  · subst hsame
    rw [calls_setCall_self]
    exact iff_of_true (fun hreturned => absurd hreturned hafter)
      fun hreturned => absurd hreturned hbefore
  · rw [calls_setCall_of_ne state hsame, clientsMap_setCall]

/-- What a worker does before its end changes nothing. -/
theorem listed_setWorker {state : RestAsync} (hlisted : state.Listed) {k : Nat}
    {worker : WorkerPhase} (hworker : worker ≠ .finished) :
    (state.setCall k { state.calls k with worker := worker }).Listed := by
  intro j hreturned
  by_cases hsame : j = k
  · subst hsame
    rw [calls_setCall_self] at hreturned ⊢
    exact ⟨hworker, (hlisted j hreturned).2⟩
  · rw [calls_setCall_of_ne state hsame] at hreturned ⊢
    exact hlisted j hreturned

/-- The entry of an id is changed, and then is not of a call that has returned: it must not have
been before. -/
theorem listed_changeEntry_iff {state : RestAsync} (hlinked : state.Linked)
    (hlisted : state.Listed) {id : Nat} {entries : Finmap fun _ : Nat => Nat}
    (hothers : ∀ other ≠ id, entries.lookup other = state.clientsMap.lookup other)
    (hentry : ∀ j, entries.lookup id = some j → (state.calls j).caller ≠ .returned) :
    Listed { state with clientsMap := entries } ↔ state.OfUnreturned id := by
  constructor
  · intro hnext j hlookup hreturned
    have hafter : entries.lookup (state.calls j).id = some j := (hnext j hreturned).2
    rw [hlinked.id id j hlookup] at hafter
    exact hentry j hafter hreturned
  · intro hunreturned j hreturned
    obtain ⟨hworker, hbefore⟩ := hlisted j hreturned
    have hne : (state.calls j).id ≠ id := by
      rintro rfl
      exact hunreturned j hbefore hreturned
    exact ⟨hworker, (hothers _ hne).trans hbefore⟩

/-- An entry may go unless it is of a call that has returned. -/
theorem listed_eraseEntry_iff {state : RestAsync} (hlinked : state.Linked)
    (hlisted : state.Listed) (id : Nat) :
    Listed { state with clientsMap := state.clientsMap.erase id } ↔ state.OfUnreturned id := by
  apply listed_changeEntry_iff hlinked hlisted
  · intro other hne
    exact Finmap.lookup_erase_ne hne
  · intro j hlookup
    rw [Finmap.lookup_erase] at hlookup
    exact nomatch hlookup

/-- The entry of an id is put in the place of another unless that is of a call that has
returned. -/
theorem listed_insertEntry_iff {state : RestAsync} (hlinked : state.Linked)
    (hlisted : state.Listed) {id k : Nat} (hk : (state.calls k).caller ≠ .returned) :
    Listed { state with clientsMap := state.clientsMap.insert id k } ↔ state.OfUnreturned id := by
  apply listed_changeEntry_iff hlinked hlisted
  · intro other hne
    exact Finmap.lookup_insert_of_ne _ hne
  · intro j hlookup
    rw [Finmap.lookup_insert, Option.some.injEq] at hlookup
    exact hlookup ▸ hk

/-- A call returns well if its entry is in the map and its worker is at work. -/
theorem listed_return_iff {state : RestAsync} (hlisted : state.Listed) (k : Nat) :
    (state.setCall k { state.calls k with caller := .returned }).Listed ↔
      (state.calls k).worker ≠ .finished ∧
        state.clientsMap.lookup (state.calls k).id = some k := by
  constructor
  · intro hnext
    have hk := hnext k
    rw [calls_setCall_self] at hk
    exact hk rfl
  · intro hwell j hreturned
    by_cases hsame : j = k
    · subst hsame
      rw [calls_setCall_self]
      exact hwell
    · rw [calls_setCall_of_ne state hsame] at hreturned ⊢
      exact hlisted j hreturned

/-- The worker of a call that has returned must not finish. -/
theorem not_listed_finish {state : RestAsync} {k : Nat}
    (hreturned : (state.calls k).caller = .returned) :
    ¬(state.setCall k { state.calls k with worker := .finished }).Listed := by
  intro hnext
  have hk := hnext k
  rw [calls_setCall_self] at hk
  exact (hk hreturned).1 rfl

/-- A step keeps every call that has returned listed exactly if `Keeps` says so. -/
theorem perform_listed_iff {state : RestAsync} (hlinked : state.Linked)
    (hlisted : state.Listed) (step : AsyncStep) :
    (state.perform step).Listed ↔ state.Keeps step := by
  cases step with
  | call =>
      refine iff_of_true ((listed_setCall_iff ?_ (by simp)).mpr hlisted) trivial
      simp [hlinked.fresh _ le_rfl]
  | start k =>
      refine iff_of_true ?_ trivial
      rw [perform]
      split
      · rename_i hcaller
        exact (listed_setCall_iff (by simp [hcaller]) (by simp)).mpr hlisted
      · exact hlisted
  | insert k =>
      rw [perform, Keeps]
      split
      · rename_i hcaller
        have hbefore : (state.calls k).caller ≠ .returned := by simp [hcaller]
        refine Iff.trans (listed_setCall_iff hbefore ?_) ?_
        · simp
        apply (listed_insertEntry_iff hlinked hlisted hbefore).trans
        exact ⟨fun hunreturned _ => hunreturned, fun hunreturned => hunreturned hcaller⟩
      · rename_i hcaller
        exact iff_of_true hlisted fun hstarted => absurd hstarted hcaller
  | ret k =>
      rw [perform, Keeps]
      split
      · rename_i hcaller
        rw [listed_return_iff hlisted]
        exact ⟨fun hwell _ => hwell, fun hwell => hwell hcaller⟩
      · rename_i hcaller
        exact iff_of_true hlisted fun hinserted => absurd hinserted hcaller
  | runTask k =>
      refine iff_of_true ?_ trivial
      rw [perform]
      split
      · exact listed_setWorker hlisted (by simp)
      · exact hlisted
  | runCallback k =>
      refine iff_of_true ?_ trivial
      rw [perform]
      split
      · exact listed_setWorker hlisted (by simp)
      · exact hlisted
  | erase k =>
      rw [perform, Keeps]
      split
      · rename_i hworker
        -- after the return the entry is the last reference, so the end of the worker is too late
        by_cases hreturned : (state.calls k).caller = .returned
        · refine iff_of_false ?_ fun hkeeps => (hkeeps hworker).1 hreturned
          exact not_listed_finish hreturned
        · refine Iff.trans (listed_setCall_iff hreturned ?_) ?_
          · exact hreturned
          apply (listed_eraseEntry_iff hlinked hlisted _).trans
          exact ⟨fun hunreturned _ => ⟨hreturned, hunreturned⟩,
            fun hkeeps => (hkeeps hworker).2⟩
      · rename_i hworker
        exact iff_of_true hlisted fun hturn => absurd hturn hworker
  | cancel id => exact listed_eraseEntry_iff hlinked hlisted id

/-! ## Schedules -/

theorem run_linked (schedule : List AsyncStep) : (schedule.foldl perform {}).Linked := by
  suffices hrun : ∀ state : RestAsync, state.Linked → (schedule.foldl perform state).Linked from
    hrun {} linked_start
  induction schedule with
  | nil => exact fun _ hlinked => hlinked
  | cons step schedule ih => exact fun _ hlinked => ih _ (perform_linked hlinked step)

/-- **Threads of `restAsync`.**  In every state of a schedule no thread was destroyed while
joinable and nothing is left over, exactly if no call that returns ever has its worker finish
or its entry taken away. -/
theorem threads_safe_iff (schedule : List AsyncStep) :
    Throughout perform Safe {} schedule ↔ EachAllowed perform Keeps {} schedule :=
  throughout_iff Linked (fun _ step hlinked => perform_linked hlinked step)
    (fun state step hlinked hsafe => by
      rw [safe_iff_listed (perform_linked hlinked step)]
      exact perform_listed_iff hlinked ((safe_iff_listed hlinked).mp hsafe) step)
    linked_start ((safe_iff_listed linked_start).mpr listed_start)

/-- A call whose worker finishes after it has returned: erasing the entry destroys the object of
the thread that is running.  Where the worker finishes before the entry is inserted, the entry
stays. -/
theorem not_threads_safe :
    ¬Throughout perform Safe {} [.call, .start 0, .insert 0, .ret 0, .runTask 0, .runCallback 0,
        .erase 0] ∧
      ¬Throughout perform Safe {} [.call, .start 0, .runTask 0, .runCallback 0, .erase 0,
        .insert 0, .ret 0] := by
  constructor
  · intro hthroughout
    have hlisted := (safe_iff_listed (run_linked _)).mp (hthroughout _ List.prefix_rfl)
    exact (hlisted 0 (by decide)).1 (by decide)
  · intro hthroughout
    have hleft := (hthroughout _ List.prefix_rfl).2 0 (by decide) (by decide)
    exact absurd hleft (by decide)

end RestAsync
end Iostreams
