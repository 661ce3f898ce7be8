import Mathlib.Tactic.Common

/-!
# Runs

A component answers a call with an observation and a new state, or with
nothing where it does not return.  `runCalls` is a run of such a component and
`runModel` one of an abstract model, which answers every call.  A relation that
one call preserves while the observations agree makes whole runs agree.

Where only the states matter a run is a fold, `EachAllowed` says that every call is made
in a state that allows it, and `Throughout` that every state reached satisfies a predicate.
-/

namespace Iostreams
namespace Foundation

variable {σ τ κ ω : Type*}

/-- The observations of a run of calls and the state after it. -/
def runCalls (perform : σ → κ → Option (ω × σ)) : σ → List κ → Option (List ω × σ)
  | state, [] => some ([], state)
  | state, call :: calls => do
      let (observation, state) ← perform state call
      let (observations, state) ← runCalls perform state calls
      return (observation :: observations, state)

/-- The run of a model that answers every call. -/
def runModel (perform : τ → κ → ω × τ) : τ → List κ → List ω × τ
  | state, [] => ([], state)
  | state, call :: calls =>
      let (observation, state) := perform state call
      let (observations, state) := runModel perform state calls
      (observation :: observations, state)

/-- A component that simulates a model call by call simulates it in every run. -/
theorem runCalls_eq_runModel {perform : σ → κ → Option (ω × σ)} {model : τ → κ → ω × τ}
    {relates : σ → τ → Prop} {allowed : κ → Prop}
    (hstep : ∀ state abstract call, relates state abstract → allowed call →
      ∃ next, perform state call = some ((model abstract call).1, next) ∧
        relates next (model abstract call).2)
    {calls : List κ} (hcalls : ∀ call ∈ calls, allowed call) {state : σ} {abstract : τ}
    (hrelates : relates state abstract) :
    ∃ final, runCalls perform state calls = some ((runModel model abstract calls).1, final) ∧
      relates final (runModel model abstract calls).2 := by
  induction calls generalizing state abstract with
  | nil => exact ⟨state, rfl, hrelates⟩
  | cons call calls ih =>
      obtain ⟨next, hperform, hnext⟩ :=
        hstep state abstract call hrelates (hcalls call List.mem_cons_self)
      obtain ⟨final, hrun, hfinal⟩ :=
        ih (fun later hlater => hcalls later (List.mem_cons_of_mem _ hlater)) hnext
      refine ⟨final, ?_, hfinal⟩
      simp [runCalls, runModel, hperform, hrun]

/-- Where every call returns and preserves an invariant, every run returns and preserves it. -/
theorem runCalls_preserves {perform : σ → κ → Option (ω × σ)} (invariant : σ → Prop)
    (hstep : ∀ state call, invariant state →
      ∃ observation next, perform state call = some (observation, next) ∧ invariant next)
    (calls : List κ) {state : σ} (hstart : invariant state) :
    ∃ observations final, runCalls perform state calls = some (observations, final) ∧
      invariant final := by
  induction calls generalizing state with
  | nil => exact ⟨[], state, rfl, hstart⟩
  | cons call calls ih =>
      obtain ⟨observation, next, hperform, hnext⟩ := hstep state call hstart
      obtain ⟨observations, final, hrun, hfinal⟩ := ih hnext
      refine ⟨observation :: observations, final, ?_, hfinal⟩
      simp [runCalls, hperform, hrun]

/-- Two models that answer alike call by call answer alike in every run. -/
theorem runModel_eq_runModel {left : σ → κ → ω × σ} {right : τ → κ → ω × τ}
    {relates : σ → τ → Prop}
    (hstep : ∀ state abstract call, relates state abstract →
      (left state call).1 = (right abstract call).1 ∧
        relates (left state call).2 (right abstract call).2)
    (calls : List κ) {state : σ} {abstract : τ} (hrelates : relates state abstract) :
    (runModel left state calls).1 = (runModel right abstract calls).1 := by
  induction calls generalizing state abstract with
  | nil => rfl
  | cons call calls ih =>
      obtain ⟨hanswer, hnext⟩ := hstep state abstract call hrelates
      simp only [runModel]
      rw [hanswer, ih hnext]

/-- Every call of the run is made in a state that allows it. -/
def EachAllowed (perform : σ → κ → σ) (allowed : σ → κ → Prop) : σ → List κ → Prop
  | _, [] => True
  | state, call :: calls =>
      allowed state call ∧ EachAllowed perform allowed (perform state call) calls

/-- In a run of both, a component answers as a model does, and every state that it reaches is
related to the one of the model. -/
def RefinesThroughout (left : σ → κ → ω × σ) (right : τ → κ → ω × τ) (relates : σ → τ → Prop) :
    σ → τ → List κ → Prop
  | state, abstract, [] => relates state abstract
  | state, abstract, call :: calls =>
      relates state abstract ∧ (left state call).1 = (right abstract call).1 ∧
        RefinesThroughout left right relates (left state call).2 (right abstract call).2 calls

theorem RefinesThroughout.start {left : σ → κ → ω × σ} {right : τ → κ → ω × τ}
    {relates : σ → τ → Prop} {state : σ} {abstract : τ} {calls : List κ}
    (hrefines : RefinesThroughout left right relates state abstract calls) :
    relates state abstract := by
  cases calls with
  | nil => exact hrefines
  | cons call calls => exact hrefines.1

/-- A run is one of the model exactly if each of its calls is made where it is answered as the
model answers it. -/
theorem refinesThroughout_iff {left : σ → κ → ω × σ} {right : τ → κ → ω × τ}
    {relates : σ → τ → Prop} {allowed : τ → κ → Prop}
    (hstep : ∀ state abstract call, relates state abstract →
      (((left state call).1 = (right abstract call).1 ∧
        relates (left state call).2 (right abstract call).2) ↔ allowed abstract call))
    {calls : List κ} {state : σ} {abstract : τ} (hrelates : relates state abstract) :
    RefinesThroughout left right relates state abstract calls ↔
      EachAllowed (fun abstract call => (right abstract call).2) allowed abstract calls := by
  induction calls generalizing state abstract with
  | nil => exact iff_of_true hrelates trivial
  | cons call calls ih =>
      have hcall := hstep state abstract call hrelates
      rw [RefinesThroughout, EachAllowed]
      constructor
      · rintro ⟨-, hanswer, hrest⟩
        have hnext := hrest.start
        exact ⟨hcall.mp ⟨hanswer, hnext⟩, (ih hnext).mp hrest⟩
      · rintro ⟨hallowed, hrest⟩
        obtain ⟨hanswer, hnext⟩ := hcall.mpr hallowed
        exact ⟨hrelates, hanswer, (ih hnext).mpr hrest⟩

theorem refinesThroughout_comm {left : σ → κ → ω × σ} {right : τ → κ → ω × τ}
    {relates : σ → τ → Prop} {state : σ} {abstract : τ} {calls : List κ} :
    RefinesThroughout left right relates state abstract calls ↔
      RefinesThroughout right left (fun abstract state => relates state abstract) abstract state
        calls := by
  induction calls generalizing state abstract with
  | nil => exact Iff.rfl
  | cons call calls ih =>
      rw [RefinesThroughout, RefinesThroughout, ih]
      exact and_congr_right fun _ => and_congr_left fun _ => eq_comm

/-- The same with a condition on the states of the component. -/
theorem refinesThroughout_iff_component {left : σ → κ → ω × σ} {right : τ → κ → ω × τ}
    {relates : σ → τ → Prop} {allowed : σ → κ → Prop}
    (hstep : ∀ state abstract call, relates state abstract →
      (((left state call).1 = (right abstract call).1 ∧
        relates (left state call).2 (right abstract call).2) ↔ allowed state call))
    {calls : List κ} {state : σ} {abstract : τ} (hrelates : relates state abstract) :
    RefinesThroughout left right relates state abstract calls ↔
      EachAllowed (fun state call => (left state call).2) allowed state calls := by
  refine refinesThroughout_comm.trans (refinesThroughout_iff ?_ hrelates)
  intro abstract state call hstate
  rw [eq_comm]
  exact hstep state abstract call hstate

/-- What every call preserves holds after every run. -/
theorem runModel_preserves {perform : σ → κ → ω × σ} (invariant : σ → Prop)
    (hstep : ∀ state call, invariant state → invariant (perform state call).2)
    (calls : List κ) {state : σ} (hstart : invariant state) :
    invariant (runModel perform state calls).2 := by
  induction calls generalizing state with
  | nil => exact hstart
  | cons call calls ih => exact ih (hstep state call hstart)

/-- What every allowed call preserves holds after every run of allowed calls. -/
theorem EachAllowed.preserves {perform : σ → κ → σ} {allowed : σ → κ → Prop}
    (invariant : σ → Prop)
    (hstep : ∀ state call, invariant state → allowed state call → invariant (perform state call))
    {calls : List κ} {state : σ} (hcalls : EachAllowed perform allowed state calls)
    (hstart : invariant state) : invariant (calls.foldl perform state) := by
  induction calls generalizing state with
  | nil => exact hstart
  | cons call calls ih => exact ih hcalls.2 (hstep state call hstart hcalls.1)

/-- Two conditions on the calls that agree under an invariant allow the same runs, if the calls
they allow keep the invariant. -/
theorem eachAllowed_iff {perform : σ → κ → σ} {left right : σ → κ → Prop} (invariant : σ → Prop)
    (hagree : ∀ state call, invariant state → (left state call ↔ right state call))
    (hkeeps : ∀ state call, invariant state → right state call → invariant (perform state call))
    {calls : List κ} {state : σ} (hstart : invariant state) :
    EachAllowed perform left state calls ↔ EachAllowed perform right state calls := by
  induction calls generalizing state with
  | nil => exact Iff.rfl
  | cons call calls ih =>
      rw [EachAllowed, EachAllowed, hagree state call hstart]
      exact and_congr_right fun hright => ih (hkeeps state call hstart hright)

/-- Every state that a run reaches, the first and the last included, satisfies a predicate. -/
def Throughout (perform : σ → κ → σ) (holds : σ → Prop) (state : σ) (calls : List κ) : Prop :=
  ∀ steps, steps <+: calls → holds (steps.foldl perform state)

theorem throughout_nil {perform : σ → κ → σ} {holds : σ → Prop} {state : σ} :
    Throughout perform holds state [] ↔ holds state := by
  constructor
  · intro hall
    exact hall [] List.nil_prefix
  · intro hstate steps hsteps
    rw [List.prefix_nil.mp hsteps]
    exact hstate

theorem throughout_cons {perform : σ → κ → σ} {holds : σ → Prop} {state : σ} {call : κ}
    {calls : List κ} :
    Throughout perform holds state (call :: calls) ↔
      holds state ∧ Throughout perform holds (perform state call) calls := by
  constructor
  · intro hall
    exact ⟨hall [] List.nil_prefix, fun steps hsteps =>
      hall (call :: steps) (List.prefix_cons_inj call |>.mpr hsteps)⟩
  · rintro ⟨hstate, hrest⟩ steps hsteps
    cases steps with
    | nil => exact hstate
    | cons first steps =>
        obtain ⟨rfl, hremaining⟩ := List.cons_prefix_cons.mp hsteps
        exact hrest steps hremaining

/-- In a run of calls that a condition admits, a predicate holds throughout exactly if it holds at
the start and each call of the run keeps it. -/
theorem throughout_iff_within {perform : σ → κ → σ} {holds : σ → Prop}
    {admitted allowed : σ → κ → Prop} (structural : σ → Prop)
    (hstructural : ∀ state call, structural state → structural (perform state call))
    (hstep : ∀ state call, structural state → holds state → admitted state call →
      (holds (perform state call) ↔ allowed state call))
    {calls : List κ} {state : σ} (hcalls : EachAllowed perform admitted state calls)
    (hstart : structural state) (hholds : holds state) :
    Throughout perform holds state calls ↔ EachAllowed perform allowed state calls := by
  induction calls generalizing state with
  | nil => exact throughout_nil.trans (iff_true_intro hholds)
  | cons call calls ih =>
      rw [throughout_cons, EachAllowed]
      have hcall := hstep state call hstart hholds hcalls.1
      constructor
      · rintro ⟨-, hrest⟩
        have hnext : holds (perform state call) := hrest [] List.nil_prefix
        exact ⟨hcall.mp hnext, (ih hcalls.2 (hstructural state call hstart) hnext).mp hrest⟩
      · rintro ⟨hallowed, hrest⟩
        exact ⟨hholds,
          (ih hcalls.2 (hstructural state call hstart) (hcall.mpr hallowed)).mpr hrest⟩

theorem eachAllowed_true (perform : σ → κ → σ) (state : σ) (calls : List κ) :
    EachAllowed perform (fun _ _ => True) state calls := by
  induction calls generalizing state with
  | nil => trivial
  | cons call calls ih => exact ⟨trivial, ih (perform state call)⟩

/-- A predicate holds throughout a run exactly if it holds at the start and each call of the run
keeps it. -/
theorem throughout_iff {perform : σ → κ → σ} {holds : σ → Prop} {allowed : σ → κ → Prop}
    (structural : σ → Prop)
    (hstructural : ∀ state call, structural state → structural (perform state call))
    (hstep : ∀ state call, structural state → holds state →
      (holds (perform state call) ↔ allowed state call))
    {calls : List κ} {state : σ} (hstart : structural state) (hholds : holds state) :
    Throughout perform holds state calls ↔ EachAllowed perform allowed state calls :=
  throughout_iff_within structural hstructural
    (fun state call hstate hholds _ => hstep state call hstate hholds)
    (eachAllowed_true perform state calls) hstart hholds

end Foundation
end Iostreams
