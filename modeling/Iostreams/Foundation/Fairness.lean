import Mathlib.Tactic.Common

/-!
# Progress under a schedule

A system takes one step for every event of a schedule.  On a finite schedule,
`reached_within` bounds by a rank how many events of one kind are needed before
a goal is reached.  On an infinite one, `reaches_of_helpful` needs a schedule that
takes the helpful event of every state again and again: until the goal is reached,
the helpful event lowers the rank, and every other event lowers it or keeps it
together with the helpful event.
-/

namespace Iostreams
namespace Foundation

variable {State Event : Type*} {step : State → Event → State}

/-! ## Finite schedules -/

/-- A rank that the events of one kind lower until the goal is reached, and no other
event raises, bounds the number of events of this kind that are needed. -/
theorem reached_within {own : Event → Bool} {invariant goal : State → Prop} {rank : State → Nat}
    (hinvariant : ∀ state event, invariant state → invariant (step state event))
    (hzero : ∀ state, invariant state → rank state = 0 → goal state)
    (hown : ∀ state event, invariant state → own event = true → ¬goal state →
      rank (step state event) < rank state)
    (hother : ∀ state event, invariant state → own event = false → ¬goal state →
      rank (step state event) ≤ rank state)
    {events : List Event} {state : State} (hstate : invariant state)
    (hcount : rank state ≤ events.countP own) :
    ∃ taken, taken <+: events ∧ goal (taken.foldl step state) := by
  induction events generalizing state with
  | nil => exact ⟨[], List.prefix_refl _, hzero state hstate (Nat.le_zero.mp hcount)⟩
  | cons event events ih =>
      -- an event of the kind pays for the rank that it lowers
      by_cases hgoal : goal state
      · exact ⟨[], List.nil_prefix, hgoal⟩
      · have hnext : rank (step state event) ≤ events.countP own := by
          rw [List.countP_cons] at hcount
          cases hkind : own event with
          | false =>
              have hle := hother state event hstate hkind hgoal
              simp only [hkind, Bool.false_eq_true, if_false] at hcount
              omega
          | true =>
              have hlt := hown state event hstate hkind hgoal
              simp only [hkind, if_true] at hcount
              omega
        obtain ⟨taken, hprefix, hreached⟩ := ih (hinvariant state event hstate) hnext
        exact ⟨event :: taken, (List.cons_prefix_cons).mpr ⟨rfl, hprefix⟩, hreached⟩

/-! ## Infinite schedules -/

/-- The states along an infinite schedule. -/
def trajectory (step : State → Event → State) (start : State) (schedule : Nat → Event) :
    Nat → State
  | 0 => start
  | time + 1 => step (trajectory step start schedule time) (schedule time)

/-- The event is taken again and again. -/
def Recurring (schedule : Nat → Event) (event : Event) : Prop :=
  ∀ time, ∃ later, time ≤ later ∧ schedule later = event

variable {start : State} {schedule : Nat → Event}

theorem trajectory_succ (time : Nat) :
    trajectory step start schedule (time + 1) =
      step (trajectory step start schedule time) (schedule time) := rfl

/-- What the events of the schedule keep holds all along. -/
theorem trajectory_preserves {allowed : Event → Prop} {invariant : State → Prop}
    (hstep : ∀ state event, allowed event → invariant state → invariant (step state event))
    (hallowed : ∀ time, allowed (schedule time)) (hstart : invariant start) (time : Nat) :
    invariant (trajectory step start schedule time) := by
  induction time with
  | zero => exact hstart
  | succ time ih => exact hstep _ _ (hallowed time) ih

section Helpful

variable {allowed : Event → Prop} {invariant goal : State → Prop} {helpful : State → Event}
  {rank : State → Nat}

/-- An event of a state that is not at the goal lowers the rank, or it is not the helpful
one and keeps the rank and the helpful event. -/
def Progresses (step : State → Event → State) (helpful : State → Event) (rank : State → Nat)
    (state : State) (event : Event) : Prop :=
  rank (step state event) < rank state ∨
    event ≠ helpful state ∧ rank (step state event) = rank state ∧
      helpful (step state event) = helpful state

/-- By the time the helpful event is taken, the goal was reached or the rank is lower. -/
private theorem descends
    (hinvariant : ∀ state event, allowed event → invariant state →
      invariant (step state event))
    (hprogress : ∀ state event, allowed event → invariant state → ¬goal state →
      Progresses step helpful rank state event)
    (hallowed : ∀ time, allowed (schedule time)) (hstart : invariant start)
    (wait : Nat) {time : Nat}
    (hhelpful : schedule (time + wait) = helpful (trajectory step start schedule time)) :
    ∃ later, goal (trajectory step start schedule later) ∨
      rank (trajectory step start schedule later) <
        rank (trajectory step start schedule time) := by
  induction wait generalizing time with
  | zero =>
      by_cases hgoal : goal (trajectory step start schedule time)
      · exact ⟨time, .inl hgoal⟩
      · have hnow := trajectory_preserves hinvariant hallowed hstart time
        obtain hlower | ⟨hnot, -⟩ := hprogress _ _ (hallowed time) hnow hgoal
        · exact ⟨time + 1, .inr hlower⟩
        · exact absurd hhelpful hnot
  | succ wait ih =>
      by_cases hgoal : goal (trajectory step start schedule time)
      · exact ⟨time, .inl hgoal⟩
      · have hnow := trajectory_preserves hinvariant hallowed hstart time
        obtain hlower | ⟨-, hrank, hsame⟩ := hprogress _ _ (hallowed time) hnow hgoal
        · exact ⟨time + 1, .inr hlower⟩
        · -- the helpful event of the next state is still the awaited one
          have hlater : schedule (time + 1 + wait) =
              helpful (trajectory step start schedule (time + 1)) := by
            rw [trajectory_succ, hsame, ← hhelpful, Nat.add_assoc, Nat.add_comm 1]
          have hdescent := ih hlater
          rwa [trajectory_succ, hrank] at hdescent

/-- Where every helpful event recurs, the goal is reached. -/
theorem reaches_of_helpful
    (hinvariant : ∀ state event, allowed event → invariant state →
      invariant (step state event))
    (hprogress : ∀ state event, allowed event → invariant state → ¬goal state →
      Progresses step helpful rank state event)
    (hallowed : ∀ time, allowed (schedule time))
    (hfair : ∀ state, Recurring schedule (helpful state)) (hstart : invariant start) :
    ∃ time, goal (trajectory step start schedule time) := by
  have hfrom : ∀ bound time, rank (trajectory step start schedule time) = bound →
      ∃ later, goal (trajectory step start schedule later) := by
    intro bound
    induction bound using Nat.strongRecOn with
    | ind bound ih =>
        rintro time rfl
        obtain ⟨later, hle, htaken⟩ := hfair (trajectory step start schedule time) time
        obtain ⟨wait, rfl⟩ := Nat.exists_eq_add_of_le hle
        obtain ⟨reached, hgoal | hlower⟩ :=
          descends hinvariant hprogress hallowed hstart wait htaken
        · exact ⟨reached, hgoal⟩
        · exact ih _ hlower reached rfl
  exact hfrom _ 0 rfl

end Helpful
end Foundation
end Iostreams
