import Mathlib.Tactic.Common

/-!
# Programs that read from a stream

A `ReadProgram` asks for a number of items, goes on with those it gets, and returns a result in the
end.  `run` is the program on a list of items: a request for more than are left is never answered.
A request may be answered piece by piece; `resume` is the program after some of the pieces, and
`resume_append` says that it does not matter how the items are cut.

`work` counts the items that are taken, and the beginning and the end of each request.
-/

namespace Iostreams
namespace Foundation

variable {ι α : Type}

inductive ReadProgram (ι α : Type) where
  | done (result : α)
  | read (n : Nat) (next : List ι → ReadProgram ι α)

namespace ReadProgram

/-- The result and the items that are left. -/
def run : ReadProgram ι α → List ι → Option (α × List ι)
  | done result, items => some (result, items)
  | read n next, items => if n ≤ items.length then (next (items.take n)).run (items.drop n) else none

/-- A request that has got some items and waits for `left` more. -/
def resume (got : List ι) (left : Nat) (next : List ι → ReadProgram ι α) (items : List ι) :
    Option (α × List ι) :=
  if left ≤ items.length then (next (got ++ items.take left)).run (items.drop left) else none

theorem resume_zero (got : List ι) (next : List ι → ReadProgram ι α) (items : List ι) :
    resume got 0 next items = (next got).run items := by
  simp [resume]

/-- Some of the items come first. -/
theorem resume_append (got chunk : List ι) (left : Nat) (next : List ι → ReadProgram ι α)
    (items : List ι) :
    resume got (chunk.length + left) next (chunk ++ items) =
      resume (got ++ chunk) left next items := by
  simp only [resume, List.length_append, Nat.add_le_add_iff_left, List.take_length_add_append,
    List.drop_length_add_append, List.append_assoc]

/-- A program leaves a part of its items. -/
theorem length_le_of_run {program : ReadProgram ι α} {items rest : List ι} {result : α}
    (hrun : program.run items = some (result, rest)) : rest.length ≤ items.length := by
  induction program generalizing items with
  | done value =>
      cases hrun
      exact Nat.le_refl _
  | read n next ih =>
      rw [run] at hrun
      split at hrun
      · have hrest := ih _ hrun
        rw [List.length_drop] at hrest
        omega
      · cases hrun

theorem length_le_of_resume {got items rest : List ι} {left : Nat}
    {next : List ι → ReadProgram ι α} {result : α}
    (hresume : resume got left next items = some (result, rest)) :
    rest.length ≤ items.length := by
  rw [resume] at hresume
  split at hresume
  · have hrest := length_le_of_run hresume
    rw [List.length_drop] at hrest
    omega
  · cases hresume

/-! ## One program after another -/

variable {α' : Type}

/-- A program that goes on with the result of another one. -/
def bind : ReadProgram ι α → (α → ReadProgram ι α') → ReadProgram ι α'
  | done result, next => next result
  | read n answer, next => read n fun items => (answer items).bind next

theorem run_bind (program : ReadProgram ι α) (next : α → ReadProgram ι α') (items : List ι) :
    (program.bind next).run items =
      (program.run items).bind fun (result, rest) => (next result).run rest := by
  induction program generalizing items with
  | done result => rfl
  | read n answer ih =>
      rw [bind, run, run]
      split
      · exact ih _ _
      · rfl

theorem run_bind_of_run {program : ReadProgram ι α} {next : α → ReadProgram ι α'}
    {items rest : List ι} {result : α} (hrun : program.run items = some (result, rest)) :
    (program.bind next).run items = (next result).run rest := by
  rw [run_bind, hrun, Option.bind_some]

/-- A request that comes first in the items. -/
theorem run_read_append (items rest : List ι) (next : List ι → ReadProgram ι α) :
    (read items.length next).run (items ++ rest) = (next items).run rest := by
  rw [run, if_pos (by rw [List.length_append]; omega), List.take_left, List.drop_left]

/-! ## Work -/

def work : ReadProgram ι α → List ι → Nat
  | done _, _ => 0
  | read n next, items =>
      if n ≤ items.length then n + 1 + (next (items.take n)).work (items.drop n) + 1
      else items.length + 2

/-- What is left of the work. -/
def resumeWork (got : List ι) (left : Nat) (next : List ι → ReadProgram ι α) (items : List ι) :
    Nat :=
  if left ≤ items.length then left + 1 + (next (got ++ items.take left)).work (items.drop left)
  else items.length + 1

theorem work_read (n : Nat) (next : List ι → ReadProgram ι α) (items : List ι) :
    (read n next).work items = resumeWork [] n next items + 1 := by
  rw [work, resumeWork]
  split <;> rfl

theorem resumeWork_zero (got : List ι) (next : List ι → ReadProgram ι α) (items : List ι) :
    resumeWork got 0 next items = (next got).work items + 1 := by
  simp [resumeWork, Nat.add_comm]

theorem resumeWork_append (got chunk : List ι) (left : Nat) (next : List ι → ReadProgram ι α)
    (items : List ι) :
    resumeWork got (chunk.length + left) next (chunk ++ items) =
      chunk.length + resumeWork (got ++ chunk) left next items := by
  simp only [resumeWork, List.length_append, Nat.add_le_add_iff_left,
    List.take_length_add_append, List.drop_length_add_append, List.append_assoc]
  split
  · simp only [Nat.add_assoc]
  · omega

end ReadProgram
end Foundation
end Iostreams
