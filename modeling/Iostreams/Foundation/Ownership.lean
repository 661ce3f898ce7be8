import Mathlib.Algebra.BigOperators.Group.List.Basic
import Mathlib.Algebra.Order.Group.Multiset

/-!
# Ownership of resources

A program obtains resources, uses them and gives them back.  Each resource has a kind and a number
of its own, and a `Ledger` knows those that are held.  To use or to give back one that is not held
is a fault: the program has no result then.

`Spends pre program post lost` says what a program does to the resources it owns: from those in
`pre` it gets to those in `post`, without a fault and without touching any other, and it loses
resources of the kinds `lost` for good.  The rules say how programs are put together from their
parts; `Bookkeeping` says, of the calls of an interface, what each of them owns, loses and must not
be used for, and from it what a run of calls owns and has lost, and when it has a fault.
-/

namespace Iostreams
namespace Foundation

variable {κ σ γ α β : Type}

structure Ledger (κ : Type) where
  /-- How many resources there have been. -/
  count : Nat := 0
  held : Multiset (κ × Nat) := 0

/-- No number is used twice. -/
def Ledger.Valid (ledger : Ledger κ) : Prop :=
  ledger.held.Nodup ∧ ∀ resource ∈ ledger.held, resource.2 < ledger.count

/-- A resource that was given back. -/
def Ledger.Gone (ledger : Ledger κ) (resource : κ × Nat) : Prop :=
  resource.2 < ledger.count ∧ resource ∉ ledger.held

/-- What is held later was held before, or is new. -/
def Ledger.Later (ledger next : Ledger κ) : Prop :=
  ledger.count ≤ next.count ∧
    ∀ resource ∈ next.held, resource ∈ ledger.held ∨ ledger.count ≤ resource.2

theorem Ledger.Later.refl (ledger : Ledger κ) : ledger.Later ledger :=
  ⟨Nat.le_refl _, fun _ hmem => Or.inl hmem⟩

theorem Ledger.Later.trans {ledger middle final : Ledger κ} (hfirst : ledger.Later middle)
    (hsecond : middle.Later final) : ledger.Later final := by
  refine ⟨Nat.le_trans hfirst.1 hsecond.1, fun resource hmem => ?_⟩
  rcases hsecond.2 resource hmem with hold | hnew
  · exact hfirst.2 resource hold
  · exact Or.inr (Nat.le_trans hfirst.1 hnew)

/-- What was given back does not come back. -/
theorem Ledger.Gone.later {ledger next : Ledger κ} {resource : κ × Nat}
    (hgone : ledger.Gone resource) (hlater : ledger.Later next) : next.Gone resource := by
  refine ⟨Nat.lt_of_lt_of_le hgone.1 hlater.1, fun hmem => ?_⟩
  rcases hlater.2 resource hmem with hold | hnew
  · exact hgone.2 hold
  · exact Nat.not_le.mpr hgone.1 hnew

/-- A program that owns resources; a fault is `none`. -/
abbrev Owning (κ : Type) := StateT (Ledger κ) Option

namespace Owning

def obtain (kind : κ) : Owning κ (κ × Nat) := fun ledger =>
  some ((kind, ledger.count),
    { count := ledger.count + 1, held := (kind, ledger.count) ::ₘ ledger.held })

def obtainIf (kind : κ) (wanted : Bool) : Owning κ (Option (κ × Nat)) :=
  if wanted then do
    let resource ← obtain kind
    pure (some resource)
  else
    pure none

/-- A use of what there is not. -/
def fault : Owning κ α := fun _ => none

variable [DecidableEq κ]

def release (resource : κ × Nat) : Owning κ Unit := fun ledger =>
  if resource ∈ ledger.held then some ((), { ledger with held := ledger.held.erase resource })
  else none

def releaseAll : List (κ × Nat) → Owning κ Unit
  | [] => pure ()
  | resource :: rest => do
      release resource
      releaseAll rest

/-- A use that leaves the resource as it is. -/
def touch (resource : κ × Nat) : Owning κ Unit := fun ledger =>
  if resource ∈ ledger.held then some ((), ledger) else none

def touchAll : List (κ × Nat) → Owning κ Unit
  | [] => pure ()
  | resource :: rest => do
      touch resource
      touchAll rest

/-- An operation on a resource that may be missing, like a null pointer. -/
def ifPresent (operate : κ × Nat → Owning κ Unit) : Option (κ × Nat) → Owning κ Unit
  | some resource => operate resource
  | none => pure ()

/-- The calls of a run, one after the other. -/
def run (perform : σ → γ → Owning κ σ) : σ → List γ → Owning κ σ
  | state, [] => pure state
  | state, call :: calls => do
      let state ← perform state call
      run perform state calls

end Owning

namespace Owning

theorem bind_eq_none {program : Owning κ α} {ledger : Ledger κ} (hfault : program ledger = none)
    (next : α → Owning κ β) : (program >>= next) ledger = none := by
  show (program ledger).bind _ = none
  rw [hfault]
  rfl

theorem touch_gone [DecidableEq κ] {ledger : Ledger κ} {resource : κ × Nat}
    (hgone : ledger.Gone resource) : touch resource ledger = none := if_neg hgone.2

end Owning

/-- From the resources in `pre` to those in `post`, losing some of the kinds `lost`. -/
def Spends (pre : Multiset (κ × Nat)) (program : Owning κ α) (post : α → Multiset (κ × Nat))
    (lost : Multiset κ) : Prop :=
  ∀ (ledger : Ledger κ) (frame : Multiset (κ × Nat)), ledger.Valid →
    ledger.held = pre + frame → ∃ result next leaked, program ledger = some (result, next) ∧
      next.Valid ∧ ledger.Later next ∧ next.held = post result + (leaked + frame) ∧
      leaked.map Prod.fst = lost

theorem Owning.run_append (perform : σ → γ → Owning κ σ) (state : σ) (front back : List γ) :
    run perform state (front ++ back) =
      run perform state front >>= fun middle => run perform middle back := by
  induction front generalizing state with
  | nil => rfl
  | cons call front ih =>
      simp only [List.cons_append, run, ih]
      exact (bind_assoc _ _ _).symm

/-- The resource, if there is one. -/
def present (resource : Option (κ × Nat)) : Multiset (κ × Nat) := resource.toList

/-- A sum over the objects of a program, one of them apart. -/
theorem sum_of_getElem {objects : List σ} {index : Nat} {object : σ}
    (hget : objects[index]? = some object) (held : σ → Multiset β) :
    (objects.map held).sum = held object + ((objects.eraseIdx index).map held).sum ∧
      ∀ other, ((objects.set index other).map held).sum =
        held other + ((objects.eraseIdx index).map held).sum := by
  obtain ⟨hlt, rfl⟩ := List.getElem?_eq_some_iff.mp hget
  constructor
  · have hperm := List.getElem_cons_eraseIdx_perm hlt
    rw [← (hperm.map held).sum_eq, List.map_cons, List.sum_cons]
  · intro other
    have hperm := List.set_perm_cons_eraseIdx hlt other
    rw [(hperm.map held).sum_eq, List.map_cons, List.sum_cons]

/-- A sum over the objects of a program, with a new one. -/
theorem sum_concat (objects : List σ) (object : σ) (held : σ → Multiset β) :
    ((objects ++ [object]).map held).sum = held object + (objects.map held).sum := by
  rw [List.map_append, List.sum_append, List.map_singleton, List.sum_singleton, add_comm]

/-- What is known of the results of a program. -/
def Returns (program : Owning κ α) (facts : α → Prop) : Prop :=
  ∀ ledger result next, program ledger = some (result, next) → facts result

theorem Returns.pure {facts : α → Prop} {result : α} (hresult : facts result) :
    Returns (Pure.pure result : Owning κ α) facts := by
  intro ledger returned next hrun
  cases hrun
  exact hresult

theorem Returns.bind {program : Owning κ α} {next : α → Owning κ β} {facts : α → Prop}
    {facts' : β → Prop} (hprogram : Returns program facts)
    (hnext : ∀ result, facts result → Returns (next result) facts') :
    Returns (program >>= next) facts' := by
  intro ledger returned final hrun
  obtain ⟨⟨result, middle⟩, hfirst, hrest⟩ := Option.bind_eq_some_iff.mp hrun
  exact hnext result (hprogram ledger result middle hfirst) middle returned final hrest

/-- Only the last program matters. -/
theorem Returns.after (program : Owning κ α) {next : α → Owning κ β} {facts : β → Prop}
    (hnext : ∀ result, Returns (next result) facts) : Returns (program >>= next) facts :=
  Returns.bind (fun _ _ _ _ => trivial) fun result (_ : True) => hnext result

/-- One of a kind, if a call got it. -/
def kindIf (kind : κ) (got : Bool) : Multiset κ := if got then {kind} else 0

theorem returns_obtain (kind : κ) :
    Returns (Owning.obtain kind) fun resource => resource.1 = kind := by
  intro ledger resource next hrun
  cases hrun
  rfl

theorem returns_obtainIf (kind : κ) (wanted : Bool) :
    Returns (Owning.obtainIf kind wanted) fun resource =>
      (present resource).map Prod.fst = kindIf kind wanted := by
  intro ledger resource next hrun
  cases wanted with
  | false =>
      cases hrun
      rfl
  | true =>
      cases hrun
      rfl

theorem returns_fault (facts : α → Prop) : Returns (Owning.fault : Owning κ α) facts := by
  intro ledger result next hrun
  cases hrun

/-- A program that ends with a fixed result. -/
theorem returns_fixed (program : Owning κ α) (result : β) :
    Returns (program >>= fun _ => pure result) fun returned => returned = result :=
  Returns.after program fun _ => Returns.pure rfl

/-- A call of the run: `element` was not there before it, and was there after it. -/
def Made (perform : σ → γ → Owning κ σ) (elements : σ → List β) (state : σ) (calls : List γ)
    (ledger : Ledger κ) (call : γ) (element : β) : Prop :=
  ∃ before after middle between next later, calls = before ++ call :: after ∧
    Owning.run perform state before ledger = some (middle, between) ∧
    perform middle call between = some (next, later) ∧
    element ∉ elements middle ∧ element ∈ elements next

/-- A call goes before those of the run. -/
theorem Made.cons {perform : σ → γ → Owning κ σ} {elements : σ → List β} {state next : σ}
    {first call : γ} {calls : List γ} {ledger later : Ledger κ} {element : β}
    (hfirst : perform state first ledger = some (next, later))
    (hmade : Made perform elements next calls later call element) :
    Made perform elements state (first :: calls) ledger call element := by
  obtain ⟨before, after, middle, between, final, last, rfl, hbefore, hcall, hnew⟩ := hmade
  refine ⟨first :: before, after, middle, between, final, last, rfl, ?_, hcall, hnew⟩
  exact Option.bind_eq_some_iff.mpr ⟨(next, later), hfirst, hbefore⟩

/-- What a run ends with was there before, or the call that it came with has made it. -/
theorem Returns.run {perform : σ → γ → Owning κ σ} {elements : σ → List β} {made : γ → β → Prop}
    (hstep : ∀ state call, Returns (perform state call) fun next =>
      ∀ element ∈ elements next, element ∈ elements state ∨ made call element)
    (state : σ) (calls : List γ) {ledger later : Ledger κ} {final : σ}
    (hrun : Owning.run perform state calls ledger = some (final, later)) :
    ∀ element ∈ elements final, element ∈ elements state ∨
      ∃ call, Made perform elements state calls ledger call element ∧ made call element := by
  induction calls generalizing state ledger with
  | nil =>
      cases hrun
      exact fun element hmem => Or.inl hmem
  | cons call calls ih =>
      obtain ⟨⟨next, between⟩, hcall, hrest⟩ := Option.bind_eq_some_iff.mp hrun
      intro element hmem
      by_cases hold : element ∈ elements state
      · exact Or.inl hold
      refine Or.inr ?_
      rcases ih next hrest element hmem with hnew | ⟨other, hother, hmade⟩
      · have hmade := (hstep state call ledger next between hcall element hnew).resolve_left hold
        exact ⟨call, ⟨[], calls, state, ledger, next, between, rfl, rfl, hcall, hold, hnew⟩, hmade⟩
      · exact ⟨other, hother.cons hcall, hmade⟩

/-- Where each call leaves its results behind the earlier ones, so does a run. -/
theorem Returns.run_appends {perform : σ → γ → Owning κ σ} {elements : σ → List β}
    {gives : γ → Bool} {made : γ → β → Prop}
    (hstep : ∀ state call, Returns (perform state call) fun next => ∃ new,
      elements next = elements state ++ new ∧ List.Forall₂ made ([call].filter gives) new)
    (state : σ) (calls : List γ) :
    Returns (Owning.run perform state calls) fun final => ∃ new,
      elements final = elements state ++ new ∧ List.Forall₂ made (calls.filter gives) new := by
  induction calls generalizing state with
  | nil => exact Returns.pure ⟨[], (List.append_nil _).symm, List.Forall₂.nil⟩
  | cons call calls ih =>
      refine (hstep state call).bind fun next hnext => ?_
      obtain ⟨first, hfirst, hmade⟩ := hnext
      intro ledger final later hrun
      obtain ⟨rest, hrest, hothers⟩ := ih next ledger final later hrun
      refine ⟨first ++ rest, by rw [hrest, hfirst, List.append_assoc], ?_⟩
      rw [← List.singleton_append, List.filter_append]
      exact List.rel_append hmade hothers

namespace Spends

open Owning

variable {pre : Multiset (κ × Nat)} {post : α → Multiset (κ × Nat)} {lost : Multiset κ}

/-! ## Structural rules -/

theorem pure (result : α) (post : α → Multiset (κ × Nat)) :
    Spends (post result) (pure result : Owning κ α) post 0 := by
  intro ledger frame hvalid hheld
  exact ⟨result, ledger, 0, rfl, hvalid, .refl ledger, by rw [hheld, zero_add], rfl⟩

/-- The second program goes on with what the first left. -/
theorem bindReturning {program : Owning κ α} {next : α → Owning κ β} {facts : α → Prop}
    {post' : β → Multiset (κ × Nat)} {lost' : Multiset κ}
    (hfirst : Spends pre program post lost) (hreturns : Returns program facts)
    (hnext : ∀ result, facts result → Spends (post result) (next result) post' lost') :
    Spends pre (program >>= next) post' (lost + lost') := by
  intro ledger frame hvalid hheld
  obtain ⟨result, middle, leaked, hrun, hmiddle, hlater, hheld', hleaked⟩ :=
    hfirst ledger frame hvalid hheld
  obtain ⟨result', final, leaked', hrun', hfinal, hlater', hheld'', hleaked'⟩ :=
    hnext result (hreturns ledger result middle hrun) middle (leaked + frame) hmiddle hheld'
  refine ⟨result', final, leaked + leaked', ?_, hfinal, hlater.trans hlater', ?_, ?_⟩
  · show (program ledger).bind (fun step => next step.1 step.2) = _
    rw [hrun]
    exact hrun'
  · rw [hheld'', add_left_comm leaked' leaked, add_assoc]
  · rw [Multiset.map_add, hleaked, hleaked']

theorem bind {program : Owning κ α} {next : α → Owning κ β} {post' : β → Multiset (κ × Nat)}
    {lost' : Multiset κ} (hfirst : Spends pre program post lost)
    (hnext : ∀ result, Spends (post result) (next result) post' lost') :
    Spends pre (program >>= next) post' (lost + lost') :=
  hfirst.bindReturning (fun _ _ _ _ => trivial) fun result (_ : True) => hnext result

/-- After a program that loses nothing. -/
theorem seqReturning {program : Owning κ α} {next : α → Owning κ β} {facts : α → Prop}
    {post' : β → Multiset (κ × Nat)} (hfirst : Spends pre program post 0)
    (hreturns : Returns program facts)
    (hnext : ∀ result, facts result → Spends (post result) (next result) post' lost) :
    Spends pre (program >>= next) post' lost := by
  have hboth := hfirst.bindReturning hreturns hnext
  rwa [zero_add] at hboth

theorem seq {program : Owning κ α} {next : α → Owning κ β} {post' : β → Multiset (κ × Nat)}
    (hfirst : Spends pre program post 0)
    (hnext : ∀ result, Spends (post result) (next result) post' lost) :
    Spends pre (program >>= next) post' lost :=
  hfirst.seqReturning (fun _ _ _ _ => trivial) fun result (_ : True) => hnext result

/-- A program keeps what it does not own. -/
theorem frame {program : Owning κ α} (hprogram : Spends pre program post lost)
    (extra : Multiset (κ × Nat)) :
    Spends (pre + extra) program (fun result => post result + extra) lost := by
  intro ledger rest hvalid hheld
  rw [add_assoc] at hheld
  obtain ⟨result, next, leaked, hrun, hnext, hlater, hheld', hleaked⟩ :=
    hprogram ledger (extra + rest) hvalid hheld
  exact ⟨result, next, leaked, hrun, hnext, hlater,
    by rw [hheld', add_assoc, add_left_comm leaked extra], hleaked⟩

/-- A program that ends with more than its result says loses the rest. -/
theorem leave {owned extra : Multiset (κ × Nat)} (result : α)
    (howned : owned = post result + extra) (hkinds : extra.map Prod.fst = lost) :
    Spends owned (Pure.pure result : Owning κ α) post lost := by
  intro ledger frame hvalid hheld
  exact ⟨result, ledger, extra, rfl, hvalid, .refl ledger, by rw [hheld, howned, add_assoc],
    hkinds⟩

/-- A program that ends with what its result says. -/
theorem stop {owned : Multiset (κ × Nat)} (result : α) (howned : owned = post result) :
    Spends owned (Pure.pure result : Owning κ α) post 0 :=
  leave result (howned.trans (add_zero _).symm) (Multiset.map_zero _)

theorem congr {program : Owning κ α} {pre' : Multiset (κ × Nat)}
    {post' : α → Multiset (κ × Nat)} {lost' : Multiset κ}
    (hprogram : Spends pre program post lost) (hpre : pre' = pre)
    (hpost : ∀ result, post result = post' result) (hlost : lost = lost') :
    Spends pre' program post' lost' := by
  obtain rfl := hpre
  obtain rfl : post = post' := funext hpost
  exact hlost ▸ hprogram

/-! ## Rules for the operations -/

theorem obtain (kind : κ) (owned : Multiset (κ × Nat)) :
    Spends owned (Owning.obtain kind) (fun resource => resource ::ₘ owned) 0 := by
  intro ledger frame hvalid hheld
  refine ⟨(kind, ledger.count), _, 0, rfl, ⟨?_, ?_⟩, ⟨Nat.le_succ _, fun resource hmem => ?_⟩,
    ?_, rfl⟩
  · refine Multiset.nodup_cons.mpr ⟨fun hmem => ?_, hvalid.1⟩
    exact Nat.lt_irrefl _ (hvalid.2 _ hmem)
  · intro resource hmem
    rcases Multiset.mem_cons.mp hmem with rfl | hold
    · exact Nat.lt_succ_self _
    · exact Nat.lt_succ_of_lt (hvalid.2 resource hold)
  · rcases Multiset.mem_cons.mp hmem with rfl | hold
    · exact Or.inr (Nat.le_refl _)
    · exact Or.inl hold
  · rw [zero_add, Multiset.cons_add, hheld]

theorem obtainIf (kind : κ) (wanted : Bool) (owned : Multiset (κ × Nat)) :
    Spends owned (Owning.obtainIf kind wanted)
      (fun resource => present resource + owned) 0 := by
  cases wanted with
  | false =>
      exact (pure none fun resource => present resource + owned).congr (zero_add owned).symm
        (fun _ => rfl) rfl
  | true =>
      refine ((obtain kind owned).bind fun resource => ?_).congr rfl (fun _ => rfl) (add_zero 0)
      exact pure (some resource) fun resource => present resource + owned

variable [DecidableEq κ]

theorem release (resource : κ × Nat) (owned : Multiset (κ × Nat)) :
    Spends (resource ::ₘ owned) (Owning.release resource) (fun _ => owned) 0 := by
  intro ledger frame hvalid hheld
  have hmem : resource ∈ ledger.held := by
    rw [hheld, Multiset.cons_add]
    exact Multiset.mem_cons_self _ _
  refine ⟨(), _, 0, if_pos hmem, ⟨hvalid.1.erase resource, ?_⟩, ⟨Nat.le_refl _, ?_⟩, ?_, rfl⟩
  · exact fun other hother => hvalid.2 other (Multiset.mem_of_mem_erase hother)
  · exact fun other hother => Or.inl (Multiset.mem_of_mem_erase hother)
  · rw [zero_add]
    show ledger.held.erase resource = _
    rw [hheld, Multiset.cons_add, Multiset.erase_cons_head]

theorem touch {resource : κ × Nat} {owned : Multiset (κ × Nat)} (hmem : resource ∈ owned) :
    Spends owned (Owning.touch resource) (fun _ => owned) 0 := by
  intro ledger frame hvalid hheld
  have hheld' : resource ∈ ledger.held := by
    rw [hheld]
    exact Multiset.mem_add.mpr (Or.inl hmem)
  exact ⟨(), ledger, 0, if_pos hheld', hvalid, .refl ledger, by rw [zero_add, hheld], rfl⟩

theorem releasePresent (resource : Option (κ × Nat)) (owned : Multiset (κ × Nat)) :
    Spends (present resource + owned) (ifPresent Owning.release resource) (fun _ => owned) 0 := by
  cases resource with
  | none => exact (pure () fun _ => owned).congr (zero_add owned) (fun _ => rfl) rfl
  | some resource => exact release resource owned

theorem touchPresent (resource : Option (κ × Nat)) (owned : Multiset (κ × Nat)) :
    Spends (present resource + owned) (ifPresent Owning.touch resource)
      (fun _ => present resource + owned) 0 := by
  cases resource with
  | none => exact pure () fun _ => present none + owned
  | some resource => exact touch (Multiset.mem_add.mpr (Or.inl (Multiset.mem_singleton_self _)))

theorem releaseAll (resources : List (κ × Nat)) (owned : Multiset (κ × Nat)) :
    Spends ((resources : Multiset (κ × Nat)) + owned) (Owning.releaseAll resources)
      (fun _ => owned) 0 := by
  induction resources with
  | nil => exact (pure () fun _ => owned).congr (zero_add owned) (fun _ => rfl) rfl
  | cons resource rest ih =>
      have hfirst := release resource ((rest : Multiset (κ × Nat)) + owned)
      refine (hfirst.bind fun _ => ih).congr ?_ (fun _ => rfl) (add_zero 0)
      rw [← Multiset.cons_coe, Multiset.cons_add]

theorem touchAll {resources : List (κ × Nat)} {owned : Multiset (κ × Nat)}
    (hmem : ∀ resource ∈ resources, resource ∈ owned) :
    Spends owned (Owning.touchAll resources) (fun _ => owned) 0 := by
  induction resources with
  | nil => exact pure () fun _ => owned
  | cons resource rest ih =>
      have hrest := ih fun other hother => hmem other (List.mem_cons_of_mem resource hother)
      exact (touch (hmem resource List.mem_cons_self)).seq fun _ => hrest

omit [DecidableEq κ] in
/-- The calls of a list that all leave the same resources behind. -/
theorem run {perform : σ → γ → Owning κ σ} {owned : Multiset (κ × Nat)} {calls : List γ}
    (hstep : ∀ state, ∀ call ∈ calls, Spends owned (perform state call) (fun _ => owned) 0)
    (state : σ) : Spends owned (Owning.run perform state calls) (fun _ => owned) 0 := by
  induction calls generalizing state with
  | nil => exact pure state fun _ => owned
  | cons call calls ih =>
      have hrest := fun state later hlater => hstep state later (List.mem_cons_of_mem call hlater)
      exact ((hstep state call List.mem_cons_self).bind (ih hrest)).congr rfl (fun _ => rfl)
        (add_zero 0)

end Spends

/-! ## Faults -/

/-- A program that owns `pre` has a fault. -/
def Faults (pre : Multiset (κ × Nat)) (program : Owning κ α) : Prop :=
  ∀ (ledger : Ledger κ) (frame : Multiset (κ × Nat)), ledger.Valid →
    ledger.held = pre + frame → program ledger = none

namespace Faults

variable {pre : Multiset (κ × Nat)}

/-- What comes before the fault. -/
theorem after {program : Owning κ α} {next : α → Owning κ β} {post : α → Multiset (κ × Nat)}
    {lost : Multiset κ} (hfirst : Spends pre program post lost)
    (hnext : ∀ result, Faults (post result) (next result)) : Faults pre (program >>= next) := by
  intro ledger frame hvalid hheld
  obtain ⟨result, middle, leaked, hrun, hmiddle, -, hheld', -⟩ := hfirst ledger frame hvalid hheld
  show (program ledger).bind (fun step => next step.1 step.2) = none
  rw [hrun]
  exact hnext result middle (leaked + frame) hmiddle hheld'

theorem fault (pre : Multiset (κ × Nat)) : Faults pre (Owning.fault : Owning κ α) :=
  fun _ _ _ _ => rfl

theorem bind {program : Owning κ α} (hprogram : Faults pre program) (next : α → Owning κ β) :
    Faults pre (program >>= next) := by
  intro ledger frame hvalid hheld
  exact Owning.bind_eq_none (hprogram ledger frame hvalid hheld) next

/-- A resource that was given back is used. -/
theorem released [DecidableEq κ] (resource : κ × Nat) (owned : Multiset (κ × Nat)) {use : Owning κ α}
    (huse : ∀ ledger : Ledger κ, resource ∉ ledger.held → use ledger = none) :
    Faults (resource ::ₘ owned) (Owning.release resource >>= fun _ => use) := by
  intro ledger frame hvalid hheld
  have hmem : resource ∈ ledger.held := by
    rw [hheld, Multiset.cons_add]
    exact Multiset.mem_cons_self _ _
  have hrun : Owning.release resource ledger =
      some ((), { ledger with held := ledger.held.erase resource }) := if_pos hmem
  show (Owning.release resource ledger).bind _ = none
  rw [hrun]
  exact huse _ hvalid.1.notMem_erase

end Faults

/-! ## Runs -/

/-- What a state owns, what it only remembers, and what was lost before. -/
structure Accounted (owned spent : σ → Multiset (κ × Nat)) (lost : Multiset κ) (state : σ)
    (ledger : Ledger κ) : Prop where
  valid : ledger.Valid
  held : ∃ leaked, ledger.held = owned state + leaked ∧ leaked.map Prod.fst = lost
  gone : ∀ resource ∈ spent state, ledger.Gone resource

/-- The calls of an interface and the resources behind them. -/
structure Bookkeeping (perform : σ → γ → Owning κ σ) (owned spent : σ → Multiset (κ × Nat))
    (lostBy : σ → γ → Multiset κ) (allowed : σ → γ → Prop) : Prop where
  spends : ∀ state call, allowed state call →
    Spends (owned state) (perform state call) owned (lostBy state call)
  /-- What a state remembers was remembered before or has just been given back. -/
  remembers : ∀ state call, allowed state call → Returns (perform state call) fun next =>
    ∀ resource ∈ spent next, resource ∈ spent state ∨
      lostBy state call = 0 ∧ ∃ returned,
        owned state = returned + owned next ∧ resource ∈ returned
  faults : ∀ state call ledger lost, ¬allowed state call →
    Accounted owned spent lost state ledger → perform state call ledger = none

/-- What the calls of a run lose, each in the state that it finds. -/
def lostIn (perform : σ → γ → Owning κ σ) (lostBy : σ → γ → Multiset κ) :
    σ → List γ → Ledger κ → Multiset κ
  | _, [], _ => 0
  | state, call :: calls, ledger =>
      lostBy state call +
        match perform state call ledger with
        | some (next, later) => lostIn perform lostBy next calls later
        | none => 0

/-- A call that is not allowed, after others that have returned. -/
def Misuses (perform : σ → γ → Owning κ σ) (allowed : σ → γ → Prop) (state : σ) (calls : List γ)
    (ledger : Ledger κ) : Prop :=
  ∃ front call back middle later, calls = front ++ call :: back ∧
    Owning.run perform state front ledger = some (middle, later) ∧ ¬allowed middle call

theorem Owning.run_cons {perform : σ → γ → Owning κ σ} {state next : σ} {call : γ}
    {ledger later : Ledger κ} (calls : List γ)
    (hcall : perform state call ledger = some (next, later)) :
    Owning.run perform state (call :: calls) ledger = Owning.run perform next calls later := by
  show (perform state call ledger).bind _ = _
  rw [hcall]
  rfl

theorem Misuses.cons_iff {perform : σ → γ → Owning κ σ} {allowed : σ → γ → Prop}
    {state next : σ} {call : γ} {ledger later : Ledger κ} (calls : List γ)
    (hallowed : allowed state call) (hcall : perform state call ledger = some (next, later)) :
    Misuses perform allowed state (call :: calls) ledger ↔
      Misuses perform allowed next calls later := by
  constructor
  · rintro ⟨front, wrong, back, middle, final, hsplit, hfront, hwrong⟩
    cases front with
    | nil =>
        cases hfront
        cases hsplit
        exact absurd hallowed hwrong
    | cons first front =>
        obtain ⟨rfl, rfl⟩ := List.cons_eq_cons.mp hsplit
        exact ⟨front, wrong, back, middle, final, rfl, Owning.run_cons front hcall ▸ hfront, hwrong⟩
  · rintro ⟨front, wrong, back, middle, final, rfl, hfront, hwrong⟩
    exact ⟨call :: front, wrong, back, middle, final, rfl,
      (Owning.run_cons front hcall).trans hfront, hwrong⟩

/-- Where the losses of a call do not depend on the state. -/
theorem lostIn_const {perform : σ → γ → Owning κ σ} (lostBy : γ → Multiset κ) {state final : σ}
    {calls : List γ} {ledger later : Ledger κ}
    (hrun : Owning.run perform state calls ledger = some (final, later)) :
    lostIn perform (fun _ => lostBy) state calls ledger = (calls.map lostBy).sum := by
  induction calls generalizing state ledger with
  | nil => rfl
  | cons call calls ih =>
      obtain ⟨⟨next, middle⟩, hcall, hrest⟩ := Option.bind_eq_some_iff.mp hrun
      have hih := ih hrest
      rw [lostIn, hcall, List.map_cons, List.sum_cons]
      exact congrArg _ hih

namespace Bookkeeping

variable {perform : σ → γ → Owning κ σ} {owned spent : σ → Multiset (κ × Nat)}
  {lostBy : σ → γ → Multiset κ} {allowed : σ → γ → Prop} {lost : Multiset κ} {state : σ}
  {ledger : Ledger κ}

theorem step (hbook : Bookkeeping perform owned spent lostBy allowed) {call : γ}
    (hallowed : allowed state call) (haccounted : Accounted owned spent lost state ledger) :
    ∃ next later, perform state call ledger = some (next, later) ∧
      Accounted owned spent (lost + lostBy state call) next later := by
  obtain ⟨leaked, hheld, hlost⟩ := haccounted.held
  obtain ⟨next, later, leaked', hrun, hvalid, hlater, hheld', hlost'⟩ :=
    hbook.spends state call hallowed ledger leaked haccounted.valid hheld
  refine ⟨next, later, hrun, hvalid, ⟨leaked' + leaked, hheld', ?_⟩, fun resource hmem => ?_⟩
  · rw [Multiset.map_add, hlost, hlost', add_comm]
  · rcases hbook.remembers state call hallowed ledger next later hrun resource hmem with
      hspent | ⟨hnothing, returned, hreturned, hback⟩
    · exact (haccounted.gone resource hspent).later hlater
    · -- the ledger held it once, and it is not among what is left
      have hleaked : leaked' = 0 := Multiset.map_eq_zero.mp (hlost'.trans hnothing)
      have hrest : ledger.held = returned + later.held := by
        rw [hheld, hreturned, hheld', hleaked, zero_add, add_assoc]
      have hnodup := hrest ▸ haccounted.valid.1
      have hin : resource ∈ ledger.held := hrest ▸ Multiset.mem_add.mpr (Or.inl hback)
      refine ⟨Nat.lt_of_lt_of_le (haccounted.valid.2 resource hin) hlater.1, fun hstill => ?_⟩
      exact (Multiset.disjoint_left.mp (Multiset.nodup_add.mp hnodup).2.2) hback hstill

theorem run (hbook : Bookkeeping perform owned spent lostBy allowed) (calls : List γ)
    (haccounted : Accounted owned spent lost state ledger) :
    Misuses perform allowed state calls ledger ∧ Owning.run perform state calls ledger = none ∨
      ¬Misuses perform allowed state calls ledger ∧
        ∃ final later, Owning.run perform state calls ledger = some (final, later) ∧
          Accounted owned spent (lost + lostIn perform lostBy state calls ledger) final later := by
  induction calls generalizing state ledger lost with
  | nil =>
      refine Or.inr ⟨?_, state, ledger, rfl, ?_⟩
      · rintro ⟨front, call, back, -, -, hsplit, -⟩
        exact absurd hsplit.symm (by simp)
      · rwa [lostIn, add_zero]
  | cons call calls ih =>
      by_cases hallowed : allowed state call
      · obtain ⟨next, later, hcall, hnext⟩ := hbook.step hallowed haccounted
        rw [Owning.run_cons calls hcall, Misuses.cons_iff calls hallowed hcall, lostIn, hcall, ← add_assoc]
        exact ih hnext
      · refine Or.inl ⟨⟨[], call, calls, state, ledger, rfl, rfl, hallowed⟩, ?_⟩
        exact Owning.bind_eq_none (hbook.faults state call ledger lost hallowed haccounted) _

/-- Nothing is held and nothing was lost. -/
theorem accounted_start (howned : owned state = 0) (hspent : spent state = 0) :
    Accounted owned spent 0 state ({} : Ledger κ) := by
  refine ⟨⟨Multiset.nodup_zero, ?_⟩, ⟨0, ?_, rfl⟩, ?_⟩
  · exact fun _ hmem => absurd hmem (Multiset.notMem_zero _)
  · rw [howned, add_zero]
  · exact fun resource hmem => absurd (hspent ▸ hmem) (Multiset.notMem_zero _)

/-- A program that starts with nothing has a fault exactly if it misuses something; otherwise what
it holds belongs to the state at the end, or was lost on the way. -/
theorem balanced (hbook : Bookkeeping perform owned spent lostBy allowed) (calls : List γ)
    (howned : owned state = 0) (hspent : spent state = 0) :
    (Owning.run perform state calls {} = none ↔ Misuses perform allowed state calls {}) ∧
      ∀ final ledger, Owning.run perform state calls {} = some (final, ledger) →
        ledger.held.map Prod.fst =
          (owned final).map Prod.fst + lostIn perform lostBy state calls {} := by
  rcases hbook.run calls (accounted_start howned hspent) with
    ⟨hmisuse, hnone⟩ | ⟨hmisuse, final, later, hsome, hfinal⟩
  · refine ⟨⟨fun _ => hmisuse, fun _ => hnone⟩, fun final ledger hrun => ?_⟩
    exact absurd (hnone.symm.trans hrun) (by simp)
  · refine ⟨⟨fun hnone => ?_, fun hwrong => absurd hwrong hmisuse⟩, fun final' ledger hrun => ?_⟩
    · exact absurd (hnone.symm.trans hsome) (by simp)
    · obtain ⟨rfl, rfl⟩ := Prod.mk.inj (Option.some.inj (hrun.symm.trans hsome))
      obtain ⟨leaked, hheld, hleaked⟩ := hfinal.held
      rw [hheld, Multiset.map_add, hleaked, zero_add]

/-- Where no call loses anything, it holds just what belongs to the state. -/
theorem held_eq_owned (hbook : Bookkeeping perform owned spent (fun _ _ => 0) allowed)
    {calls : List γ} (howned : owned state = 0) (hspent : spent state = 0) {final : σ}
    {ledger : Ledger κ} (hrun : Owning.run perform state calls {} = some (final, ledger)) :
    ledger.held = owned final := by
  rcases hbook.run calls (accounted_start howned hspent) with
    ⟨-, hnone⟩ | ⟨-, final', later, hsome, hfinal⟩
  · exact absurd (hnone.symm.trans hrun) (by simp)
  · obtain ⟨rfl, rfl⟩ := Prod.mk.inj (Option.some.inj (hrun.symm.trans hsome))
    obtain ⟨leaked, hheld, hleaked⟩ := hfinal.held
    have hnothing : (calls.map fun _ => (0 : Multiset κ)).sum = 0 := List.sum_eq_zero (by simp)
    rw [lostIn_const (fun _ => 0) hrun, hnothing, zero_add] at hleaked
    rw [hheld, Multiset.map_eq_zero.mp hleaked, add_zero]

end Bookkeeping
end Foundation
end Iostreams
