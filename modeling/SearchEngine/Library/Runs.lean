/-
This file develops runs of a machine: a step function on states, and lists of
labels that are taken one after the other.

An invariant that every step keeps holds at the end of every run. Where a step
keeps the invariant only under a condition on the state and the label, the
condition is required along the run; it is then required along every beginning
of the run too, so the invariant holds in every state that is passed.

A step that can fail is checked. A checked machine whose every step is a step of
an unchecked one never fails, and a run of it is a run of the unchecked one.
-/

import Mathlib

namespace Runs

variable {State Label : Type*} (step : State → Label → State)

/-- The state at the end of a run. -/
def after (state : State) (labels : List Label) : State := labels.foldl step state

/-- The condition holds before every step of a run. -/
def Throughout (condition : State → Label → Prop) : State → List Label → Prop
  | _, [] => True
  | state, label :: labels => condition state label ∧ Throughout condition (step state label) labels

instance decidableThroughout (condition : State → Label → Prop)
    [∀ state label, Decidable (condition state label)] :
    ∀ state labels, Decidable (Throughout step condition state labels)
  | _, [] => isTrue trivial
  | state, label :: labels =>
    have := decidableThroughout condition (step state label) labels
    inferInstanceAs (Decidable (condition state label ∧ _))

@[simp] theorem after_nil (state : State) : after step state [] = state := rfl

@[simp] theorem after_cons (state : State) (label : Label) (labels : List Label) :
    after step state (label :: labels) = after step (step state label) labels := rfl

theorem after_append (state : State) (earlier later : List Label) :
    after step state (earlier ++ later) = after step (after step state earlier) later :=
  List.foldl_append ..

variable {step}

/-- The rule for invariants that are kept under a condition. -/
theorem after_of_throughout {condition : State → Label → Prop} (invariant : State → Prop)
    (kept : ∀ state label, condition state label → invariant state → invariant (step state label))
    {state : State} (holds : invariant state) {labels : List Label}
    (throughout : Throughout step condition state labels) :
    invariant (after step state labels) := by
  induction labels generalizing state with
  | nil => exact holds
  | cons label labels inductionHypothesis =>
    exact inductionHypothesis (kept state label throughout.1 holds) throughout.2

/-- The rule for invariants. -/
theorem after_of_kept (invariant : State → Prop)
    (kept : ∀ state label, invariant state → invariant (step state label))
    {state : State} (holds : invariant state) (labels : List Label) :
    invariant (after step state labels) := by
  induction labels generalizing state with
  | nil => exact holds
  | cons label labels inductionHypothesis => exact inductionHypothesis (kept state label holds)

/-- What holds before every step holds throughout. -/
theorem throughout_of_forall {condition : State → Label → Prop}
    (all : ∀ state label, condition state label) (state : State) (labels : List Label) :
    Throughout step condition state labels := by
  induction labels generalizing state with
  | nil => trivial
  | cons label labels inductionHypothesis => exact ⟨all state label, inductionHypothesis _⟩

/-- A condition that a kept invariant implies holds throughout. -/
theorem throughout_of_throughout {assumed condition : State → Label → Prop}
    (invariant : State → Prop)
    (kept : ∀ state label, assumed state label → invariant state → invariant (step state label))
    (implied : ∀ state label, assumed state label → invariant state → condition state label)
    {state : State} (holds : invariant state) {labels : List Label}
    (throughout : Throughout step assumed state labels) :
    Throughout step condition state labels := by
  induction labels generalizing state with
  | nil => trivial
  | cons label labels inductionHypothesis =>
    exact ⟨implied state label throughout.1 holds,
      inductionHypothesis (kept state label throughout.1 holds) throughout.2⟩

theorem throughout_append {condition : State → Label → Prop} {state : State}
    {earlier later : List Label} :
    Throughout step condition state (earlier ++ later) ↔
      Throughout step condition state earlier ∧
        Throughout step condition (after step state earlier) later := by
  induction earlier generalizing state with
  | nil => simp [Throughout]
  | cons label labels inductionHypothesis =>
    rw [List.cons_append, Throughout, Throughout, inductionHypothesis, after_cons, and_assoc]

/-- The states a run passes through, from its first step on. -/
theorem forall_prefix_cons {property : State → Prop} {state : State} {label : Label}
    {labels : List Label} :
    (∀ earlier, earlier <+: label :: labels → property (after step state earlier)) ↔
      property state ∧
        ∀ earlier, earlier <+: labels → property (after step (step state label) earlier) := by
  constructor
  · intro always
    refine ⟨always [] (List.nil_prefix), fun earlier passed => ?_⟩
    exact always (label :: earlier) (List.cons_prefix_cons.mpr ⟨rfl, passed⟩)
  · rintro ⟨now, later⟩ earlier passed
    cases earlier with
    | nil => exact now
    | cons first earlier =>
      obtain ⟨rfl, rest⟩ := List.cons_prefix_cons.mp passed
      exact later earlier rest

/-- The rule for properties that a step keeps exactly under a condition: such a property holds in
every state of a run exactly when it holds in the first and the condition holds throughout. -/
theorem always_iff_throughout {assumed condition : State → Label → Prop}
    (invariant property : State → Prop)
    (kept : ∀ state label, assumed state label → invariant state → invariant (step state label))
    (exact : ∀ state label, assumed state label → invariant state → property state →
      (property (step state label) ↔ condition state label))
    {state : State} (holds : invariant state) {labels : List Label}
    (throughout : Throughout step assumed state labels) :
    (∀ earlier, earlier <+: labels → property (after step state earlier)) ↔
      property state ∧ Throughout step condition state labels := by
  induction labels generalizing state with
  | nil => simp [Throughout]
  | cons label labels inductionHypothesis =>
    rw [forall_prefix_cons,
      inductionHypothesis (kept state label throughout.1 holds) throughout.2, Throughout]
    refine and_congr_right fun now => ?_
    rw [exact state label throughout.1 holds now]

/-! ### Checked steps -/

/-- A checked machine that steps as an unchecked one runs as it. -/
theorem foldlM_of_simulated {Error Checked Unchecked Label : Type*}
    {checked : Checked → Label → Except Error Checked} {step : Unchecked → Label → Unchecked}
    (view : Unchecked → Checked)
    (simulated : ∀ state label, checked (view state) label = .ok (view (step state label)))
    (state : Unchecked) (labels : List Label) :
    labels.foldlM checked (view state) = .ok (view (after step state labels)) := by
  induction labels generalizing state with
  | nil => rfl
  | cons label labels inductionHypothesis =>
    rw [List.foldlM_cons, simulated, after_cons, ← inductionHypothesis]
    rfl

end Runs
