/-
This file develops loops that are run for a bounded number of rounds.

A loop whose rounds depend on an environment is defined by recursion on a number
of rounds, the fuel. `Returns` says that the loop ends with a given result
whenever it gets enough fuel, which is termination and correctness in one
statement. The rules take one round off a loop and put a loop and what follows
it together.
-/

import Mathlib

namespace Fuel

variable {Error Result Value : Type}

/-- With enough fuel the computation ends with the result. -/
def Returns (run : Nat → Except Error Result) (result : Result) : Prop :=
  ∃ bound, ∀ fuel ≥ bound, run fuel = .ok result

theorem Returns.of_eq {run : Nat → Except Error Result} {result : Result}
    (ends : ∀ fuel, run fuel = .ok result) : Returns run result :=
  ⟨0, fun fuel _ => ends fuel⟩

/-- One round, and then the rest of the loop. -/
theorem Returns.of_round {run next : Nat → Except Error Result} {result : Result}
    (round : ∀ fuel, run (fuel + 1) = next fuel) (rest : Returns next result) :
    Returns run result := by
  obtain ⟨bound, ends⟩ := rest
  refine ⟨bound + 1, fun fuel enough => ?_⟩
  obtain ⟨smaller, rfl⟩ : ∃ smaller, fuel = smaller + 1 := ⟨fuel - 1, by omega⟩
  rw [round, ends smaller (by omega)]

/-- An inner loop, and then what the caller does with its result. -/
theorem Returns.after {next run : Nat → Except Error Result} {inner : Nat → Except Error Value}
    {value : Value} {result : Result} (innerReturns : Returns inner value)
    (continue_eq : ∀ fuel, inner fuel = .ok value → run fuel = next fuel)
    (nextReturns : Returns next result) : Returns run result := by
  obtain ⟨innerBound, innerEnds⟩ := innerReturns
  obtain ⟨nextBound, nextEnds⟩ := nextReturns
  refine ⟨max innerBound nextBound, fun fuel enough => ?_⟩
  rw [continue_eq fuel (innerEnds fuel (le_trans (le_max_left _ _) enough))]
  exact nextEnds fuel (le_trans (le_max_right _ _) enough)

/-- A computation has one result. -/
theorem Returns.unique {run : Nat → Except Error Result} {first second : Result}
    (firstReturns : Returns run first) (secondReturns : Returns run second) : first = second := by
  obtain ⟨firstBound, firstEnds⟩ := firstReturns
  obtain ⟨secondBound, secondEnds⟩ := secondReturns
  have both := firstEnds (max firstBound secondBound) (le_max_left _ _)
  rw [secondEnds _ (le_max_right _ _)] at both
  exact (Except.ok.inj both).symm

/-! ### Enough rounds -/

/-- Where a round more changes nothing as soon as there are as many rounds as the size of the input,
all numbers of rounds from there on agree. -/
theorem eq_of_enough {Input : Type} (run : Nat → Input → Value) (size : Input → Nat)
    (one : ∀ rounds input, size input ≤ rounds → run (rounds + 1) input = run rounds input)
    {rounds : Nat} {input : Input} (enough : size input ≤ rounds) :
    run rounds input = run (size input) input := by
  induction rounds, enough using Nat.le_induction with
  | base => rfl
  | succ rounds enough inductionHypothesis => rw [one rounds input enough, inductionHypothesis]

end Fuel
