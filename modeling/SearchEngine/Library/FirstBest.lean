/-
This file develops the loop that keeps the first best of a list of candidates.

The loop starts with a score and a choice of its own, the floor, and takes over a
candidate only where its score is greater than the score it has. Over a linear
order it ends with the greatest score among the floor and the candidates, and
unless no candidate is above the floor it ends with a candidate.
-/

import Mathlib

namespace FirstBest

variable {Score Choice : Type}

/-- One round of the loop: a greater candidate is taken over. -/
def improve (less : Score → Score → Bool) (best candidate : Score × Choice) : Score × Choice :=
  if less best.1 candidate.1 then candidate else best

/-- The loop. -/
def pick (less : Score → Score → Bool) (floor : Score × Choice)
    (candidates : List (Score × Choice)) : Score × Choice :=
  candidates.foldl (improve less) floor

@[simp] theorem pick_nil (less : Score → Score → Bool) (floor : Score × Choice) :
    pick less floor [] = floor := rfl

theorem pick_cons (less : Score → Score → Bool) (floor candidate : Score × Choice)
    (candidates : List (Score × Choice)) :
    pick less floor (candidate :: candidates) =
      pick less (improve less floor candidate) candidates := rfl

/-- The loop makes nothing up. -/
theorem pick_mem (less : Score → Score → Bool) (floor : Score × Choice)
    (candidates : List (Score × Choice)) :
    pick less floor candidates ∈ floor :: candidates := by
  induction candidates generalizing floor with
  | nil => exact List.mem_singleton_self _
  | cons candidate candidates inductionHypothesis =>
    have picked := inductionHypothesis (improve less floor candidate)
    rw [pick_cons]
    rcases List.mem_cons.mp picked with same | later
    · rw [same, improve]
      split_ifs
      · exact List.mem_cons_of_mem _ List.mem_cons_self
      · exact List.mem_cons_self
    · exact List.mem_cons_of_mem _ (List.mem_cons_of_mem _ later)

/-- A result above the floor is a candidate. -/
theorem pick_mem_of_lt [Preorder Score] {less : Score → Score → Bool}
    (floor : Score × Choice) {candidates : List (Score × Choice)}
    (above : floor.1 < (pick less floor candidates).1) :
    pick less floor candidates ∈ candidates := by
  rcases List.mem_cons.mp (pick_mem less floor candidates) with same | member
  · rw [same] at above
    exact absurd above (lt_irrefl _)
  · exact member

section LinearOrder

variable [LinearOrder Score] {less : Score → Score → Bool}
  (exact : ∀ first second, less first second = true ↔ first < second)
include exact

theorem le_improve (best candidate : Score × Choice) :
    best.1 ≤ (improve less best candidate).1 ∧ candidate.1 ≤ (improve less best candidate).1 := by
  rw [improve]
  by_cases greater : best.1 < candidate.1
  · rw [if_pos ((exact _ _).mpr greater)]
    exact ⟨greater.le, le_rfl⟩
  · rw [if_neg (mt (exact _ _).mp greater)]
    exact ⟨le_rfl, le_of_not_gt greater⟩

/-- The loop never falls below its floor. -/
theorem floor_le_pick (floor : Score × Choice) (candidates : List (Score × Choice)) :
    floor.1 ≤ (pick less floor candidates).1 := by
  induction candidates generalizing floor with
  | nil => exact le_rfl
  | cons candidate candidates inductionHypothesis =>
    exact (le_improve exact floor candidate).1.trans (inductionHypothesis _)

/-- No candidate is greater than the result. -/
theorem le_pick {candidate : Score × Choice} {candidates : List (Score × Choice)}
    (member : candidate ∈ candidates) (floor : Score × Choice) :
    candidate.1 ≤ (pick less floor candidates).1 := by
  induction candidates generalizing floor with
  | nil => cases member
  | cons other candidates inductionHypothesis =>
    rw [pick_cons]
    rcases List.mem_cons.mp member with rfl | later
    · exact (le_improve exact floor candidate).2.trans (floor_le_pick exact _ candidates)
    · exact inductionHypothesis later _

end LinearOrder

end FirstBest
