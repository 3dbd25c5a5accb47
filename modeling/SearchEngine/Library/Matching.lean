/-
This file develops the walk that takes words off a list.

The walk goes once through a list of known words and takes the front off the
other list whenever the two agree. What it takes off is the longest beginning
that is a sublist of the known words: copies of known words, in their order, each
at most once.
-/

import Mathlib

namespace Matching

variable {Word : Type*} [DecidableEq Word]

/-- What is left of a list after the walk through the known words. -/
def takeOff : List Word → List Word → List Word
  | [], words => words
  | _ :: _, [] => []
  | known :: others, word :: words =>
    if known = word then takeOff others words else takeOff others (word :: words)

/-- What is taken off is a sublist of the known words. -/
theorem exists_takeOff (known words : List Word) :
    ∃ copies, words = copies ++ takeOff known words ∧ copies.Sublist known := by
  fun_induction takeOff known words with
  | case1 words => exact ⟨[], rfl, List.Sublist.refl _⟩
  | case2 known others => exact ⟨[], rfl, List.nil_sublist _⟩
  | case3 others word words inductionHypothesis =>
    obtain ⟨copies, split, within⟩ := inductionHypothesis
    exact ⟨word :: copies, by rw [List.cons_append, ← split], within.cons_cons word⟩
  | case4 known others word words different inductionHypothesis =>
    obtain ⟨copies, split, within⟩ := inductionHypothesis
    exact ⟨copies, split, within.cons known⟩

theorem takeOff_suffix (known words : List Word) : takeOff known words <:+ words := by
  obtain ⟨copies, split, -⟩ := exists_takeOff known words
  exact ⟨copies, split.symm⟩

/-- Every beginning that is a sublist of the known words is taken off. -/
theorem takeOff_append {known copies : List Word} (within : copies.Sublist known)
    (words : List Word) : takeOff known (copies ++ words) <:+ words := by
  induction known generalizing copies words with
  | nil =>
    rw [List.sublist_nil.mp within]
    exact List.suffix_rfl
  | cons known others inductionHypothesis =>
    cases copies with
    | nil => exact takeOff_suffix _ words
    | cons word copies =>
      rw [List.cons_append, takeOff]
      split_ifs with same
      · rw [same] at within
        exact inductionHypothesis (List.cons_sublist_cons.mp within) words
      · have later : (word :: copies).Sublist others := by
          cases within with
          | cons _ later => exact later
          | cons_cons _ _ => exact absurd rfl same
        exact inductionHypothesis later words

/-- A list is taken off as a whole exactly when it is a sublist of the known words. -/
theorem takeOff_eq_nil_iff {known words : List Word} :
    takeOff known words = [] ↔ words.Sublist known := by
  constructor
  · intro nothing
    obtain ⟨copies, split, within⟩ := exists_takeOff known words
    rw [nothing, List.append_nil] at split
    rwa [split]
  · intro within
    have suffix := takeOff_append within []
    rw [List.append_nil] at suffix
    exact List.suffix_nil.mp suffix

/-- What is left begins with a word that could not be taken off behind the copies. -/
theorem takeOff_eq_cons_iff {known words rest : List Word} {word : Word} :
    takeOff known words = word :: rest ↔ ∃ copies, words = copies ++ word :: rest ∧
      copies.Sublist known ∧ ¬ (copies ++ [word]).Sublist known := by
  obtain ⟨taken, split, taken_within⟩ := exists_takeOff known words
  constructor
  · intro left
    rw [left] at split
    refine ⟨taken, split, taken_within, fun more => ?_⟩
    have shorter := (takeOff_append more rest).length_le
    rw [List.append_assoc, List.singleton_append, ← split, left, List.length_cons] at shorter
    omega
  · rintro ⟨copies, whole, within, maximal⟩
    have suffix := takeOff_append within (word :: rest)
    rw [← whole] at suffix
    refine (List.suffix_cons_iff.mp suffix).resolve_right ?_
    rintro ⟨more, behind⟩
    have longer : taken = copies ++ word :: more := by
      have whole : taken ++ takeOff known words = copies ++ word :: more ++ takeOff known words := by
        rw [← split, List.append_assoc, List.cons_append, behind, whole]
      exact List.append_cancel_right whole
    refine maximal (List.Sublist.trans ?_ (longer ▸ taken_within))
    exact (List.cons_sublist_cons.mpr (List.nil_sublist more)).append_left copies

end Matching
