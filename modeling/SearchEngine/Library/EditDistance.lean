/-
This file develops the recurrence of the edit distance.

The distance is defined on reversed lists, so that its recurrence takes the last
letters off two prefixes, which is the order in which a table of prefixes is
filled. It is zero exactly between equal lists.

An edit inserts, deletes or substitutes one letter. The recurrence takes equal
letters off without a choice, which loses nothing: a letter more in one of the
lists changes the distance by at most one. So an edit changes the distance by at
most one too, and the distance is the least number of edits.
-/

import Mathlib

namespace EditDistance

variable {Letter : Type}

/-! ### Edits -/

/-- One letter is inserted, deleted or substituted. -/
inductive Edit : List Letter → List Letter → Prop
  | insertion (before after : List Letter) (letter : Letter) :
      Edit (before ++ after) (before ++ letter :: after)
  | deletion (before after : List Letter) (letter : Letter) :
      Edit (before ++ letter :: after) (before ++ after)
  | substitution (before after : List Letter) (letter other : Letter) :
      Edit (before ++ letter :: after) (before ++ other :: after)

/-- As many edits as the number says turn the first list into the second. -/
inductive EditedIn : Nat → List Letter → List Letter → Prop
  | refl (letters : List Letter) : EditedIn 0 letters letters
  | edit {count : Nat} {first next last : List Letter} :
      Edit first next → EditedIn count next last → EditedIn (count + 1) first last

theorem Edit.cons {first second : List Letter} (edit : Edit first second) (letter : Letter) :
    Edit (letter :: first) (letter :: second) := by
  cases edit with
  | insertion before after inserted => exact Edit.insertion (letter :: before) after inserted
  | deletion before after deleted => exact Edit.deletion (letter :: before) after deleted
  | substitution before after old new => exact Edit.substitution (letter :: before) after old new

theorem Edit.reverse {first second : List Letter} (edit : Edit first second) :
    Edit first.reverse second.reverse := by
  cases edit with
  | insertion before after letter =>
    simpa using Edit.insertion after.reverse before.reverse letter
  | deletion before after letter =>
    simpa using Edit.deletion after.reverse before.reverse letter
  | substitution before after letter other =>
    simpa using Edit.substitution after.reverse before.reverse letter other

theorem EditedIn.cons {count : Nat} {first second : List Letter}
    (edited : EditedIn count first second) (letter : Letter) :
    EditedIn count (letter :: first) (letter :: second) := by
  induction edited with
  | refl letters => exact EditedIn.refl _
  | edit edit _ inductionHypothesis => exact EditedIn.edit (edit.cons letter) inductionHypothesis

theorem EditedIn.reverse {count : Nat} {first second : List Letter}
    (edited : EditedIn count first second) : EditedIn count first.reverse second.reverse := by
  induction edited with
  | refl letters => exact EditedIn.refl _
  | edit edit _ inductionHypothesis => exact EditedIn.edit edit.reverse inductionHypothesis

theorem EditedIn.trans {count : Nat} {first next last : List Letter}
    (edited : EditedIn count first next) (edit : EditedIn 1 next last) :
    EditedIn (count + 1) first last := by
  induction edited with
  | refl letters => exact edit
  | edit earlier _ inductionHypothesis => exact EditedIn.edit earlier (inductionHypothesis edit)

/-- All letters are inserted. -/
theorem EditedIn.insertions (letters : List Letter) : EditedIn letters.length [] letters := by
  induction letters with
  | nil => exact EditedIn.refl _
  | cons letter letters inductionHypothesis =>
    exact EditedIn.edit (Edit.insertion [] [] letter) (inductionHypothesis.cons letter)

/-- All letters are deleted. -/
theorem EditedIn.deletions (letters : List Letter) : EditedIn letters.length letters [] := by
  induction letters with
  | nil => exact EditedIn.refl _
  | cons letter letters inductionHypothesis =>
    exact EditedIn.edit (Edit.deletion [] letters letter) inductionHypothesis

/-! ### The recurrence -/

variable [DecidableEq Letter]

/-- The edit distance of two reversed lists. -/
def reversed : List Letter → List Letter → Nat
  | [], second => second.length
  | first, [] => first.length
  | letter :: first, other :: second =>
    if letter = other then reversed first second
    else min (reversed (letter :: first) second)
      (min (reversed first (other :: second)) (reversed first second)) + 1

/-- The edit distance of two lists. -/
def distance (first second : List Letter) : Nat := reversed first.reverse second.reverse

theorem reversed_nil_left (second : List Letter) : reversed [] second = second.length := by
  rw [reversed]

theorem reversed_nil_right (first : List Letter) : reversed first [] = first.length := by
  cases first <;> simp [reversed]

theorem distance_nil_left (second : List Letter) : distance [] second = second.length := by
  rw [distance, List.reverse_nil, reversed_nil_left, List.length_reverse]

theorem distance_nil_right (first : List Letter) : distance first [] = first.length := by
  rw [distance, List.reverse_nil, reversed_nil_right, List.length_reverse]

/-- The recurrence on the last letters. -/
theorem distance_append_singleton (first second : List Letter) (letter other : Letter) :
    distance (first ++ [letter]) (second ++ [other]) =
      if letter = other then distance first second
      else min (distance (first ++ [letter]) second)
        (min (distance first (second ++ [other])) (distance first second)) + 1 := by
  simp only [distance, List.reverse_append, List.reverse_singleton, List.singleton_append]
  rw [reversed]

theorem reversed_eq_zero_iff (first second : List Letter) :
    reversed first second = 0 ↔ first = second := by
  induction first generalizing second with
  | nil => rw [reversed_nil_left, List.length_eq_zero_iff, eq_comm]
  | cons letter first inductionHypothesis =>
    cases second with
    | nil => simp [reversed_nil_right]
    | cons other second =>
      rw [reversed]
      by_cases same : letter = other
      · rw [if_pos same, inductionHypothesis, List.cons.injEq, and_iff_right same]
      · rw [if_neg same, List.cons.injEq, iff_false_right fun both => same both.1]
        exact Nat.succ_ne_zero _

/-- The distance is zero exactly between equal lists. -/
theorem distance_eq_zero_iff (first second : List Letter) :
    distance first second = 0 ↔ first = second := by
  rw [distance, reversed_eq_zero_iff, List.reverse_inj]

/-! ### A letter more -/

theorem reversed_comm (first second : List Letter) :
    reversed first second = reversed second first := by
  fun_induction reversed first second with
  | case1 second => rw [reversed_nil_right]
  | case2 first => rw [reversed_nil_left]
  | case3 letter first second inductionHypothesis =>
    rw [reversed, if_pos rfl, inductionHypothesis]
  | case4 letter first other second different left right both =>
    rw [reversed, if_neg (Ne.symm different), left, right, both, ← min_assoc, ← min_assoc,
      min_comm (reversed second _)]

theorem reversed_cons_cons (letter other : Letter) (first second : List Letter) :
    reversed (letter :: first) (other :: second) =
      if letter = other then reversed first second
      else min (reversed (letter :: first) second)
        (min (reversed first (other :: second)) (reversed first second)) + 1 := by
  rw [reversed]

/-- A letter taken off one list brings the lists no further apart than one edit. -/
theorem reversed_le_cons (letter : Letter) (first second : List Letter) :
    reversed first second ≤ reversed (letter :: first) second + 1 := by
  induction second generalizing letter first with
  | nil =>
    rw [reversed_nil_right, reversed_nil_right, List.length_cons]
    omega
  | cons other second inductionHypothesis =>
    -- the letter `other` in front of the second list costs one edit at most
    have further (front : List Letter) :
        reversed front (other :: second) ≤ reversed front second + 1 := by
      cases front with
      | nil => rw [reversed_nil_left, reversed_nil_left, List.length_cons]
      | cons head front =>
        rw [reversed_cons_cons]
        split_ifs
        · exact inductionHypothesis head front
        · exact Nat.add_le_add_right (min_le_left _ _) 1
    have here := further first
    have shorter := inductionHypothesis letter first
    rw [reversed_cons_cons]
    split_ifs
    · exact here
    · omega

/-- A letter put in front of one list brings the lists no further apart than one edit. -/
theorem reversed_cons_le (letter : Letter) (first second : List Letter) :
    reversed (letter :: first) second ≤ reversed first second + 1 := by
  cases second with
  | nil => rw [reversed_nil_right, reversed_nil_right, List.length_cons]
  | cons other second =>
    rw [reversed_cons_cons]
    split_ifs
    · rw [reversed_comm first, reversed_comm first]
      exact reversed_le_cons other second first
    · omega

/-- Other letters in front bring the lists no further apart than one edit. -/
theorem reversed_cons_le_cons (letter other : Letter) (first second : List Letter) :
    reversed (letter :: first) second ≤ reversed (other :: first) second + 1 := by
  induction second with
  | nil =>
    rw [reversed_nil_right, reversed_nil_right, List.length_cons, List.length_cons]
    omega
  | cons third second inductionHypothesis =>
    have longer := reversed_cons_le third second first
    have shorter := reversed_le_cons third second first
    have dropped := reversed_le_cons other first second
    rw [reversed_comm _ first, reversed_comm _ first] at longer shorter
    rw [reversed_cons_cons, reversed_cons_cons]
    split_ifs <;> omega

/-! ### The least number of edits -/

/-- The recurrence counts edits. -/
theorem editedIn_reversed (first second : List Letter) :
    EditedIn (reversed first second) first second := by
  fun_induction reversed first second with
  | case1 second => exact EditedIn.insertions second
  | case2 first => exact EditedIn.deletions first
  | case3 first letter second inductionHypothesis => exact inductionHypothesis.cons letter
  | case4 letter first other second different left right both =>
    rcases min_choice (reversed (letter :: first) second)
      (min (reversed first (other :: second)) (reversed first second)) with least | least
    · rw [least]
      exact left.trans (EditedIn.edit (Edit.insertion [] second other) (EditedIn.refl _))
    · rw [least]
      rcases min_choice (reversed first (other :: second)) (reversed first second) with
        least | least
      · rw [least]
        exact EditedIn.edit (Edit.deletion [] first letter) right
      · rw [least]
        exact EditedIn.edit (Edit.substitution [] first letter other) (both.cons other)

/-- Lists that are no further apart than one edit stay so behind the same letters. -/
theorem reversed_append_le {first next : List Letter}
    (near : ∀ last, reversed first last ≤ reversed next last + 1) (before last : List Letter) :
    reversed (before ++ first) last ≤ reversed (before ++ next) last + 1 := by
  induction before generalizing last with
  | nil => exact near last
  | cons letter before shared =>
    rw [List.cons_append, List.cons_append]
    induction last with
    | nil =>
      have lengths := shared []
      rw [reversed_nil_right, reversed_nil_right] at lengths ⊢
      simpa using lengths
    | cons other last inductionHypothesis =>
      have both := shared last
      have second := shared (other :: last)
      rw [reversed_cons_cons, reversed_cons_cons]
      split_ifs
      · exact both
      · omega

/-- An edit changes the distance to a list by at most one. -/
theorem Edit.reversed_le {first next : List Letter} (edit : Edit first next)
    (last : List Letter) : reversed first last ≤ reversed next last + 1 := by
  cases edit with
  | insertion before after letter => exact reversed_append_le (reversed_le_cons letter after) _ _
  | deletion before after letter => exact reversed_append_le (reversed_cons_le letter after) _ _
  | substitution before after letter other =>
    exact reversed_append_le (reversed_cons_le_cons letter other after) _ _

theorem EditedIn.reversed_le {count : Nat} {first second : List Letter}
    (edited : EditedIn count first second) : reversed first second ≤ count := by
  induction edited with
  | refl letters => rw [(reversed_eq_zero_iff letters letters).mpr rfl]
  | edit edit _ inductionHypothesis => exact (edit.reversed_le _).trans (by omega)

/-- The distance is the least number of edits that turn the first list into the second. -/
theorem distance_isLeast (first second : List Letter) :
    IsLeast {count | EditedIn count first second} (distance first second) := by
  constructor
  · have edited := (editedIn_reversed first.reverse second.reverse).reverse
    rwa [List.reverse_reverse, List.reverse_reverse] at edited
  · intro count edited
    exact edited.reverse.reversed_le

end EditDistance
