/-
This file develops words in which some elements say how wide a part is.

A word is cut from its start: its first element, the lead, says how many elements
its part has, and the next part begins behind them. The last part may be cut
short by the end of the word. A walk over the leads alone adds their widths up,
so it stops behind the end of the word exactly when the last part is cut short.
A loop that looks for the first stop behind a bound finds the first part that
reaches over it.
-/

import SearchEngine.Library.Fuel

namespace Widths

variable {Element : Type} (width : Element → Nat)

/-! ### Parts -/

/-- The parts of a word, each as its lead and what is behind it, for a number of parts. -/
def partsLoop : Nat → List Element → List (Element × List Element)
  | 0, _ => []
  | _ + 1, [] => []
  | rounds + 1, first :: rest =>
    (first, rest.take (width first - 1)) :: partsLoop rounds (rest.drop (width first - 1))

/-- The parts of a word, each as its lead and what is behind it. -/
def parts (word : List Element) : List (Element × List Element) := partsLoop width word.length word

/-- The leads of a word. -/
def leads (word : List Element) : List Element := (parts width word).map Prod.fst

/-- The parts of a word as words. -/
def chunks (word : List Element) : List (List Element) :=
  (parts width word).map fun part => part.1 :: part.2

/-- Where a walk over the leads ends. -/
def extent (word : List Element) : Nat := ((leads width word).map width).sum

/-- No part is cut short. -/
def Exact (word : List Element) : Prop := extent width word = word.length

instance (word : List Element) : Decidable (Exact width word) :=
  inferInstanceAs (Decidable (_ = _))

/-- Induction over the parts of a word. -/
@[elab_as_elim]
theorem induction {motive : List Element → Prop} (nil : motive [])
    (cons : ∀ first rest, motive (rest.drop (width first - 1)) → motive (first :: rest))
    (word : List Element) : motive word := by
  induction length : word.length using Nat.strongRecOn generalizing word with
  | ind size inductionHypothesis =>
    cases word with
    | nil => exact nil
    | cons first rest =>
      refine cons first rest (inductionHypothesis _ ?_ _ rfl)
      rw [← length, List.length_drop, List.length_cons]
      omega

theorem parts_cons (first : Element) (rest : List Element) :
    parts width (first :: rest) =
      (first, rest.take (width first - 1)) :: parts width (rest.drop (width first - 1)) := by
  have one (rounds : Nat) (word : List Element) (enough : word.length ≤ rounds) :
      partsLoop width (rounds + 1) word = partsLoop width rounds word := by
    induction rounds generalizing word with
    | zero =>
      rw [List.length_eq_zero_iff.mp (Nat.le_zero.mp enough)]
      rfl
    | succ rounds inductionHypothesis =>
      cases word with
      | nil => rfl
      | cons first rest =>
        rw [partsLoop, inductionHypothesis, partsLoop]
        rw [List.length_drop]
        rw [List.length_cons] at enough
        omega
  have fewer : (rest.drop (width first - 1)).length ≤ rest.length := by
    rw [List.length_drop]
    exact Nat.sub_le _ _
  rw [parts, List.length_cons, partsLoop, parts,
    Fuel.eq_of_enough (partsLoop width) List.length one fewer]

theorem leads_cons (first : Element) (rest : List Element) :
    leads width (first :: rest) = first :: leads width (rest.drop (width first - 1)) := by
  rw [leads, parts_cons, List.map_cons]
  rfl

@[simp] theorem chunks_nil : chunks width [] = [] := rfl

theorem chunks_cons (first : Element) (rest : List Element) :
    chunks width (first :: rest) =
      (first :: rest.take (width first - 1)) :: chunks width (rest.drop (width first - 1)) := by
  rw [chunks, parts_cons, List.map_cons]
  rfl

theorem extent_cons (first : Element) (rest : List Element) :
    extent width (first :: rest) = width first + extent width (rest.drop (width first - 1)) := by
  rw [extent, leads_cons, List.map_cons, List.sum_cons, extent]

/-- Every part begins inside the word. -/
theorem sum_lt_of_leads {word before after : List Element} {lead : Element}
    (split : leads width word = before ++ lead :: after) :
    (before.map width).sum < word.length := by
  induction word using induction width generalizing before with
  | nil => exact absurd split (List.append_ne_nil_of_right_ne_nil _ (List.cons_ne_nil _ _)).symm
  | cons first rest inductionHypothesis =>
    rw [leads_cons] at split
    rw [List.length_cons]
    cases before with
    | nil => exact Nat.succ_pos _
    | cons head before =>
      obtain ⟨rfl, later⟩ := List.cons.inj split
      have begins := inductionHypothesis later
      rw [List.length_drop] at begins
      rw [List.map_cons, List.sum_cons]
      omega

/-- A part in front of a word, as long as its lead says. -/
theorem chunks_append {first : Element} {behind : List Element}
    (whole : width first = behind.length + 1) (rest : List Element) :
    chunks width (first :: behind ++ rest) = (first :: behind) :: chunks width rest := by
  rw [List.cons_append, chunks_cons, whole, Nat.add_sub_cancel, List.take_left, List.drop_left]

theorem length_chunks_le (word : List Element) : (chunks width word).length ≤ word.length := by
  induction word using induction width with
  | nil => exact le_refl _
  | cons first rest inductionHypothesis =>
    rw [List.length_drop] at inductionHypothesis
    rw [chunks_cons, List.length_cons, List.length_cons]
    omega

/-! ### Parts that are not empty -/

section Positive

variable {width} (positive : ∀ element, 0 < width element)

include positive

theorem length_le_extent (word : List Element) : word.length ≤ extent width word := by
  induction word using induction width with
  | nil => exact Nat.zero_le _
  | cons first rest inductionHypothesis =>
    have size := positive first
    rw [List.length_drop] at inductionHypothesis
    rw [extent_cons, List.length_cons]
    omega

theorem exact_cons {first : Element} {rest : List Element} :
    Exact width (first :: rest) ↔
      width first ≤ rest.length + 1 ∧ Exact width (rest.drop (width first - 1)) := by
  have size := positive first
  have longer := length_le_extent positive (rest.drop (width first - 1))
  rw [List.length_drop] at longer
  rw [Exact, Exact, extent_cons, List.length_cons, List.length_drop]
  omega

end Positive

/-! ### Stops behind a bound -/

/-- The first stop behind a bound of a walk over leads, from a position on. -/
def firstStop (bound : Nat) : Nat → List Element → Option Nat
  | _, [] => none
  | start, lead :: later =>
    if bound < start + width lead then some (start + width lead)
    else firstStop bound (start + width lead) later

/-- The first stop behind a bound ends the part that reaches over the bound. -/
theorem firstStop_eq_some {bound start stop : Nat} {word : List Element} (below : start ≤ bound)
    (found : firstStop width bound start word = some stop) :
    ∃ before lead after, word = before ++ lead :: after ∧
      start + (before.map width).sum ≤ bound ∧ bound < stop ∧
      stop = start + (before.map width).sum + width lead := by
  induction word generalizing start with
  | nil => cases found
  | cons lead later inductionHypothesis =>
    rw [firstStop] at found
    split_ifs at found with reaches
    · obtain rfl := Option.some.inj found
      exact ⟨[], lead, later, rfl, below, reaches, rfl⟩
    · obtain ⟨before, last, after, rfl, short, long, sum⟩ :=
        inductionHypothesis (not_lt.mp reaches) found
      refine ⟨lead :: before, last, after, rfl, ?_, long, ?_⟩
      · rw [List.map_cons, List.sum_cons, ← Nat.add_assoc]
        exact short
      · rw [List.map_cons, List.sum_cons, ← Nat.add_assoc]
        exact sum

theorem firstStop_eq_none {bound start : Nat} {word : List Element} (below : start ≤ bound) :
    firstStop width bound start word = none ↔ start + (word.map width).sum ≤ bound := by
  induction word generalizing start with
  | nil => exact iff_of_true rfl below
  | cons lead later inductionHypothesis =>
    rw [firstStop, List.map_cons, List.sum_cons, ← Nat.add_assoc]
    split_ifs with reaches
    · exact iff_of_false not_false (by omega)
    · exact inductionHypothesis (not_lt.mp reaches)

/-- A larger bound is passed later. -/
theorem firstStop_mono {low high start : Nat} (ordered : low ≤ high) {word : List Element}
    {stop : Nat} (found : firstStop width high start word = some stop) :
    ∃ first, firstStop width low start word = some first ∧ first ≤ stop := by
  induction word generalizing start with
  | nil => cases found
  | cons lead later inductionHypothesis =>
    rw [firstStop] at found ⊢
    split_ifs at found with reaches
    · obtain rfl := Option.some.inj found
      exact ⟨_, if_pos (by omega), le_rfl⟩
    · obtain ⟨first, earlier, before⟩ := inductionHypothesis found
      split_ifs with reachesLow
      · have further : start + width lead ≤ stop := by
          rw [not_lt] at reaches
          obtain ⟨_, _, _, _, _, long, _⟩ := firstStop_eq_some width reaches found
          omega
        exact ⟨_, rfl, further⟩
      · exact ⟨first, earlier, before⟩

end Widths
