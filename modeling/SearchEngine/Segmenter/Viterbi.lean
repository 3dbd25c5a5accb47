/-
This file proves that `HMMSegment::Viterbi` finds a sequence of states of greatest
weight.

The weight of a sequence is the sum of the logarithms of its probabilities. A cell
bounds the weights of all sequences that end in its state, and reading back from a
cell above the floor gives a sequence of the weight of the cell: logarithms of
probabilities are not positive, so what is in front of a cell above the floor is
above the floor as well. The last state has to end a word, so among the sequences
that do, the one that is found has greatest weight.
-/

import SearchEngine.Segmenter.HMMSegment

namespace SearchEngine.Cppjieba.HMMSegment

open Arithmetic

variable {Number : Type} [LogArithmetic Number] (model : HMMModel Number)

/-! ### Weights of sequences -/

/-- The weight of runes with their states, the last one first. -/
def weightTo : List (RuneStr × Status) → Number
  | [] => ofInt 0
  | [(rune, y)] => model.startProb y + getEmitProb model y rune
  | (rune, y) :: (before, preY) :: earlier =>
    weightTo ((before, preY) :: earlier) + model.transProb preY y + getEmitProb model y rune

/-- The weight of a sequence of states for runes. -/
def sequenceWeight (runes : List RuneStr) (status : List Status) : Number :=
  weightTo model (runes.zip status).reverse

/-- A sequence of states that can be cut into words: one state for each rune, and the last one ends
a word. -/
structure Complete (runes : List RuneStr) (status : List Status) : Prop where
  length_eq : status.length = runes.length
  ends : ∃ front stat, status = front ++ [stat] ∧ stat.toNat % 2 = 1

/-- Logarithms of probabilities. -/
structure Nonpositive [LinearOrder Number] : Prop where
  trans : ∀ preY y, model.transProb preY y ≤ ofInt 0
  emit : ∀ y rune, getEmitProb model y rune ≤ ofInt 0

/-! ### The columns of runes -/

/-- The columns of runes, the last one first. -/
inductive Built : List RuneStr → Column Number → List (Column Number) → Prop where
  | first (rune : RuneStr) : Built [rune] (firstColumn model rune) []
  | next {runes : List RuneStr} {column : Column Number} {earlier : List (Column Number)}
      (built : Built runes column earlier) (rune : RuneStr) :
      Built (rune :: runes) (nextColumn model column rune) (column :: earlier)

variable {model}

theorem Built.exists_cons {runes : List RuneStr} {column : Column Number}
    {earlier : List (Column Number)} (built : Built model runes column earlier) :
    ∃ rune rest, runes = rune :: rest := by
  cases built with
  | first rune => exact ⟨rune, [], rfl⟩
  | next built rune => exact ⟨rune, _, rfl⟩

theorem Built.columns {runes : List RuneStr} {column : Column Number}
    {earlier : List (Column Number)} (built : Built model runes column earlier)
    (rest : List RuneStr) :
    Built model (rest.reverse ++ runes) (columns model column earlier rest).1
      (HMMSegment.columns model column earlier rest).2 := by
  induction rest generalizing runes column earlier with
  | nil => exact built
  | cons rune rest inductionHypothesis =>
    rw [List.reverse_cons, List.append_assoc]
    exact inductionHypothesis (built.next rune)

/-- The weight of a cell behind another column is the one of the best state in front of it. -/
theorem cell_nextColumn (column : Column Number) (rune : RuneStr) (y : Status) :
    (nextColumn model column rune).cell y =
      ⟨(bestBefore model column rune y).1, some (bestBefore model column rune y).2⟩ := by
  rw [nextColumn, Column.cell_of]

section Exact

variable [LinearOrder Number] (exact : ExactLogarithms Number)
include exact

/-- A cell bounds the weights of the sequences that end in its state. -/
theorem Built.weightTo_le {runes : List RuneStr} {column : Column Number}
    {earlier : List (Column Number)} (built : Built model runes column earlier) {y : Status}
    {status : List Status} (length : (y :: status).length = runes.length) :
    weightTo model (runes.zip (y :: status)) ≤ (column.cell y).weight := by
  induction built generalizing y status with
  | first rune =>
    obtain rfl : status = [] := List.length_eq_zero_iff.mp (by simpa using length)
    rw [firstColumn, Column.cell_of]
    exact le_rfl
  | @next runes column earlier built rune inductionHypothesis =>
    have count : status.length = runes.length := Nat.succ.inj length
    obtain ⟨before, others, split⟩ := built.exists_cons
    rw [split, List.length_cons] at count
    obtain ⟨preY, states, rfl⟩ := List.exists_cons_of_length_eq_add_one count
    have bound := @inductionHypothesis preY states
      (by rw [split, List.length_cons]; exact count)
    have candidate := List.mem_map_of_mem (f := fun preY =>
      (extend model column rune y preY, preY)) (mem_statuses preY)
    have best := FirstBest.le_pick exact.less_iff candidate (minDouble Number, .E)
    rw [split] at bound ⊢
    rw [cell_nextColumn]
    refine le_trans ?_ best
    exact exact.add_le_add _ _ _ (exact.add_le_add _ _ _ bound)

/-- A sum with a number that is not positive does not grow. -/
theorem add_le_of_nonpos {first second : Number} (nonpos : second ≤ ofInt 0) :
    first + second ≤ first := by
  calc first + second = second + first := exact.add_comm _ _
    _ ≤ ofInt 0 + first := exact.add_le_add _ _ _ nonpos
    _ = first := exact.zero_add _

/-- Reading back from a cell above the floor gives a sequence of its weight. -/
theorem Built.weightTo_eq (nonpositive : Nonpositive model) {runes : List RuneStr}
    {column : Column Number} {earlier : List (Column Number)}
    (built : Built model runes column earlier) {y : Status}
    (above : minDouble Number < (column.cell y).weight) :
    weightTo model (runes.zip (traceBack y (column :: earlier)).reverse) =
      (column.cell y).weight := by
  induction built generalizing y with
  | first rune =>
    rw [firstColumn, Column.cell_of, traceBack, Column.cell_of]
    rfl
  | @next runes column earlier built rune inductionHypothesis =>
    rw [cell_nextColumn] at above ⊢
    have picked : bestBefore model column rune y ∈
        statuses.map fun preY => (extend model column rune y preY, preY) :=
      FirstBest.pick_mem_of_lt _ above
    obtain ⟨preY, -, same⟩ := List.mem_map.mp picked
    obtain ⟨weight, state⟩ := Prod.mk.inj same
    have weight : (bestBefore model column rune y).1 =
        (column.cell preY).weight + model.transProb preY y + getEmitProb model y rune :=
      weight.symm
    have state : (bestBefore model column rune y).2 = preY := state.symm
    have smaller : (bestBefore model column rune y).1 ≤ (column.cell preY).weight := by
      rw [weight]
      exact (add_le_of_nonpos exact (nonpositive.emit y rune)).trans
        (add_le_of_nonpos exact (nonpositive.trans preY y))
    have reached := inductionHypothesis (above.trans_le smaller)
    obtain ⟨front, ends⟩ := traceBack_ends column earlier preY
    obtain ⟨before, others, split⟩ := built.exists_cons
    have read : (traceBack y (nextColumn model column rune :: column :: earlier)).reverse =
        y :: preY :: front.reverse := by
      rw [traceBack, cell_nextColumn]
      dsimp only
      rw [state, ends, List.reverse_append, List.reverse_append]
      rfl
    rw [ends, List.reverse_append, split] at reached
    rw [read, weight, ← reached, split]
    rfl

/-- No cell that ends a word is better than the one of the last state. -/
theorem le_lastStatus (column : Column Number) {stat : Status} (odd : stat.toNat % 2 = 1) :
    (column.cell stat).weight ≤ (column.cell (lastStatus column)).weight := by
  rw [lastStatus]
  by_cases greater : column.s.weight ≤ column.e.weight
  · rw [if_pos ((exact.atLeast_iff _ _).mpr greater)]
    cases stat with
    | E => exact le_rfl
    | S => exact greater
    | B | M => cases odd
  · rw [if_neg (mt (exact.atLeast_iff _ _).mp greater)]
    cases stat with
    | E => exact (lt_of_not_ge greater).le
    | S => exact le_rfl
    | B | M => cases odd

/-- With exact sums and logarithms of probabilities: as soon as one sequence that ends a word is
above the floor, the sequence that is found has greatest weight among those that end a word. -/
theorem viterbi_maximal (nonpositive : Nonpositive model) {runes : List RuneStr}
    {status : List Status} (complete : Complete runes status)
    (above : minDouble Number < sequenceWeight model runes status) :
    Complete runes (viterbi model runes) ∧
      ∀ others, Complete runes others →
        sequenceWeight model runes others ≤ sequenceWeight model runes (viterbi model runes) := by
  have nonempty : runes ≠ [] := by
    obtain ⟨front, stat, rfl, -⟩ := complete.ends
    rintro rfl
    simpa using complete.length_eq
  obtain ⟨length, ends⟩ := viterbi_spec model nonempty
  obtain ⟨rune, rest, rfl⟩ := List.exists_cons_of_ne_nil nonempty
  have first : Built model [rune] (firstColumn model rune) [] := .first rune
  have built := first.columns rest
  rw [← List.reverse_cons] at built
  have bounded : ∀ others, Complete (rune :: rest) others →
      sequenceWeight model (rune :: rest) others ≤
        ((columns model (firstColumn model rune) [] rest).1.cell
          (lastStatus (columns model (firstColumn model rune) [] rest).1)).weight := by
    intro others completes
    obtain ⟨front, stat, split, odd⟩ := completes.ends
    have count := completes.length_eq
    have reversed : ((rune :: rest).zip others).reverse =
        (rune :: rest).reverse.zip (stat :: front.reverse) := by
      rw [List.zip, List.reverse_zipWith count.symm, split, List.reverse_append, List.reverse_singleton]
      rfl
    rw [sequenceWeight, reversed]
    refine (built.weightTo_le exact ?_).trans (le_lastStatus exact _ odd)
    rw [split, List.length_append] at count
    rw [List.length_reverse, ← count, List.length_cons, List.length_reverse,
      List.length_singleton]
  have attained := built.weightTo_eq exact nonpositive (above.trans_le (bounded status complete))
  have found : sequenceWeight model (rune :: rest) (viterbi model (rune :: rest)) =
      ((columns model (firstColumn model rune) [] rest).1.cell
        (lastStatus (columns model (firstColumn model rune) [] rest).1)).weight := by
    rw [sequenceWeight, List.zip, List.reverse_zipWith length.symm]
    exact attained
  refine ⟨⟨length, ends⟩, fun others completes => ?_⟩
  rw [found]
  exact bounded others completes

end Exact

/-- A model in which all states are alike. -/
def sampleModel : HMMModel Int := ⟨fun _ => 0, fun _ _ => -1, fun _ _ => some (-1)⟩

/-- The runes 1 and 2. -/
def sampleRunes : List RuneStr := place 0 0 [(1, [1]), (2, [2])]

theorem viterbi_maximal_sample :
    letI := integers
    Complete sampleRunes (viterbi sampleModel sampleRunes) ∧
      ∀ others, Complete sampleRunes others →
        sequenceWeight sampleModel sampleRunes others ≤
          sequenceWeight sampleModel sampleRunes (viterbi sampleModel sampleRunes) := by
  let := integers
  have negative : (-1 : Int) ≤ 0 := by decide
  have nonpositive : Nonpositive sampleModel := ⟨fun _ _ => negative, fun _ _ => negative⟩
  exact viterbi_maximal exactLogarithms_integers nonpositive
    (⟨rfl, [.B], .E, rfl, rfl⟩ : Complete sampleRunes [.B, .E]) (by decide +kernel)

end SearchEngine.Cppjieba.HMMSegment
