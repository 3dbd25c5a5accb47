/-
This file models the segmentation of a range by the hidden Markov model, which
the segmenter uses for runs of single runes.

Runes below 0x80 are cut by rules for letters and for numbers, and what stands
between them by the most probable sequence of states. A word ends at a state of
odd number. The last state is one of these, so the words tile the range whatever
the model is.
-/

import SearchEngine.Segmenter.MPSegment

namespace SearchEngine.Cppjieba

open Arithmetic Segments

/-- The states: a rune begins a word, ends one, stands in the middle of one, or is one. -/
inductive Status where
  | B | E | M | S
  deriving DecidableEq, Repr

/-- The numbers of the states. -/
def Status.toNat : Status → Nat
  | .B => 0
  | .E => 1
  | .M => 2
  | .S => 3

/-- The states in the order of the loops. -/
def statuses : List Status := [.B, .E, .M, .S]

theorem mem_statuses (status : Status) : status ∈ statuses := by
  cases status <;> decide

/-- `HMMModel` -/
structure HMMModel (Number : Type) where
  startProb : Status → Number
  transProb : Status → Status → Number
  emitProb : Status → Rune → Option Number

namespace HMMSegment

/-- The weight of a state at a rune, and the state before it; the first rune has none. -/
structure Cell (Number : Type) where
  weight : Number
  path : Option Status

/-- The cells of a rune. -/
structure Column (Number : Type) where
  b : Cell Number
  e : Cell Number
  m : Cell Number
  s : Cell Number

section Definitions

variable {Number : Type}

/-- The cell of a state. -/
def Column.cell (column : Column Number) : Status → Cell Number
  | .B => column.b
  | .E => column.e
  | .M => column.m
  | .S => column.s

/-- The column with the given cells. -/
def Column.of (cells : Status → Cell Number) : Column Number :=
  ⟨cells .B, cells .E, cells .M, cells .S⟩

@[simp] theorem Column.cell_of (cells : Status → Cell Number) (y : Status) :
    (Column.of cells).cell y = cells y := by
  cases y <;> rfl

section Viterbi

variable [LogArithmetic Number] (model : HMMModel Number)

/-- `GetEmitProb` with `MIN_DOUBLE` as the default. -/
def getEmitProb (y : Status) (rune : RuneStr) : Number :=
  (model.emitProb y rune.rune).getD (minDouble Number)

/-- The first column. -/
def firstColumn (rune : RuneStr) : Column Number :=
  Column.of fun y => ⟨model.startProb y + getEmitProb model y rune, none⟩

/-- `tmp` for a state `y` behind the state `preY`. -/
def extend (column : Column Number) (rune : RuneStr) (y preY : Status) : Number :=
  (column.cell preY).weight + model.transProb preY y + getEmitProb model y rune

/-- The best state in front of a state: the floor is `MIN_DOUBLE` with the state `E`. -/
def bestBefore (column : Column Number) (rune : RuneStr) (y : Status) : Number × Status :=
  FirstBest.pick less (minDouble Number, .E)
    (statuses.map fun preY => (extend model column rune y preY, preY))

/-- A round of the loop over `x`. -/
def nextColumn (column : Column Number) (rune : RuneStr) : Column Number :=
  Column.of fun y =>
    let best := bestBefore model column rune y
    ⟨best.1, some best.2⟩

/-- The columns of runes behind the given ones, the last one first. -/
def columns : Column Number → List (Column Number) → List RuneStr →
    Column Number × List (Column Number)
  | column, earlier, [] => (column, earlier)
  | column, earlier, rune :: rest =>
    columns (nextColumn model column rune) (column :: earlier) rest

/-- The loop that reads the states back from the last one. -/
def traceBack : Status → List (Column Number) → List Status
  | _, [] => []
  | stat, column :: earlier =>
    match (column.cell stat).path with
    | none => [stat]
    | some before => traceBack before earlier ++ [stat]

/-- The last state. -/
def lastStatus (column : Column Number) : Status :=
  if LogArithmetic.atLeast column.e.weight column.s.weight then .E else .S

/-- `Viterbi` -/
def viterbi : List RuneStr → List Status
  | [] => []
  | rune :: rest =>
    let (column, earlier) := columns model (firstColumn model rune) [] rest
    traceBack (lastStatus column) (column :: earlier)

end Viterbi

/-- The loop of `InternalCut` from rune `i` on; the current word starts at `left`. -/
def internalCutLoop (left i : Nat) : List Status → List WordRange
  | [] => []
  | stat :: status =>
    if stat.toNat % 2 = 1 then ⟨left, i⟩ :: internalCutLoop (i + 1) (i + 1) status
    else internalCutLoop left (i + 1) status

/-- `InternalCut` -/
def internalCut [LogArithmetic Number] (model : HMMModel Number) (begin : Nat)
    (runes : List RuneStr) : List WordRange :=
  internalCutLoop begin begin (viterbi model runes)

/-- `'a' <= x && x <= 'z' || 'A' <= x && x <= 'Z'` -/
def isLetter (x : Rune) : Bool := (97 ≤ x && x ≤ 122) || (65 ≤ x && x ≤ 90)

/-- `'0' <= x && x <= '9'` -/
def isDigit (x : Rune) : Bool := 48 ≤ x && x ≤ 57

/-- `SequentialLetterRule`: the number of runes it passes. -/
def sequentialLetterRule : List RuneStr → Nat
  | [] => 0
  | rune :: rest =>
    if isLetter rune.rune then
      1 + (rest.takeWhile fun other => isLetter other.rune || isDigit other.rune).length
    else 0

/-- `NumbersRule`: the number of runes it passes. -/
def numbersRule : List RuneStr → Nat
  | [] => 0
  | rune :: rest =>
    if isDigit rune.rune then
      1 + (rest.takeWhile fun other => isDigit other.rune || other.rune == 46).length
    else 0

/-- The `do` block: the first rule that passes a rune, or one rune. -/
def rulesLength (runes : List RuneStr) : Nat :=
  if sequentialLetterRule runes ≠ 0 then sequentialLetterRule runes
  else if numbersRule runes ≠ 0 then numbersRule runes
  else 1

/-- The loop of `HMMSegment::Cut`: the runes from `left` to `right`, and the runes from `right`
on. -/
def cutLoop [LogArithmetic Number] (model : HMMModel Number) :
    Nat → Nat → List RuneStr → List RuneStr → List WordRange
  | _, left, passed, [] => if passed ≠ [] then internalCut model left passed else []
  | 0, _, _, _ :: _ => []
  | rounds + 1, left, passed, rune :: rest =>
    if rune.rune < 0x80 then
      let cutBefore := if passed ≠ [] then internalCut model left passed else []
      let right := left + passed.length
      let count := rulesLength (rune :: rest)
      cutBefore ++ ⟨right, right + count - 1⟩ ::
        cutLoop model rounds (right + count) [] ((rune :: rest).drop count)
    else cutLoop model rounds left (passed ++ [rune]) rest

/-- `HMMSegment::Cut` of the range from `begin` to `stop`. -/
def cut [LogArithmetic Number] (model : HMMModel Number) (sentence : List RuneStr)
    (begin stop : Nat) : List WordRange :=
  let runes := between sentence begin stop
  cutLoop model runes.length begin [] runes

end Definitions

/-! ### The states of a range -/

section Viterbi

variable {Number : Type} [LogArithmetic Number] {model : HMMModel Number}

/-- There is a state in front of every state, except for the first column. -/
def Linked : List (Column Number) → Prop
  | [] => True
  | [column] => ∀ y, (column.cell y).path = none
  | column :: earlier => (∀ y, ∃ before, (column.cell y).path = some before) ∧ Linked earlier

theorem linked_columns {column : Column Number} {earlier : List (Column Number)}
    (linked : Linked (column :: earlier)) (runes : List RuneStr) :
    Linked ((columns model column earlier runes).1 :: (columns model column earlier runes).2) ∧
      (columns model column earlier runes).2.length = earlier.length + runes.length := by
  induction runes generalizing column earlier with
  | nil => exact ⟨linked, rfl⟩
  | cons rune rest inductionHypothesis =>
    have next : Linked (nextColumn model column rune :: column :: earlier) := by
      refine ⟨fun y => ⟨(bestBefore model column rune y).2, ?_⟩, linked⟩
      rw [nextColumn, Column.cell_of]
    obtain ⟨behind, count⟩ := inductionHypothesis next
    refine ⟨behind, ?_⟩
    rw [columns, count, List.length_cons, List.length_cons]
    omega

omit [LogArithmetic Number] in
/-- Reading back ends in the state it starts at. -/
theorem traceBack_ends (column : Column Number) (earlier : List (Column Number)) (stat : Status) :
    ∃ front, traceBack stat (column :: earlier) = front ++ [stat] := by
  rw [traceBack]
  cases (column.cell stat).path with
  | none => exact ⟨[], rfl⟩
  | some before => exact ⟨traceBack before earlier, rfl⟩

omit [LogArithmetic Number] in
/-- Reading back there is one state for each column. -/
theorem length_traceBack {column : Column Number} {earlier : List (Column Number)}
    (linked : Linked (column :: earlier)) (stat : Status) :
    (traceBack stat (column :: earlier)).length = earlier.length + 1 := by
  induction earlier generalizing column stat with
  | nil =>
    have first : (column.cell stat).path = none := linked stat
    rw [traceBack, first]
    rfl
  | cons before earlier inductionHypothesis =>
    obtain ⟨known, rest⟩ := linked
    obtain ⟨state, path⟩ := known stat
    rw [traceBack, path]
    rw [List.length_append, inductionHypothesis rest state]
    rfl

theorem lastStatus_odd (column : Column Number) : (lastStatus column).toNat % 2 = 1 := by
  rw [lastStatus]
  split_ifs <;> rfl

theorem linked_firstColumn (model : HMMModel Number) (rune : RuneStr) :
    Linked [firstColumn model rune] := by
  intro y
  rw [firstColumn, Column.cell_of]

/-- There is one state for each rune, and the last one ends a word. -/
theorem viterbi_spec (model : HMMModel Number) {runes : List RuneStr} (nonempty : runes ≠ []) :
    (viterbi model runes).length = runes.length ∧
      ∃ front stat, viterbi model runes = front ++ [stat] ∧ stat.toNat % 2 = 1 := by
  obtain ⟨rune, rest, rfl⟩ := List.exists_cons_of_ne_nil nonempty
  obtain ⟨linked, count⟩ := linked_columns (linked_firstColumn model rune) rest
  obtain ⟨front, ends⟩ := traceBack_ends (columns model (firstColumn model rune) [] rest).1
    (columns model (firstColumn model rune) [] rest).2
    (lastStatus (columns model (firstColumn model rune) [] rest).1)
  refine ⟨?_, front, _, ends, lastStatus_odd _⟩
  rw [List.length_nil, Nat.zero_add] at count
  rw [List.length_cons, ← count]
  exact length_traceBack linked _

end Viterbi

/-! ### The words of a range -/

theorem internalCutLoop_tiles {left i : Nat} (ordered : left ≤ i) (front : List Status)
    {stat : Status} (odd : stat.toNat % 2 = 1) :
    Tiles left (i + front.length + 1)
      ((internalCutLoop left i (front ++ [stat])).map WordRange.span) := by
  induction front generalizing left i with
  | nil =>
    rw [List.nil_append, internalCutLoop, if_pos odd]
    exact tiles_singleton.mpr ⟨rfl, Nat.lt_succ_of_le ordered, rfl⟩
  | cons first front inductionHypothesis =>
    rw [List.cons_append, internalCutLoop, List.length_cons,
      show i + (front.length + 1) + 1 = i + 1 + front.length + 1 by omega]
    split_ifs with ends
    · rw [List.map_cons]
      exact tiles_cons.mpr ⟨rfl, Nat.lt_succ_of_le ordered, inductionHypothesis le_rfl⟩
    · exact inductionHypothesis (by omega)

section Cut

variable {Number : Type} [LogArithmetic Number] {model : HMMModel Number}

theorem internalCut_tiles (begin : Nat) {runes : List RuneStr} (nonempty : runes ≠ []) :
    Tiles begin (begin + runes.length) ((internalCut model begin runes).map WordRange.span) := by
  obtain ⟨length, front, stat, ends, odd⟩ := viterbi_spec model nonempty
  rw [ends, List.length_append, List.length_singleton] at length
  rw [internalCut, ends, ← length, ← Nat.add_assoc]
  exact internalCutLoop_tiles le_rfl front odd

/-- What has been passed is cut, if there is anything. -/
theorem passed_tiles (model : HMMModel Number) (left : Nat) (passed : List RuneStr) :
    Tiles left (left + passed.length)
      ((if passed ≠ [] then internalCut model left passed else []).map WordRange.span) := by
  by_cases empty : passed = []
  · rw [empty]
    exact tiles_nil.mpr rfl
  · rw [if_pos empty]
    exact internalCut_tiles left empty

theorem rulesLength_bounds (rune : RuneStr) (rest : List RuneStr) :
    1 ≤ rulesLength (rune :: rest) ∧ rulesLength (rune :: rest) ≤ (rune :: rest).length := by
  have letters : sequentialLetterRule (rune :: rest) ≤ (rune :: rest).length := by
    have taken := (List.takeWhile_sublist (l := rest)
      fun other => isLetter other.rune || isDigit other.rune).length_le
    rw [sequentialLetterRule, List.length_cons]
    split_ifs <;> omega
  have numbers : numbersRule (rune :: rest) ≤ (rune :: rest).length := by
    have taken := (List.takeWhile_sublist (l := rest)
      fun other => isDigit other.rune || other.rune == 46).length_le
    rw [numbersRule, List.length_cons]
    split_ifs <;> omega
  rw [rulesLength, List.length_cons] at *
  split_ifs <;> omega

theorem cutLoop_tiles (model : HMMModel Number) (left : Nat) (passed : List RuneStr) {rounds : Nat}
    {runes : List RuneStr} (enough : runes.length ≤ rounds) :
    Tiles left (left + passed.length + runes.length)
      ((cutLoop model rounds left passed runes).map WordRange.span) := by
  induction rounds generalizing left passed runes with
  | zero =>
    obtain rfl : runes = [] := List.length_eq_zero_iff.mp (by omega)
    exact passed_tiles model left passed
  | succ rounds inductionHypothesis =>
    cases runes with
    | nil => exact passed_tiles model left passed
    | cons rune rest =>
      rw [cutLoop]
      by_cases small : rune.rune < 0x80
      · rw [if_pos small]
        obtain ⟨positive, inside⟩ := rulesLength_bounds rune rest
        have left_eq : ((rune :: rest).drop (rulesLength (rune :: rest))).length +
            rulesLength (rune :: rest) = (rune :: rest).length := by
          rw [List.length_drop, Nat.sub_add_cancel inside]
        have behind := @inductionHypothesis (left + passed.length + rulesLength (rune :: rest)) []
          ((rune :: rest).drop (rulesLength (rune :: rest))) (by omega)
        rw [List.length_nil, Nat.add_zero] at behind
        dsimp only
        rw [List.map_append, List.map_cons, MPSegment.span_of_count positive]
        refine (passed_tiles model left passed).append
          (tiles_cons.mpr ⟨rfl, Nat.lt_add_of_pos_right positive, ?_⟩)
        rw [show left + passed.length + (rune :: rest).length =
          left + passed.length + rulesLength (rune :: rest) +
            ((rune :: rest).drop (rulesLength (rune :: rest))).length by omega]
        exact behind
      · rw [if_neg small]
        have behind := inductionHypothesis left (passed ++ [rune]) (Nat.le_of_succ_le_succ enough)
        rw [List.length_append, List.length_singleton] at behind
        rw [List.length_cons, show left + passed.length + (rest.length + 1) =
          left + (passed.length + 1) + rest.length by omega]
        exact behind

/-- The words of a range tile it. -/
theorem cut_tiles (model : HMMModel Number) {sentence : List RuneStr} {begin stop : Nat}
    (ordered : begin ≤ stop) (inside : stop ≤ sentence.length) :
    Tiles begin stop ((cut model sentence begin stop).map WordRange.span) := by
  have tiles := cutLoop_tiles model begin [] (le_refl (between sentence begin stop).length)
  rw [List.length_nil, Nat.add_zero, length_between inside, Nat.add_sub_cancel' ordered] at tiles
  rw [cut, length_between inside]
  exact tiles

end Cut

end HMMSegment

end SearchEngine.Cppjieba
