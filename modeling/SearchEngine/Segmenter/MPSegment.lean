/-
This file models the segmentation of a range by the dictionary: the weights of
the places, computed from the last place to the first, and the walk over the
choices.

A choice that is a word is a word of the dictionary that the sentence goes on
with, so the walk never leaves the range, and its words tile the range whatever
the weights are.
-/

import SearchEngine.Library.FirstBest
import SearchEngine.Segmenter.DictTrie

namespace SearchEngine.Cppjieba

open Arithmetic Segments

/-- `MIN_DOUBLE` -/
def minDouble (Number : Type) [Arithmetic Number] : Number := ofInt (-(314 * 10 ^ 98))

namespace MPSegment

section Definitions

variable {Number : Type} [Arithmetic Number]

/-- `val` for one entry of `nexts` of place `i`, with the places behind `i`. -/
def calcVal (minWeight : Number) (i : Nat) (dags : List (Dag Number))
    (next : Nat × Option (DictUnit Number)) : Number :=
  let val :=
    match dags[next.1 - i]? with
    | some dag => ofInt 0 + dag.weight
    | none => ofInt 0
  match next.2 with
  | some p => val + p.weight
  | none => val + minWeight

/-- A round of `CalcDP`. -/
def calcDag (minWeight : Number) (i : Nat) (dag : Dag Number) (dags : List (Dag Number)) :
    Dag Number :=
  let best := FirstBest.pick less (minDouble Number, none)
    (dag.nexts.map fun next => (calcVal minWeight i dags next, next.2))
  { dag with pInfo := best.2, weight := best.1 }

/-- `CalcDP` on the places from `i` on. -/
def calcDP (minWeight : Number) : Nat → List (Dag Number) → List (Dag Number)
  | _, [] => []
  | i, dag :: dags =>
    let solved := calcDP minWeight (i + 1) dags
    calcDag minWeight i dag solved :: solved

/-- The loop of `CutByDag`, with the places that are left and the rune they start at. -/
def cutByDag : Nat → Nat → List (Dag Number) → List WordRange
  | _, _, [] => []
  | 0, _, _ :: _ => []
  | rounds + 1, i, dag :: dags =>
    match dag.pInfo with
    | some p =>
      ⟨i, i + p.word.length - 1⟩ ::
        cutByDag rounds (i + p.word.length) ((dag :: dags).drop p.word.length)
    | none => ⟨i, i⟩ :: cutByDag rounds (i + 1) dags

/-- The places of a range with their choices. -/
def solve (dictTrie : DictTrie Number) (maxWordLen i : Nat) (runes : List RuneStr) :
    List (Dag Number) :=
  calcDP dictTrie.minWeight i (dictTrie.find (ofInt 0) maxWordLen i runes)

/-- `MPSegment::Cut` of the range from `begin` to `stop`. -/
def cut (dictTrie : DictTrie Number) (maxWordLen : Nat) (sentence : List RuneStr)
    (begin stop : Nat) : List WordRange :=
  let dags := solve dictTrie maxWordLen 0 (between sentence begin stop)
  cutByDag dags.length begin dags

end Definitions

variable {Number : Type} [Arithmetic Number] {dictTrie : DictTrie Number} {maxWordLen i : Nat}

@[simp] theorem solve_nil : solve dictTrie maxWordLen i [] = [] := rfl

theorem solve_cons (rune : RuneStr) (rest : List RuneStr) :
    solve dictTrie maxWordLen i (rune :: rest) =
      calcDag dictTrie.minWeight i
        (findDag (ofInt 0) dictTrie.root maxWordLen i rune rest)
        (solve dictTrie maxWordLen (i + 1) rest) :: solve dictTrie maxWordLen (i + 1) rest := rfl

@[simp] theorem length_solve (runes : List RuneStr) :
    (solve dictTrie maxWordLen i runes).length = runes.length := by
  induction runes generalizing i with
  | nil => rfl
  | cons rune rest inductionHypothesis =>
    rw [solve_cons, List.length_cons, inductionHypothesis, List.length_cons]

/-- What is behind a place does not depend on what is in front of it. -/
theorem drop_solve (runes : List RuneStr) (count : Nat) :
    (solve dictTrie maxWordLen i runes).drop count =
      solve dictTrie maxWordLen (i + count) (runes.drop count) := by
  induction count generalizing i runes with
  | zero => rfl
  | succ count inductionHypothesis =>
    cases runes with
    | nil => rfl
    | cons rune rest =>
      rw [solve_cons, List.drop_succ_cons, inductionHypothesis, List.drop_succ_cons,
        Nat.add_assoc, Nat.add_comm 1]

/-- The words of `nexts` are the admissible words that the runes start with. -/
theorem mem_nexts_iff {rune : RuneStr} {rest : List RuneStr}
    {next : Nat × Option (DictUnit Number)} :
    next ∈ (findDag (ofInt 0) dictTrie.root maxWordLen i rune rest).nexts ↔
      ∃ count, 1 ≤ count ∧ count ≤ (rune :: rest).length ∧
        dictTrie.Admissible maxWordLen ((rune :: rest).take count) ∧
        next = (i + count - 1, dictTrie.unitOf ((rune :: rest).take count)) := by
  rw [dictTrie.mem_nexts]
  constructor
  · rintro (rfl | ⟨count, unit, large, inside, fits, rfl, found⟩)
    · exact ⟨1, le_rfl, by rw [List.length_cons]; omega, .inl rfl, rfl⟩
    · have length := List.length_take_of_le inside
      refine ⟨count, by omega, inside, .inr ?_, by rw [found]⟩
      rw [length, found]
      exact ⟨large, fits, rfl⟩
  · rintro ⟨count, positive, inside, admissible, rfl⟩
    have length := List.length_take_of_le inside
    rw [DictTrie.Admissible, length] at admissible
    rcases admissible with rfl | ⟨large, fits, known⟩
    · exact .inl rfl
    · obtain ⟨unit, found⟩ := Option.isSome_iff_exists.mp known
      exact .inr ⟨count, unit, large, inside, fits, by rw [found], found⟩

/-- A choice is an admissible word of the dictionary that the runes start with. -/
theorem pInfo_calcDag {rune : RuneStr} {rest : List RuneStr} {dags : List (Dag Number)}
    {p : DictUnit Number}
    (chosen : (calcDag dictTrie.minWeight i
      (findDag (ofInt 0) dictTrie.root maxWordLen i rune rest) dags).pInfo = some p) :
    1 ≤ p.word.length ∧ p.word.length ≤ (rune :: rest).length ∧
      dictTrie.Admissible maxWordLen ((rune :: rest).take p.word.length) ∧
      dictTrie.unitOf ((rune :: rest).take p.word.length) = some p := by
  rw [calcDag] at chosen
  dsimp only at chosen
  rcases List.mem_cons.mp (FirstBest.pick_mem less (minDouble Number, none)
    ((findDag (ofInt 0) dictTrie.root maxWordLen i rune rest).nexts.map fun next =>
      (calcVal dictTrie.minWeight i dags next, next.2))) with floor | member
  · rw [floor] at chosen
    cases chosen
  · obtain ⟨next, listed, same⟩ := List.mem_map.mp member
    obtain ⟨count, positive, inside, admissible, rfl⟩ := mem_nexts_iff.mp listed
    rw [← same] at chosen
    dsimp only at chosen
    have length : p.word.length = count := by
      rw [DictTrie.word_of_unitOf chosen, List.length_map, List.length_take_of_le inside]
    rw [length]
    exact ⟨positive, inside, admissible, chosen⟩

/-- The choice of the first of the places. -/
def choice (dictTrie : DictTrie Number) (maxWordLen i : Nat) (rune : RuneStr)
    (rest : List RuneStr) : Option (DictUnit Number) :=
  (calcDag dictTrie.minWeight i (findDag (ofInt 0) dictTrie.root maxWordLen i rune rest)
    (solve dictTrie maxWordLen (i + 1) rest)).pInfo

/-- One round of the walk goes on behind the chosen word, or behind a single rune. -/
theorem cutByDag_solve (rounds place : Nat) {rune : RuneStr} {rest : List RuneStr} {count : Nat}
    (walks : choice dictTrie maxWordLen i rune rest = none ∧ count = 1 ∨
      ∃ p, choice dictTrie maxWordLen i rune rest = some p ∧ p.word.length = count) :
    cutByDag (rounds + 1) place (solve dictTrie maxWordLen i (rune :: rest)) =
      ⟨place, place + count - 1⟩ ::
        cutByDag rounds (place + count)
          (solve dictTrie maxWordLen (i + count) ((rune :: rest).drop count)) := by
  rw [solve_cons, cutByDag]
  rcases walks with ⟨single, rfl⟩ | ⟨p, chosen, rfl⟩
  · rw [choice] at single
    rw [single]
    rfl
  · rw [choice] at chosen
    rw [chosen]
    dsimp only
    rw [← solve_cons, drop_solve]

/-- One round of the walk: an admissible word, and then the walk over what is left. -/
theorem cutByDag_cons (dictTrie : DictTrie Number) (maxWordLen i rounds place : Nat)
    (rune : RuneStr) (rest : List RuneStr) :
    ∃ count, 1 ≤ count ∧ count ≤ (rune :: rest).length ∧
      dictTrie.Admissible maxWordLen ((rune :: rest).take count) ∧
      cutByDag (rounds + 1) place (solve dictTrie maxWordLen i (rune :: rest)) =
        ⟨place, place + count - 1⟩ ::
          cutByDag rounds (place + count)
            (solve dictTrie maxWordLen (i + count) ((rune :: rest).drop count)) := by
  cases chosen : choice dictTrie maxWordLen i rune rest with
  | none =>
    exact ⟨1, le_rfl, by rw [List.length_cons]; omega, .inl rfl,
      cutByDag_solve rounds place (.inl ⟨chosen, rfl⟩)⟩
  | some p =>
    obtain ⟨positive, inside, admissible, -⟩ := pInfo_calcDag chosen
    exact ⟨p.word.length, positive, inside, admissible,
      cutByDag_solve rounds place (.inr ⟨p, chosen, rfl⟩)⟩

theorem span_of_count {place count : Nat} (positive : 1 ≤ count) :
    WordRange.span ⟨place, place + count - 1⟩ = (place, place + count) := by
  rw [WordRange.span, Nat.sub_add_cancel (by omega)]

/-- The walk tiles what it walks over. -/
theorem cutByDag_tiles (dictTrie : DictTrie Number) (maxWordLen i : Nat) {rounds : Nat}
    {runes : List RuneStr} (enough : runes.length ≤ rounds) (place : Nat) :
    Tiles place (place + runes.length)
      ((cutByDag rounds place (solve dictTrie maxWordLen i runes)).map WordRange.span) := by
  induction rounds generalizing place i runes with
  | zero =>
    obtain rfl : runes = [] := List.length_eq_zero_iff.mp (by omega)
    exact tiles_nil.mpr rfl
  | succ rounds inductionHypothesis =>
    cases runes with
    | nil => exact tiles_nil.mpr rfl
    | cons rune rest =>
      obtain ⟨count, positive, inside, -, walked⟩ :=
        cutByDag_cons dictTrie maxWordLen i rounds place
          rune rest
      have left : ((rune :: rest).drop count).length + count = (rune :: rest).length := by
        rw [List.length_drop, Nat.sub_add_cancel inside]
      have behind := @inductionHypothesis (i + count) ((rune :: rest).drop count)
        (by omega) (place + count)
      rw [walked, List.map_cons, span_of_count positive]
      refine tiles_cons.mpr ⟨rfl, by omega, ?_⟩
      rw [show place + (rune :: rest).length =
        place + count + ((rune :: rest).drop count).length by omega]
      exact behind

/-- The words of a range tile it. -/
theorem cut_tiles (dictTrie : DictTrie Number) (maxWordLen : Nat) {sentence : List RuneStr}
    {begin stop : Nat} (ordered : begin ≤ stop) (inside : stop ≤ sentence.length) :
    Tiles begin stop ((cut dictTrie maxWordLen sentence begin stop).map WordRange.span) := by
  have tiles := cutByDag_tiles dictTrie maxWordLen 0
    (le_refl (between sentence begin stop).length) begin
  rw [length_between inside, Nat.add_sub_cancel' ordered] at tiles
  rw [cut, length_solve, length_between inside]
  exact tiles

end MPSegment

end SearchEngine.Cppjieba
