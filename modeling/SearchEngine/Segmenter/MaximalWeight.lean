/-
This file proves that the segmentation by the dictionary is one of greatest
weight.

A segmentation cuts a range into single runes and dictionary words, and weighs as
much as its words together, where an unknown rune has the least weight of the
dictionary. The places compute the greatest weight of a segmentation of what is
behind them. With exact sums the walk over the choices attains it, as long as the
weights of the single runes do not add up to less than the constant the
computation starts from.
-/

import SearchEngine.Segmenter.MPSegment

namespace SearchEngine.Cppjieba.MPSegment

open Arithmetic Segments

section Words

variable {Number : Type}

/-- The words the runes can be cut into. -/
structure Cuts (dictTrie : DictTrie Number) (maxWordLen : Nat) (runes : List RuneStr)
    (words : List (List RuneStr)) : Prop where
  flatten_eq : words.flatten = runes
  admissible : ∀ word ∈ words, dictTrie.Admissible maxWordLen word

/-- The single runes are a segmentation. -/
theorem cuts_singles (dictTrie : DictTrie Number) (maxWordLen : Nat) (runes : List RuneStr) :
    Cuts dictTrie maxWordLen runes (runes.map fun rune => [rune]) where
  flatten_eq := List.flatMap_singleton' runes
  admissible := by
    intro word member
    obtain ⟨rune, -, rfl⟩ := List.mem_map.mp member
    exact .inl rfl

/-- The runes of ranges. -/
def wordsOf (sentence : List RuneStr) (ranges : List WordRange) : List (List RuneStr) :=
  ranges.map fun range => between sentence range.left (range.right + 1)

variable [Arithmetic Number]

/-- The weight of a word: a word that is not in the dictionary has its least weight. -/
def wordWeight (dictTrie : DictTrie Number) (word : List RuneStr) : Number :=
  match dictTrie.unitOf word with
  | some p => p.weight
  | none => dictTrie.minWeight

/-- The weight of a list of words. -/
def weightOf (dictTrie : DictTrie Number) (words : List (List RuneStr)) : Number :=
  total (words.map (wordWeight dictTrie))

end Words

variable {Number : Type} [Arithmetic Number] {dictTrie : DictTrie Number} {maxWordLen i : Nat}

theorem weightOf_cons (word : List RuneStr) (words : List (List RuneStr)) :
    weightOf dictTrie (word :: words) = wordWeight dictTrie word + weightOf dictTrie words := rfl

/-! ### The weight of a place -/

/-- The weight of the first of the places. -/
def bestWeight (dictTrie : DictTrie Number) (maxWordLen i : Nat) (runes : List RuneStr) : Number :=
  match solve dictTrie maxWordLen i runes with
  | [] => ofInt 0
  | dag :: _ => dag.weight

@[simp] theorem bestWeight_nil : bestWeight dictTrie maxWordLen i [] = ofInt 0 := rfl

section Exact

variable [LinearOrder Number] (exact : ExactSums Number)
include exact

/-- The value of a word is its weight and the weight of the place behind it. -/
theorem calcVal_eq {rune : RuneStr} {rest : List RuneStr} {count : Nat} (positive : 1 ≤ count) :
    calcVal dictTrie.minWeight i (solve dictTrie maxWordLen (i + 1) rest)
        (i + count - 1, dictTrie.unitOf ((rune :: rest).take count)) =
      bestWeight dictTrie maxWordLen (i + count) ((rune :: rest).drop count) +
        wordWeight dictTrie ((rune :: rest).take count) := by
  obtain ⟨fewer, rfl⟩ : ∃ fewer, count = fewer + 1 := ⟨count - 1, by omega⟩
  have behind : (solve dictTrie maxWordLen (i + 1) rest)[fewer]? =
      (solve dictTrie maxWordLen (i + (fewer + 1)) ((rune :: rest).drop (fewer + 1))).head? := by
    rw [List.drop_succ_cons, Nat.add_comm fewer, ← Nat.add_assoc, ← drop_solve, List.head?_drop]
  rw [calcVal, wordWeight, bestWeight, show i + (fewer + 1) - 1 - i = fewer by omega, behind]
  cases solve dictTrie maxWordLen (i + (fewer + 1)) ((rune :: rest).drop (fewer + 1)) with
  | nil => cases dictTrie.unitOf ((rune :: rest).take (fewer + 1)) <;> rfl
  | cons dag dags =>
    rw [List.head?_cons]
    dsimp only
    rw [exact.zero_add]
    cases dictTrie.unitOf ((rune :: rest).take (fewer + 1)) <;> rfl

/-- No admissible word in front is better than the weight of its place. -/
theorem le_bestWeight (i : Nat) {rune : RuneStr} {rest : List RuneStr} {count : Nat}
    (positive : 1 ≤ count) (inside : count ≤ (rune :: rest).length)
    (admissible : dictTrie.Admissible maxWordLen ((rune :: rest).take count)) :
    bestWeight dictTrie maxWordLen (i + count) ((rune :: rest).drop count) +
        wordWeight dictTrie ((rune :: rest).take count) ≤
      bestWeight dictTrie maxWordLen i (rune :: rest) := by
  have candidate := List.mem_map_of_mem (f := fun next =>
      (calcVal dictTrie.minWeight i (solve dictTrie maxWordLen (i + 1) rest) next, next.2))
    (mem_nexts_iff (i := i) |>.mpr ⟨count, positive, inside, admissible, rfl⟩)
  rw [← calcVal_eq exact positive]
  exact FirstBest.le_pick exact.less_iff candidate _

/-- No segmentation weighs more than the weight of the first place. -/
theorem weightOf_le_bestWeight {runes : List RuneStr} {words : List (List RuneStr)}
    (cuts : Cuts dictTrie maxWordLen runes words) :
    weightOf dictTrie words ≤ bestWeight dictTrie maxWordLen i runes := by
  induction words generalizing i runes with
  | nil =>
    obtain rfl : [] = runes := cuts.flatten_eq
    exact le_rfl
  | cons word words inductionHypothesis =>
    have admissible := cuts.admissible word List.mem_cons_self
    have positive := List.length_pos_iff.mpr admissible.ne_nil
    have whole : runes = word ++ words.flatten := cuts.flatten_eq.symm
    obtain ⟨rune, rest, split⟩ := List.exists_cons_of_ne_nil
      (show runes ≠ [] by rw [whole]; exact List.append_ne_nil_of_left_ne_nil admissible.ne_nil _)
    have front : (rune :: rest).take word.length = word := by rw [← split, whole, List.take_left]
    have back : (rune :: rest).drop word.length = words.flatten := by
      rw [← split, whole, List.drop_left]
    have inside : word.length ≤ (rune :: rest).length := by
      rw [← split, whole, List.length_append]
      exact Nat.le_add_right _ _
    have later : weightOf dictTrie words ≤
        bestWeight dictTrie maxWordLen (i + word.length) words.flatten :=
      inductionHypothesis ⟨rfl, fun other member =>
        cuts.admissible other (List.mem_cons_of_mem _ member)⟩
    have step := le_bestWeight exact i positive inside
      (show dictTrie.Admissible maxWordLen _ by rw [front]; exact admissible)
    rw [front, back] at step
    rw [weightOf_cons, split, exact.add_comm]
    exact (exact.add_le_add _ _ _ later).trans step

/-! ### The walk -/

/-- The weight of a place with a segmentation above the floor is the value of its choice. -/
theorem bestWeight_cons {rune : RuneStr} {rest : List RuneStr} {words : List (List RuneStr)}
    (cuts : Cuts dictTrie maxWordLen (rune :: rest) words)
    (above : minDouble Number < weightOf dictTrie words) (rounds place : Nat) :
    ∃ count, 1 ≤ count ∧ count ≤ (rune :: rest).length ∧
      dictTrie.Admissible maxWordLen ((rune :: rest).take count) ∧
      cutByDag (rounds + 1) place (solve dictTrie maxWordLen i (rune :: rest)) =
        ⟨place, place + count - 1⟩ ::
          cutByDag rounds (place + count)
            (solve dictTrie maxWordLen (i + count) ((rune :: rest).drop count)) ∧
      bestWeight dictTrie maxWordLen i (rune :: rest) =
        wordWeight dictTrie ((rune :: rest).take count) +
          bestWeight dictTrie maxWordLen (i + count) ((rune :: rest).drop count) := by
  have floor : minDouble Number < bestWeight dictTrie maxWordLen i (rune :: rest) :=
    above.trans_le (weightOf_le_bestWeight exact cuts)
  have picked := FirstBest.pick_mem_of_lt (minDouble Number, none) floor
  obtain ⟨next, listed, same⟩ := List.mem_map.mp picked
  obtain ⟨count, positive, inside, admissible, rfl⟩ := mem_nexts_iff.mp listed
  obtain ⟨weight, info⟩ := Prod.mk.inj same
  have info : dictTrie.unitOf ((rune :: rest).take count) =
      choice dictTrie maxWordLen i rune rest := info
  have weight : bestWeight dictTrie maxWordLen i (rune :: rest) =
      calcVal dictTrie.minWeight i (solve dictTrie maxWordLen (i + 1) rest)
        (i + count - 1, dictTrie.unitOf ((rune :: rest).take count)) := weight.symm
  have length := List.length_take_of_le inside
  refine ⟨count, positive, inside, admissible, cutByDag_solve rounds place ?_, ?_⟩
  · cases known : dictTrie.unitOf ((rune :: rest).take count) with
    | none =>
      rw [DictTrie.Admissible, known, length] at admissible
      rcases admissible with single | ⟨-, -, none⟩
      · exact .inl ⟨info.symm.trans known, single⟩
      · cases none
    | some p =>
      refine .inr ⟨p, info.symm.trans known, ?_⟩
      rw [DictTrie.word_of_unitOf known, List.length_map, length]
  · rw [weight, calcVal_eq exact positive, exact.add_comm]

/-- The weights of the single runes behind any place are together above the floor. -/
def AboveFloor (dictTrie : DictTrie Number) (runes : List RuneStr) : Prop :=
  ∀ suffix, suffix <:+ runes → suffix ≠ [] →
    minDouble Number < weightOf dictTrie (suffix.map fun rune => [rune])

omit [LinearOrder Number] exact in
theorem wordsOf_cons (sentence : List RuneStr) (range : WordRange) (ranges : List WordRange) :
    wordsOf sentence (range :: ranges) =
      between sentence range.left (range.right + 1) :: wordsOf sentence ranges := rfl

/-- The words of the walk are a segmentation, and weigh as much as the first place says. -/
theorem cutByDag_attains (maxWordLen i : Nat) {sentence runes : List RuneStr}
    (above : AboveFloor dictTrie runes) {rounds place : Nat} (enough : runes.length ≤ rounds)
    (stands : between sentence place (place + runes.length) = runes) :
    Cuts dictTrie maxWordLen runes
        (wordsOf sentence (cutByDag rounds place (solve dictTrie maxWordLen i runes))) ∧
      weightOf dictTrie
          (wordsOf sentence (cutByDag rounds place (solve dictTrie maxWordLen i runes))) =
        bestWeight dictTrie maxWordLen i runes := by
  induction rounds generalizing i place runes with
  | zero =>
    obtain rfl : runes = [] := List.length_eq_zero_iff.mp (by omega)
    exact ⟨⟨rfl, fun _ member => absurd member List.not_mem_nil⟩, rfl⟩
  | succ rounds inductionHypothesis =>
    cases runes with
    | nil => exact ⟨⟨rfl, fun _ member => absurd member List.not_mem_nil⟩, rfl⟩
    | cons rune rest =>
      obtain ⟨count, positive, inside, admissible, walked, weight⟩ :=
        bestWeight_cons (i := i) exact (cuts_singles dictTrie maxWordLen (rune :: rest))
          (above _ List.suffix_rfl (List.cons_ne_nil _ _)) rounds place
      have left : ((rune :: rest).drop count).length + count = (rune :: rest).length := by
        rw [List.length_drop, Nat.sub_add_cancel inside]
      have front : between sentence place (place + count) = (rune :: rest).take count := by
        rw [← take_between sentence (place + (rune :: rest).length) (by omega), stands]
      have back : between sentence (place + count)
          (place + count + ((rune :: rest).drop count).length) = (rune :: rest).drop count := by
        rw [Nat.add_assoc, Nat.add_comm count, left, ← drop_between, stands]
      obtain ⟨cuts, attained⟩ := inductionHypothesis (i := i + count)
        (fun suffix behind => above suffix (behind.trans (List.drop_suffix _ _)))
        (by omega) back
      have first : wordsOf sentence (cutByDag (rounds + 1) place
          (solve dictTrie maxWordLen i (rune :: rest))) =
          (rune :: rest).take count :: wordsOf sentence (cutByDag rounds (place + count)
            (solve dictTrie maxWordLen (i + count) ((rune :: rest).drop count))) := by
        rw [walked, wordsOf_cons, Nat.sub_add_cancel (by omega), front]
      rw [first]
      refine ⟨⟨?_, ?_⟩, ?_⟩
      · rw [List.flatten_cons, cuts.flatten_eq, List.take_append_drop]
      · intro word member
        rcases List.mem_cons.mp member with rfl | later
        · exact admissible
        · exact cuts.admissible word later
      · rw [weightOf_cons, attained, weight]

/-- With exact sums the words of a range are a segmentation of greatest weight. -/
theorem cut_maximal {sentence : List RuneStr} {begin stop : Nat} (ordered : begin ≤ stop)
    (inside : stop ≤ sentence.length)
    (above : AboveFloor dictTrie (between sentence begin stop)) :
    Cuts dictTrie maxWordLen (between sentence begin stop)
        (wordsOf sentence (cut dictTrie maxWordLen sentence begin stop)) ∧
      ∀ words, Cuts dictTrie maxWordLen (between sentence begin stop) words →
        weightOf dictTrie words ≤
          weightOf dictTrie (wordsOf sentence (cut dictTrie maxWordLen sentence begin stop)) := by
  have length : (between sentence begin stop).length = stop - begin := length_between inside
  have stands : between sentence begin (begin + (between sentence begin stop).length) =
      between sentence begin stop := by
    rw [length, Nat.add_sub_cancel' ordered]
  obtain ⟨cuts, attained⟩ := cutByDag_attains exact maxWordLen 0 above (le_refl _) stands
  rw [cut, length_solve]
  refine ⟨cuts, fun words others => ?_⟩
  rw [attained]
  exact weightOf_le_bestWeight exact others

end Exact

/-- A dictionary with a word of the runes 1 and 2. -/
def sampleDict : DictTrie Int := .ofUnits [⟨[1, 2], -3, []⟩] (-5) []

/-- The runes 1, 2 and 3. -/
def sampleSentence : List RuneStr := place 0 0 [(1, [1]), (2, [2]), (3, [3])]

theorem cut_maximal_sample :
    letI := integers
    Cuts sampleDict maxWordLength (between sampleSentence 0 3)
        (wordsOf sampleSentence (cut sampleDict maxWordLength sampleSentence 0 3)) ∧
      ∀ words, Cuts sampleDict maxWordLength (between sampleSentence 0 3) words →
        weightOf sampleDict words ≤
          weightOf sampleDict
            (wordsOf sampleSentence (cut sampleDict maxWordLength sampleSentence 0 3)) := by
  let := integers
  refine cut_maximal exactLogarithms_integers.toExactSums (by decide) (by decide) ?_
  intro suffix isSuffix
  revert suffix
  simp only [← List.mem_tails]
  decide +kernel

end SearchEngine.Cppjieba.MPSegment
