/-
This file classifies the words of the segmenter.

A word is a word of the dictionary, a single rune, a stretch of runes from 0x80 on,
a run of ASCII letters and digits that starts with a letter, or a run of digits and
dots that starts with a digit. So a word of several runes that has a rune below
0x80 is known to the dictionary, unless all its runes are letters, digits and dots.
-/

import SearchEngine.Segmenter.MixSegment

namespace SearchEngine.Cppjieba

open Arithmetic Segments

/-- A run of a rule: a letter with letters and digits behind it, or a digit with digits and dots
behind it. -/
inductive RuleRun : List Rune → Prop where
  | letters {first : Rune} {rest : List Rune} (starts : HMMSegment.isLetter first = true)
      (goesOn : ∀ rune ∈ rest, HMMSegment.isLetter rune = true ∨ HMMSegment.isDigit rune = true) :
      RuleRun (first :: rest)
  | digits {first : Rune} {rest : List Rune} (starts : HMMSegment.isDigit first = true)
      (goesOn : ∀ rune ∈ rest, HMMSegment.isDigit rune = true ∨ rune = 46) :
      RuleRun (first :: rest)

/-- What the hidden Markov model and the rules make of runes. -/
inductive RuleWord (sentence : List RuneStr) (range : WordRange) : Prop where
  | single (alone : range.left = range.right)
  | high (large : ∀ index rune, range.left ≤ index → index ≤ range.right →
      sentence[index]? = some rune → 0x80 ≤ rune.rune)
  | ascii (run : RuleRun ((between sentence range.left (range.right + 1)).map RuneStr.rune))

/-- The kinds of words. -/
inductive WordKind {Number : Type} (dictTrie : DictTrie Number) (sentence : List RuneStr)
    (range : WordRange) : Prop where
  | known (unit : DictUnit Number)
      (found : dictTrie.unitOf (between sentence range.left (range.right + 1)) = some unit)
  | rule (word : RuleWord sentence range)

variable {Number : Type}

/-! ### The words of the dictionary -/

namespace MPSegment

variable [Arithmetic Number] {dictTrie : DictTrie Number} {maxWordLen i : Nat}

/-- Every word of the walk is admissible. -/
theorem cutByDag_admissible {sentence runes : List RuneStr} {rounds place : Nat}
    (enough : runes.length ≤ rounds)
    (stands : between sentence place (place + runes.length) = runes) {range : WordRange}
    (member : range ∈ cutByDag rounds place (solve dictTrie maxWordLen i runes)) :
    dictTrie.Admissible maxWordLen (between sentence range.left (range.right + 1)) := by
  induction rounds generalizing i place runes with
  | zero =>
    obtain rfl : runes = [] := List.length_eq_zero_iff.mp (by omega)
    cases member
  | succ rounds inductionHypothesis =>
    cases runes with
    | nil => cases member
    | cons rune rest =>
      obtain ⟨count, positive, inside, admissible, walked⟩ :=
        cutByDag_cons dictTrie maxWordLen i rounds place
          rune rest
      have left : ((rune :: rest).drop count).length + count = (rune :: rest).length := by
        rw [List.length_drop, Nat.sub_add_cancel inside]
      rw [walked] at member
      rcases List.mem_cons.mp member with rfl | later
      · dsimp only
        rw [Nat.sub_add_cancel (by omega),
          ← take_between sentence (place + (rune :: rest).length) (by omega), stands]
        exact admissible
      · refine inductionHypothesis (by omega) ?_ later
        rw [Nat.add_assoc, Nat.add_comm count, left, ← drop_between, stands]

/-- Every word of a range is admissible. -/
theorem cut_admissible {sentence : List RuneStr} {begin stop : Nat} (ordered : begin ≤ stop)
    (inside : stop ≤ sentence.length) {range : WordRange}
    (member : range ∈ cut dictTrie maxWordLen sentence begin stop) :
    dictTrie.Admissible maxWordLen (between sentence range.left (range.right + 1)) := by
  rw [cut, length_solve] at member
  refine cutByDag_admissible le_rfl ?_ member
  rw [length_between inside, Nat.add_sub_cancel' ordered]

end MPSegment

/-! ### The words of the rules -/

namespace HMMSegment

variable [LogArithmetic Number] {model : HMMModel Number}

/-- What is passed behind a first rune. -/
theorem take_takeWhile (rune : RuneStr) (rest : List RuneStr) (passes : RuneStr → Bool) :
    (rune :: rest).take (1 + (rest.takeWhile passes).length) = rune :: rest.takeWhile passes := by
  rw [Nat.add_comm, List.take_succ_cons,
    ← List.prefix_iff_eq_take.mp (List.takeWhile_prefix passes)]

/-- The rules pass one rune, or a run. -/
theorem rulesLength_cases (rune : RuneStr) (rest : List RuneStr) :
    rulesLength (rune :: rest) = 1 ∨
      RuleRun (((rune :: rest).take (rulesLength (rune :: rest))).map RuneStr.rune) := by
  rw [rulesLength, sequentialLetterRule, numbersRule]
  by_cases letter : isLetter rune.rune
  · rw [if_pos letter, if_pos (by omega), take_takeWhile, List.map_cons]
    refine .inr (.letters letter fun other member => ?_)
    obtain ⟨passed, among, rfl⟩ := List.mem_map.mp member
    have kept := List.mem_takeWhile_imp among
    exact Bool.or_eq_true_iff.mp kept
  · by_cases digit : isDigit rune.rune
    · rw [if_neg letter, if_pos digit, if_neg (by simp), if_pos (by omega), take_takeWhile,
        List.map_cons]
      refine .inr (.digits digit fun other member => ?_)
      obtain ⟨passed, among, rfl⟩ := List.mem_map.mp member
      have kept := List.mem_takeWhile_imp among
      exact (Bool.or_eq_true_iff.mp kept).imp_right beq_iff_eq.mp
    · rw [if_neg letter, if_neg digit]
      exact .inl rfl

/-- What has been passed is cut into words of runes from 0x80 on. -/
theorem ruleWord_passed {sentence passed : List RuneStr} {left : Nat}
    (stands : between sentence left (left + passed.length) = passed)
    (large : ∀ rune ∈ passed, 0x80 ≤ rune.rune) {range : WordRange}
    (member : range ∈ if passed ≠ [] then internalCut model left passed else []) :
    RuleWord sentence range := by
  obtain ⟨starts, -, stops⟩ := (passed_tiles model left passed).bounds
    (List.mem_map_of_mem member)
  rw [WordRange.span] at starts stops
  dsimp only at starts stops
  refine .high fun index rune lower upper listed => large rune ?_
  rw [← stands]
  refine List.mem_of_getElem? (i := index - left) ?_
  rw [between, List.getElem?_take, if_pos (by omega), List.getElem?_drop,
    Nat.add_sub_cancel' (by omega)]
  exact listed

theorem cutLoop_ruleWord (passed : List RuneStr) {sentence runes : List RuneStr} {rounds left : Nat}
    (enough : runes.length ≤ rounds)
    (stands : between sentence left (left + passed.length + runes.length) = passed ++ runes)
    (large : ∀ rune ∈ passed, 0x80 ≤ rune.rune) {range : WordRange}
    (member : range ∈ cutLoop model rounds left passed runes) : RuleWord sentence range := by
  have front : between sentence left (left + passed.length) = passed := by
    rw [← take_between sentence (left + passed.length + runes.length) (by omega), stands,
      List.take_left]
  have back : between sentence (left + passed.length) (left + passed.length + runes.length) =
      runes := by
    rw [← drop_between, stands, List.drop_left]
  induction rounds generalizing left passed runes with
  | zero =>
    obtain rfl : runes = [] := List.length_eq_zero_iff.mp (by omega)
    exact ruleWord_passed front large member
  | succ rounds inductionHypothesis =>
    cases runes with
    | nil => exact ruleWord_passed front large member
    | cons rune rest =>
      rw [cutLoop] at member
      by_cases small : rune.rune < 0x80
      · rw [if_pos small] at member
        dsimp only at member
        obtain ⟨positive, inside⟩ := rulesLength_bounds rune rest
        rcases List.mem_append.mp member with before | behind
        · exact ruleWord_passed front large before
        · rcases List.mem_cons.mp behind with rfl | later
          · rcases rulesLength_cases rune rest with one | run
            · refine .single ?_
              dsimp only
              rw [one]
              omega
            · refine .ascii ?_
              have within : left + passed.length + rulesLength (rune :: rest) ≤
                  left + passed.length + (rune :: rest).length := Nat.add_le_add_left inside _
              have word : between sentence (left + passed.length)
                  (left + passed.length + rulesLength (rune :: rest)) =
                  (rune :: rest).take (rulesLength (rune :: rest)) := by
                rw [← take_between sentence _ within, back]
              dsimp only
              rw [Nat.sub_add_cancel (by omega), word]
              exact run
          · have left_eq : ((rune :: rest).drop (rulesLength (rune :: rest))).length +
                rulesLength (rune :: rest) = (rune :: rest).length := by
              rw [List.length_drop, Nat.sub_add_cancel inside]
            have rest_eq : between sentence
                (left + passed.length + rulesLength (rune :: rest))
                (left + passed.length + rulesLength (rune :: rest) +
                  ((rune :: rest).drop (rulesLength (rune :: rest))).length) =
                (rune :: rest).drop (rulesLength (rune :: rest)) := by
              rw [Nat.add_assoc (left + passed.length), Nat.add_comm (rulesLength _), left_eq,
                ← drop_between, back]
            exact inductionHypothesis [] (by omega) rest_eq (List.forall_mem_nil _)
              later (by simp [between]) rest_eq
      · rw [if_neg small] at member
        have whole : between sentence left (left + (passed ++ [rune]).length + rest.length) =
            (passed ++ [rune]) ++ rest := by
          rw [List.length_append, List.length_singleton, List.append_assoc,
            List.singleton_append, ← stands, List.length_cons]
          congr 1
          omega
        refine inductionHypothesis _ (Nat.le_of_succ_le_succ enough) whole ?_ member ?_ ?_
        · intro other among
          rcases List.mem_append.mp among with before | same
          · exact large other before
          · rw [List.mem_singleton.mp same]
            exact Nat.le_of_not_lt small
        · rw [← take_between sentence (left + (passed ++ [rune]).length + rest.length)
            (by omega), whole, List.take_left]
        · rw [← drop_between, whole, List.drop_left]

/-- Every word of a range comes from the rules or from the model. -/
theorem cut_ruleWord {sentence : List RuneStr} {begin stop : Nat} (ordered : begin ≤ stop)
    (inside : stop ≤ sentence.length) {range : WordRange}
    (member : range ∈ cut model sentence begin stop) : RuleWord sentence range := by
  refine cutLoop_ruleWord [] le_rfl ?_ (List.forall_mem_nil _) member
  rw [List.length_nil, Nat.add_zero, length_between inside, Nat.add_sub_cancel' ordered]
  rfl

end HMMSegment

/-! ### The words of a sentence -/

namespace MixSegment

variable [LogArithmetic Number] {dictTrie : DictTrie Number} {model : HMMModel Number}
  {sentence : List RuneStr}

omit [LogArithmetic Number] in
/-- An admissible word is known or a single rune. -/
theorem wordKind_of_admissible {maxWordLen : Nat} {range : WordRange}
    (ordered : range.left ≤ range.right) (inside : range.right < sentence.length)
    (admissible :
      dictTrie.Admissible maxWordLen (between sentence range.left (range.right + 1))) :
    WordKind dictTrie sentence range := by
  rcases admissible with single | ⟨-, -, known⟩
  · rw [length_between (by omega)] at single
    exact .rule (.single (by omega))
  · obtain ⟨unit, found⟩ := Option.isSome_iff_exists.mp known
    exact .known unit found

theorem cutLoop_kind {first last rounds : Nat} {words : List WordRange}
    (tiles : Tiles first last (words.map WordRange.span)) (inside : last ≤ sentence.length)
    (enough : words.length ≤ rounds)
    (kinds : ∀ range ∈ words, WordKind dictTrie sentence range) {range : WordRange}
    (member : range ∈ cutLoop dictTrie model sentence rounds words) :
    WordKind dictTrie sentence range := by
  induction rounds generalizing first words with
  | zero =>
    obtain rfl : words = [] := List.length_eq_zero_iff.mp (by omega)
    cases member
  | succ rounds inductionHypothesis =>
    cases words with
    | nil => cases member
    | cons head words =>
      rcases cutLoop_cons dictTrie model sentence rounds
        head words with ⟨-, looped⟩ | ⟨run, rest, rfl, single, looped⟩
      · obtain ⟨-, -, behind⟩ := tiles
        rw [looped] at member
        rcases List.mem_cons.mp member with rfl | later
        · exact kinds range List.mem_cons_self
        · exact inductionHypothesis behind (Nat.le_of_succ_le_succ enough)
            (fun other among => kinds other (List.mem_cons_of_mem _ among)) later
      · rw [← List.cons_append, List.map_append] at tiles
        obtain ⟨middle, front, back⟩ := tiles_append.mp tiles
        rw [List.length_cons, List.length_append] at enough
        rw [looped] at member
        rcases List.mem_append.mp member with cuts | later
        · obtain ⟨starts, stops⟩ := run_bounds front single
          refine .rule (HMMSegment.cut_ruleWord ?_ ?_ cuts)
          · rw [starts, stops]
            exact front.le
          · rw [stops]
            exact back.le.trans inside
        · exact inductionHypothesis back (by omega)
            (fun other among => kinds other (by simp [among])) later

/-- Every word of a sentence is of one of the kinds. -/
theorem wordRanges_kind {symbols : List Rune} {range : WordRange}
    (member : range ∈ wordRanges dictTrie model symbols true sentence) :
    WordKind dictTrie sentence range := by
  obtain ⟨stretch, among, cuts⟩ := List.mem_flatMap.mp member
  obtain ⟨-, nonempty, inside⟩ := (PreFilter.all_tiles symbols sentence).bounds among
  have tiles := MPSegment.cut_tiles dictTrie maxWordLength
    nonempty.le inside
  refine cutLoop_kind tiles inside le_rfl (fun word listed => ?_) cuts
  obtain ⟨-, ordered, bound⟩ := tiles.bounds (List.mem_map_of_mem listed)
  rw [WordRange.span] at ordered bound
  dsimp only at ordered bound
  exact wordKind_of_admissible (by omega) (by omega)
    (MPSegment.cut_admissible nonempty.le inside listed)

/-- The letters of a word of a valid sentence. -/
inductive LetterKind (dictTrie : DictTrie Number) (letters : List Char) : Prop where
  | known (unit : DictUnit Number)
      (found : dictTrie.root.find (letters.map Char.toNat) = some unit)
  | single (letter : Char) (alone : letters = [letter])
  | high (large : ∀ letter ∈ letters, 0x80 ≤ letter.toNat)
  | ascii (run : RuleRun (letters.map Char.toNat))

theorem getElem?_place_pieceOf (letters : List Char) (index : Nat) :
    ((place 0 0 (letters.map pieceOf))[index]?).map RuneStr.rune =
      letters[index]?.map Char.toNat := by
  rw [← List.getElem?_map, map_rune_place, List.map_map, List.getElem?_map]
  rfl

/-- The runes of a word are its letters. -/
theorem map_rune_between (letters : List Char) (left right : Nat) :
    (between (place 0 0 (letters.map pieceOf)) left right).map RuneStr.rune =
      (between letters left right).map Char.toNat := by
  simp only [between, List.map_take, List.map_drop, map_rune_place, List.map_map]
  rfl

/-- The words of a range are of one of the kinds. -/
theorem letterKind_of_range {symbols : List Rune} {letters : List Char} {range : WordRange}
    (cuts : range ∈ wordRanges dictTrie model symbols true (place 0 0 (letters.map pieceOf))) :
    LetterKind dictTrie (between letters range.left (range.right + 1)) := by
  obtain ⟨-, ordered, inside⟩ := (wordRanges_tiles dictTrie model symbols true _).bounds
    (List.mem_map_of_mem cuts)
  rw [WordRange.span] at ordered inside
  dsimp only at ordered inside
  rw [length_place, List.length_map] at inside
  have rune_at (index : Nat) := getElem?_place_pieceOf letters index
  rcases wordRanges_kind cuts with ⟨unit, found⟩ | ⟨alone | large | run⟩
  · refine .known unit ?_
    rw [← found, DictTrie.unitOf, map_rune_between]
  · have listed := List.getElem?_eq_getElem (show range.left < letters.length by omega)
    refine .single letters[range.left] ?_
    rw [← alone]
    exact between_succ listed
  · refine .high fun letter among => ?_
    obtain ⟨index, lower, upper, listed⟩ := mem_between among
    have same := rune_at index
    rw [listed] at same
    obtain ⟨rune, placed, value⟩ := Option.map_eq_some_iff.mp same
    rw [← value]
    exact large index rune lower (Nat.le_of_lt_succ upper) placed
  · refine .ascii ?_
    rw [map_rune_between] at run
    exact run

/-- The words of a valid sentence are together the sentence, and of one of the kinds. -/
theorem cut_letterKind (dictTrie : DictTrie Number) (model : HMMModel Number)
    (symbols : List Rune) {text : Bytes} (valid : Utf8.Valid text) :
    ∃ words, cut dictTrie model symbols true text = .ok words ∧ words.flatten = text ∧
      ∀ word ∈ words, ∃ letters, Utf8.encode letters = word ∧ LetterKind dictTrie letters := by
  obtain ⟨words, ended, flatten, -⟩ := cut_valid dictTrie model symbols true valid
  obtain ⟨letters, rfl⟩ := valid
  refine ⟨words, ended, flatten, fun word member => ?_⟩
  obtain rfl := Except.ok.inj (ended.symm.trans (cut_eq dictTrie model symbols true
    (decodeRunesInString_encode letters) (pieces_encode letters)))
  obtain ⟨range, cuts, rfl⟩ := List.mem_map.mp member
  exact ⟨_, (textOf_map_pieceOf letters range.span).symm, letterKind_of_range cuts⟩

/-- The sentence `你好 a1`, and a dictionary with the word `你好`. -/
theorem cut_letterKind_sample :
    letI := integers
    let dictTrie : DictTrie Int := .ofUnits [⟨[20320, 22909], -3, []⟩] (-5) []
    let text := Utf8.encode ['你', '好', ' ', 'a', '1']
    ∃ words, cut dictTrie ⟨fun _ => 0, fun _ _ => -1, fun _ _ => some (-1)⟩ [32] true text =
        .ok words ∧ words.flatten = text ∧
      ∀ word ∈ words, ∃ letters, Utf8.encode letters = word ∧ LetterKind dictTrie letters := by
  let := integers
  exact cut_letterKind _ _ _ ⟨_, rfl⟩

end MixSegment

end SearchEngine.Cppjieba
