/-
This file models the segmenter the program uses: the dictionary first, and the
hidden Markov model for what the dictionary leaves in single runes.

The main results are about every dictionary and every model, with numbers of any
kind. The words of a sentence are together the sentence, none is empty, and the
words of a valid sentence are valid; a sentence the decoder rejects has no words.
The words are those of the dictionary, except that single runes that are not in the
user dictionary may be put together.
-/

import SearchEngine.Segmenter.HMMSegment
import SearchEngine.Segmenter.PreFilter

namespace SearchEngine.Cppjieba

open Arithmetic Segments Utf8

namespace MixSegment

section Definitions

variable {Number : Type} [LogArithmetic Number]

/-- What the loop over the words of the dictionary keeps as it is: a word of several runes, or a
rune of the user dictionary. -/
def keeps (dictTrie : DictTrie Number) (sentence : List RuneStr) (range : WordRange) : Bool :=
  range.left ≠ range.right ||
    (range.left = range.right &&
      match sentence[range.left]? with
      | some rune => dictTrie.isUserDictSingleChineseWord rune.rune
      | none => false)

/-- The loop over the words of the dictionary; the inner loop collects the words that are not
kept. -/
def cutLoop (dictTrie : DictTrie Number) (model : HMMModel Number) (sentence : List RuneStr) :
    Nat → List WordRange → List WordRange
  | _, [] => []
  | 0, _ :: _ => []
  | rounds + 1, range :: words =>
    if keeps dictTrie sentence range then range :: cutLoop dictTrie model sentence rounds words
    else
      let single := fun other => !keeps dictTrie sentence other
      let run := words.takeWhile single
      let last := (range :: run).getLast (List.cons_ne_nil _ _)
      HMMSegment.cut model sentence range.left (last.left + 1) ++
        cutLoop dictTrie model sentence rounds (words.dropWhile single)

/-- `MixSegment::Cut` of the range from `begin` to `stop`. -/
def cutRange (dictTrie : DictTrie Number) (model : HMMModel Number) (sentence : List RuneStr)
    (hmm : Bool) (begin stop : Nat) : List WordRange :=
  let words := MPSegment.cut dictTrie maxWordLength sentence begin stop
  if hmm then cutLoop dictTrie model sentence words.length words else words

/-- The ranges of the words of a sentence. -/
def wordRanges (dictTrie : DictTrie Number) (model : HMMModel Number) (symbols : List Rune)
    (hmm : Bool) (sentence : List RuneStr) : List WordRange :=
  (PreFilter.all symbols sentence).flatMap fun range =>
    cutRange dictTrie model sentence hmm range.1 range.2

/-- `MixSegment::Cut` of a sentence. -/
def cut (dictTrie : DictTrie Number) (model : HMMModel Number) (symbols : List Rune) (hmm : Bool)
    (sentence : Bytes) : Except Fault (List Bytes) := do
  let runes := (decodeRunesInString sentence).getD []
  let words ← getWordsFromWordRanges sentence runes (wordRanges dictTrie model symbols hmm runes)
  return getStringsFromWords words

end Definitions

variable {Number : Type} [LogArithmetic Number] {dictTrie : DictTrie Number}
  {model : HMMModel Number} {sentence : List RuneStr}

/-! ### Tilings -/

omit [LogArithmetic Number] in
/-- What is not kept is a single rune. -/
theorem single_of_not_keeps {range : WordRange}
    (rest : keeps dictTrie sentence range = false) : range.left = range.right := by
  by_contra several
  rw [keeps, decide_eq_true several, Bool.true_or] at rest
  cases rest

omit [LogArithmetic Number] in
/-- A run of words that are not kept goes from the first of them to behind the last. -/
theorem run_bounds {first last : Nat} {range : WordRange} {run : List WordRange}
    (tiles : Tiles first last ((range :: run).map WordRange.span))
    (single : ∀ other ∈ range :: run, keeps dictTrie sentence other = false) :
    range.left = first ∧
      ((range :: run).getLast (List.cons_ne_nil _ _)).left + 1 = last := by
  have ends := tiles.getLast (by simp)
  rw [List.getLast_map] at ends
  have alone := single_of_not_keeps (single _ (List.getLast_mem (List.cons_ne_nil range run)))
  rw [alone]
  exact ⟨tiles.1, ends⟩

/-- The model cuts a run into words that tile it. -/
theorem run_tiles (model : HMMModel Number) {first last : Nat} {range : WordRange}
    {run : List WordRange}
    (tiles : Tiles first last ((range :: run).map WordRange.span))
    (single : ∀ other ∈ range :: run, keeps dictTrie sentence other = false)
    (inside : last ≤ sentence.length) :
    Tiles first last ((HMMSegment.cut model sentence range.left
      (((range :: run).getLast (List.cons_ne_nil _ _)).left + 1)).map WordRange.span) := by
  obtain ⟨starts, stops⟩ := run_bounds tiles single
  rw [starts, stops]
  exact HMMSegment.cut_tiles model tiles.le inside

/-- One round of the loop: a kept word, or a run of words that are not kept. -/
theorem cutLoop_cons (dictTrie : DictTrie Number) (model : HMMModel Number)
    (sentence : List RuneStr) (rounds : Nat) (range : WordRange) (words : List WordRange) :
    (keeps dictTrie sentence range = true ∧
      cutLoop dictTrie model sentence (rounds + 1) (range :: words) =
        range :: cutLoop dictTrie model sentence rounds words) ∨
    ∃ run rest, words = run ++ rest ∧
      (∀ other ∈ range :: run, keeps dictTrie sentence other = false) ∧
      cutLoop dictTrie model sentence (rounds + 1) (range :: words) =
        HMMSegment.cut model sentence range.left
            (((range :: run).getLast (List.cons_ne_nil _ _)).left + 1) ++
          cutLoop dictTrie model sentence rounds rest := by
  by_cases kept : keeps dictTrie sentence range = true
  · exact .inl ⟨kept, by rw [cutLoop, if_pos kept]⟩
  · refine .inr ⟨words.takeWhile fun other => !keeps dictTrie sentence other,
      words.dropWhile fun other => !keeps dictTrie sentence other,
      List.takeWhile_append_dropWhile.symm, ?_, by rw [cutLoop, if_neg kept]⟩
    intro other member
    rcases List.mem_cons.mp member with rfl | later
    · simpa using kept
    · simpa using List.mem_takeWhile_imp later

/-- The words of the loop tile what the words of the dictionary tile. -/
theorem cutLoop_tiles {first last rounds : Nat} {words : List WordRange}
    (tiles : Tiles first last (words.map WordRange.span)) (inside : last ≤ sentence.length)
    (enough : words.length ≤ rounds) :
    Tiles first last ((cutLoop dictTrie model sentence rounds words).map WordRange.span) := by
  induction rounds generalizing first words with
  | zero =>
    obtain rfl : words = [] := List.length_eq_zero_iff.mp (by omega)
    exact tiles
  | succ rounds inductionHypothesis =>
    cases words with
    | nil => exact tiles
    | cons range words =>
      rcases cutLoop_cons dictTrie model sentence rounds range words with
        ⟨-, looped⟩ | ⟨run, rest, rfl, single, looped⟩
      · obtain ⟨same, nonempty, behind⟩ := tiles
        rw [looped, List.map_cons]
        exact ⟨same, nonempty, inductionHypothesis behind (Nat.le_of_succ_le_succ enough)⟩
      · rw [← List.cons_append, List.map_append] at tiles
        obtain ⟨middle, front, back⟩ := tiles_append.mp tiles
        rw [List.length_cons, List.length_append] at enough
        rw [looped, List.map_append]
        exact (run_tiles model front single (back.le.trans inside)).append
          (inductionHypothesis back (by omega))

theorem cutRange_tiles (dictTrie : DictTrie Number) (model : HMMModel Number) {begin stop : Nat}
    (ordered : begin ≤ stop) (inside : stop ≤ sentence.length) (hmm : Bool) :
    Tiles begin stop ((cutRange dictTrie model sentence hmm begin stop).map WordRange.span) := by
  have tiles := MPSegment.cut_tiles dictTrie maxWordLength ordered inside
  rw [cutRange]
  cases hmm with
  | false => exact tiles
  | true => exact cutLoop_tiles tiles inside le_rfl

/-- The words of a sentence tile it. -/
theorem wordRanges_tiles (dictTrie : DictTrie Number) (model : HMMModel Number)
    (symbols : List Rune) (hmm : Bool) (sentence : List RuneStr) :
    Tiles 0 sentence.length
      ((wordRanges dictTrie model symbols hmm sentence).map WordRange.span) := by
  have ranges := PreFilter.all_tiles symbols sentence
  rw [wordRanges, List.map_flatMap]
  refine ranges.flatMap fun range member => ?_
  obtain ⟨-, nonempty, inside⟩ := ranges.bounds member
  exact cutRange_tiles dictTrie model nonempty.le inside hmm

/-! ### The words of a sentence -/

/-- The words of a sentence are the texts of their ranges. -/
theorem cut_eq (dictTrie : DictTrie Number) (model : HMMModel Number) (symbols : List Rune)
    (hmm : Bool) {text : Bytes} {runes : List RuneStr} {pieces : List (Rune × Bytes)}
    (decodes : decodeRunesInString text = some runes) (decoded : Pieces text runes pieces) :
    cut dictTrie model symbols hmm text =
      .ok ((wordRanges dictTrie model symbols hmm runes).map fun range =>
        textOf pieces range.span) := by
  have tiles := wordRanges_tiles dictTrie model symbols hmm runes
  have inside : ∀ range ∈ wordRanges dictTrie model symbols hmm runes,
      range.left ≤ range.right ∧ range.right < runes.length := by
    intro range member
    obtain ⟨-, nonempty, inside⟩ := tiles.bounds (List.mem_map_of_mem member)
    rw [WordRange.span] at nonempty inside
    dsimp only at nonempty inside
    exact ⟨by omega, by omega⟩
  obtain ⟨words, ended, strings⟩ := getWordsFromWordRanges_place decoded _ inside
  rw [cut, decodes, Option.getD_some, ended, ok_bind, strings]
  rfl

/-- A sentence the decoder rejects has no words. -/
theorem cut_of_undecodable (dictTrie : DictTrie Number) (model : HMMModel Number)
    (symbols : List Rune) (hmm : Bool) {text : Bytes}
    (rejected : decodeRunesInString text = none) :
    cut dictTrie model symbols hmm text = .ok [] := by
  rw [cut, rejected]
  rfl

/-- The segmenter does not fail. -/
theorem exists_cut (dictTrie : DictTrie Number) (model : HMMModel Number) (symbols : List Rune)
    (hmm : Bool) (text : Bytes) : ∃ words, cut dictTrie model symbols hmm text = .ok words := by
  cases decodes : decodeRunesInString text with
  | none => exact ⟨[], cut_of_undecodable dictTrie model symbols hmm decodes⟩
  | some runes =>
    obtain ⟨pieces, decoded⟩ := exists_pieces decodes
    exact ⟨_, cut_eq dictTrie model symbols hmm decodes decoded⟩

/-- Whatever the dictionary and the model are: the words of a sentence that is accepted are together
the sentence, and none is empty; a sentence that is not accepted has no words. -/
theorem cut_partitions (dictTrie : DictTrie Number) (model : HMMModel Number)
    (symbols : List Rune) (hmm : Bool) (text : Bytes) :
    ∃ words, cut dictTrie model symbols hmm text = .ok words ∧ [] ∉ words ∧
      words.flatten = if (decodeRunesInString text).isSome then text else [] := by
  cases decodes : decodeRunesInString text with
  | none => exact ⟨[], cut_of_undecodable dictTrie model symbols hmm decodes, List.not_mem_nil, rfl⟩
  | some runes =>
    obtain ⟨pieces, decoded⟩ := exists_pieces decodes
    have tiles := wordRanges_tiles dictTrie model symbols hmm runes
    obtain ⟨flatten, nonempty⟩ := decoded.flatten_of_tiles tiles
    rw [List.map_map] at flatten nonempty
    exact ⟨_, cut_eq dictTrie model symbols hmm decodes decoded, nonempty, flatten⟩

/-- The words of a valid sentence are valid, and together they are the sentence. -/
theorem cut_valid (dictTrie : DictTrie Number) (model : HMMModel Number) (symbols : List Rune)
    (hmm : Bool) {text : Bytes} (valid : Valid text) :
    ∃ words, cut dictTrie model symbols hmm text = .ok words ∧ words.flatten = text ∧
      ∀ word ∈ words, word ≠ [] ∧ Valid word := by
  obtain ⟨letters, rfl⟩ := valid
  have decodes := decodeRunesInString_encode letters
  have decoded := pieces_encode letters
  have tiles := wordRanges_tiles dictTrie model symbols hmm (place 0 0 (letters.map pieceOf))
  obtain ⟨flatten, nonempty⟩ := decoded.flatten_of_tiles tiles
  rw [List.map_map] at flatten nonempty
  refine ⟨_, cut_eq dictTrie model symbols hmm decodes decoded, flatten, fun word member => ?_⟩
  refine ⟨fun empty => nonempty (empty ▸ member), ?_⟩
  obtain ⟨range, -, rfl⟩ := List.mem_map.mp member
  rw [textOf_map_pieceOf]
  exact ⟨_, rfl⟩

/-! ### Separators -/

/-- A word with a separator in it has nothing else. -/
theorem wordRanges_separate {symbols : List Rune} {hmm : Bool} {range : WordRange}
    (member : range ∈ wordRanges dictTrie model symbols hmm sentence) {index : Nat}
    {rune : RuneStr} (lower : range.left ≤ index) (upper : index ≤ range.right)
    (listed : sentence[index]? = some rune) (separator : rune.rune ∈ symbols) :
    range = ⟨index, index⟩ := by
  obtain ⟨stretch, among, cuts⟩ := List.mem_flatMap.mp member
  obtain ⟨-, nonempty, inside⟩ := (PreFilter.all_tiles _ sentence).bounds among
  have tiles := cutRange_tiles dictTrie model nonempty.le inside hmm
  obtain ⟨starts, ordered, stops⟩ := tiles.bounds (List.mem_map_of_mem cuts)
  rw [WordRange.span] at starts ordered stops
  dsimp only at starts ordered stops
  have alone : stretch = (index, index + 1) :=
    PreFilter.ranges_separate sentence among (by omega) (by omega) listed separator
  rw [alone] at starts stops
  dsimp only at starts stops
  obtain ⟨left, right⟩ := range
  simp only [WordRange.mk.injEq]
  dsimp only at *
  omega

/-- In a valid sentence a separator is a word of its own: the words are together the sentence, and a
word with a separator in it has nothing else. -/
theorem cut_separates (dictTrie : DictTrie Number) (model : HMMModel Number)
    (symbols : List Rune) (hmm : Bool) {text : Bytes} (valid : Valid text) :
    ∃ words, cut dictTrie model symbols hmm text = .ok words ∧ words.flatten = text ∧
      ∀ word ∈ words, ∃ letters, encode letters = word ∧
        ∀ letter ∈ letters, letter.toNat ∈ symbols → letters = [letter] := by
  obtain ⟨words, ended, flatten, -⟩ := cut_valid dictTrie model symbols hmm valid
  obtain ⟨letters, rfl⟩ := valid
  refine ⟨words, ended, flatten, fun word member => ?_⟩
  obtain rfl := Except.ok.inj (ended.symm.trans (cut_eq dictTrie model symbols hmm
    (decodeRunesInString_encode letters) (pieces_encode letters)))
  obtain ⟨range, cuts, rfl⟩ := List.mem_map.mp member
  refine ⟨_, (textOf_map_pieceOf letters range.span).symm, fun letter inside separator => ?_⟩
  obtain ⟨index, lower, upper, listed⟩ := mem_between inside
  have placed : (place 0 0 (letters.map pieceOf))[index]? =
      some ⟨letter.toNat, 0 + start ((letters.map pieceOf).map Prod.snd) index,
        (pieceOf letter).2.length, 0 + index, 1⟩ := by
    rw [getElem?_place, List.getElem?_map, listed]
    rfl
  have alone := wordRanges_separate cuts lower (Nat.le_of_lt_succ upper) placed separator
  rw [alone]
  exact between_succ listed

/-- The sentence `a,b`, with a comma as the separator and a dictionary that has it as one word. -/
theorem cut_separates_sample :
    letI := integers
    let dictTrie : DictTrie Int := .ofUnits [⟨[97, 44, 98], -1, []⟩] (-5) []
    ∃ words, cut dictTrie ⟨fun _ => 0, fun _ _ => 0, fun _ _ => none⟩ [44] true
        (encode ['a', ',', 'b']) = .ok words ∧ words.flatten = encode ['a', ',', 'b'] ∧
      ∀ word ∈ words, ∃ letters, encode letters = word ∧
        ∀ letter ∈ letters, letter.toNat ∈ [44] → letters = [letter] := by
  let := integers
  exact cut_separates _ _ _ _ ⟨_, rfl⟩

/-! ### What the model puts together -/

/-- Every word of the loop is a word of the dictionary, or it is made of single runes that the loop
does not keep; what is kept stays. -/
theorem cutLoop_regroups {first last rounds : Nat} {words : List WordRange}
    (tiles : Tiles first last (words.map WordRange.span)) (inside : last ≤ sentence.length)
    (enough : words.length ≤ rounds) :
    (∀ range ∈ words, keeps dictTrie sentence range = true →
        range ∈ cutLoop dictTrie model sentence rounds words) ∧
      ∀ range ∈ cutLoop dictTrie model sentence rounds words,
        (range ∈ words ∧ keeps dictTrie sentence range = true) ∨
          ∀ index, range.left ≤ index → index ≤ range.right →
            ⟨index, index⟩ ∈ words ∧ keeps dictTrie sentence ⟨index, index⟩ = false := by
  induction rounds generalizing first words with
  | zero =>
    obtain rfl : words = [] := List.length_eq_zero_iff.mp (by omega)
    exact ⟨fun _ member => absurd member List.not_mem_nil,
      fun _ member => absurd member List.not_mem_nil⟩
  | succ rounds inductionHypothesis =>
    cases words with
    | nil =>
      exact ⟨fun _ member => absurd member List.not_mem_nil,
        fun _ member => absurd member List.not_mem_nil⟩
    | cons range words =>
      rcases cutLoop_cons dictTrie model sentence rounds range words with
        ⟨kept, looped⟩ | ⟨run, rest, rfl, single, looped⟩
      · obtain ⟨same, nonempty, behind⟩ := tiles
        obtain ⟨stays, regroups⟩ :=
          inductionHypothesis behind (Nat.le_of_succ_le_succ enough)
        rw [looped]
        refine ⟨fun other member keep => ?_, fun other member => ?_⟩
        · rcases List.mem_cons.mp member with rfl | later
          · exact List.mem_cons_self
          · exact List.mem_cons_of_mem _ (stays other later keep)
        · rcases List.mem_cons.mp member with rfl | later
          · exact .inl ⟨List.mem_cons_self, kept⟩
          · refine (regroups other later).imp (fun found => ?_) fun found index lower upper => ?_
            · exact ⟨List.mem_cons_of_mem _ found.1, found.2⟩
            · obtain ⟨listed, free⟩ := found index lower upper
              exact ⟨List.mem_cons_of_mem _ listed, free⟩
      · rw [← List.cons_append, List.map_append] at tiles
        obtain ⟨middle, front, back⟩ := tiles_append.mp tiles
        rw [List.length_cons, List.length_append] at enough
        obtain ⟨stays, regroups⟩ := inductionHypothesis back (by omega)
        have bound := back.le.trans inside
        rw [looped, ← List.cons_append]
        refine ⟨fun other member keep => ?_, fun other member => ?_⟩
        · rcases List.mem_append.mp member with among | later
          · rw [single other among] at keep
            cases keep
          · exact List.mem_append_right _ (stays other later keep)
        · rcases List.mem_append.mp member with cuts | later
          · refine .inr fun index lower upper => ?_
            obtain ⟨starts, -, stops⟩ := (run_tiles model front single bound).bounds
              (List.mem_map_of_mem cuts)
            rw [WordRange.span] at starts stops
            dsimp only at starts stops
            obtain ⟨span, listed, below, above⟩ :=
              @Tiles.exists_mem _ _ _ front index (by omega) (by omega)
            obtain ⟨word, among, rfl⟩ := List.mem_map.mp listed
            have alone := single_of_not_keeps (single word among)
            have same : word = ⟨index, index⟩ := by
              obtain ⟨left, right⟩ := word
              rw [WordRange.span] at below above
              simp only [WordRange.mk.injEq]
              dsimp only at below above alone
              omega
            rw [← same]
            exact ⟨List.mem_append_left _ among, single word among⟩
          · refine (regroups other later).imp (fun found => ?_) fun found index lower upper => ?_
            · exact ⟨List.mem_append_right _ found.1, found.2⟩
            · obtain ⟨listed, free⟩ := found index lower upper
              exact ⟨List.mem_append_right _ listed, free⟩

/-- The words of a range are the words of the dictionary, except that single runes that are not in
the user dictionary may be put together. -/
theorem cutRange_regroups (dictTrie : DictTrie Number) (model : HMMModel Number)
    {sentence : List RuneStr} {begin stop : Nat} (ordered : begin ≤ stop)
    (inside : stop ≤ sentence.length) :
    (∀ range ∈ MPSegment.cut dictTrie maxWordLength sentence begin stop,
      keeps dictTrie sentence range = true →
        range ∈ cutRange dictTrie model sentence true begin stop) ∧
    ∀ range ∈ cutRange dictTrie model sentence true begin stop,
      (range ∈ MPSegment.cut dictTrie maxWordLength sentence begin stop ∧
          keeps dictTrie sentence range = true) ∨
        ∀ index, range.left ≤ index → index ≤ range.right →
          ⟨index, index⟩ ∈ MPSegment.cut dictTrie maxWordLength sentence begin stop ∧
            keeps dictTrie sentence ⟨index, index⟩ = false :=
  cutLoop_regroups (MPSegment.cut_tiles dictTrie maxWordLength ordered inside) inside le_rfl

/-- Four runes, and a dictionary with a word of the first two: the other two are left over. -/
theorem cutRange_regroups_sample :
    letI := integers
    let dictTrie : DictTrie Int := .ofUnits [⟨[20320, 22909], -3, []⟩] (-5) []
    let model : HMMModel Int := ⟨fun _ => 0, fun _ _ => -1, fun _ _ => some (-1)⟩
    let sentence := place 0 0 [(20320, [228, 189, 160]), (22909, [229, 165, 189]),
      (20154, [228, 186, 186]), (29983, [231, 148, 159])]
    MPSegment.cut dictTrie maxWordLength sentence 0 4 = [⟨0, 1⟩, ⟨2, 2⟩, ⟨3, 3⟩] ∧
      ⟨0, 1⟩ ∈ cutRange dictTrie model sentence true 0 4 ∧
      ∀ range ∈ cutRange dictTrie model sentence true 0 4,
        (range ∈ MPSegment.cut dictTrie maxWordLength sentence 0 4 ∧
            keeps dictTrie sentence range = true) ∨
          ∀ index, range.left ≤ index → index ≤ range.right →
            ⟨index, index⟩ ∈ MPSegment.cut dictTrie maxWordLength sentence 0 4 ∧
              keeps dictTrie sentence ⟨index, index⟩ = false := by
  let := integers
  intro dictTrie model sentence
  have words : MPSegment.cut dictTrie maxWordLength sentence 0 4 = [⟨0, 1⟩, ⟨2, 2⟩, ⟨3, 3⟩] := by
    decide +kernel
  have inside : 4 ≤ sentence.length := by decide
  obtain ⟨stays, regroups⟩ := cutRange_regroups dictTrie model (Nat.zero_le 4) inside
  exact ⟨words, stays ⟨0, 1⟩ (by rw [words]; exact List.mem_cons_self) rfl, regroups⟩

end MixSegment

end SearchEngine.Cppjieba
