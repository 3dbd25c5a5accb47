/-
This file proves that a query that is a word of the dictionary is the first word
of its own result.

The index has the word under its own characters, so the word is a candidate. Its
distance to the query is zero, which no other word has. The priority queue puts
the distance before the frequency, so the first element that is popped has the
distance zero too, whatever order the queue gives to candidates of equal
priority.
-/

import SearchEngine.Recommender.Candidates

namespace SearchEngine

open Containers Utf8

/-! ### The selection loop -/

/-- The loop only adds words behind the ones that are there. -/
theorem selectLoop_append (que : PriorityQueue CandidateResult.less) (cnt : Nat)
    (queue : que.Queue) (ret : List Bytes) :
    ∃ more, (Dictionary.selectLoop que cnt queue ret).1 = ret ++ more := by
  induction cnt generalizing queue ret with
  | zero => exact ⟨[], (List.append_nil ret).symm⟩
  | succ cnt inductionHypothesis =>
    rw [Dictionary.selectLoop]
    split_ifs with empty
    · exact ⟨[], (List.append_nil ret).symm⟩
    · cases Dictionary.popReturned que queue ret with
      | error fault => exact ⟨[], (List.append_nil ret).symm⟩
      | ok popped =>
        dsimp only
        cases que.top popped with
        | none => exact ⟨[], (List.append_nil ret).symm⟩
        | some top =>
          obtain ⟨more, same⟩ := inductionHypothesis (que.pop popped) (ret ++ [top.word])
          exact ⟨top.word :: more, by rw [same, List.append_assoc]; rfl⟩

/-- The first word is that of the top. -/
theorem head?_selectLoop (que : PriorityQueue CandidateResult.less) (cnt : Nat)
    {queue : que.Queue} {top : CandidateResult} (isTop : que.top queue = some top) :
    (Dictionary.selectLoop que (cnt + 1) queue []).1.head? = some top.word := by
  obtain ⟨more, same⟩ := selectLoop_append que cnt (que.pop queue) ([] ++ [top.word])
  have notEmpty : ¬ (que.top queue).isNone := by
    rw [isTop]
    simp
  rw [Dictionary.selectLoop, if_neg notEmpty, Dictionary.popReturned]
  dsimp only
  rw [isTop]
  dsimp only
  rw [same]
  rfl

/-- A candidate of distance zero is outranked only by candidates of distance zero. -/
theorem dis_eq_zero_of_not_less {best exact : CandidateResult} (zero : exact.dis = 0)
    (best_le : ¬ CandidateResult.less best exact) : best.dis = 0 := by
  by_contra positive
  refine best_le ?_
  rw [CandidateResult.less, if_pos (by omega)]
  exact decide_eq_true (by omega)

/-! ### Exact matches -/

/-- A query that is a word of a dictionary of at most 2^31 words is the first word that is pushed
into its result. -/
theorem select_exact {words : List (List Char × Int)} (size : words.length ≤ 2 ^ 31)
    {index : Index} (created : DictProducer.createIndex (words.map encodeEntry) = .ok index)
    {word : List Char × Int} (member : word ∈ words) (nonempty : word.1 ≠ [])
    (que : PriorityQueue CandidateResult.less) :
    ∃ next ret ended, Dictionary.select que ⟨words.map encodeEntry, index⟩ (encode word.1) =
      (next, .ok (ret, ended)) ∧ ret.head? = some (encode word.1) := by
  obtain ⟨same, built, indexes, -⟩ := createIndex_spec words
  obtain rfl := Except.ok.inj (created.symm.trans built)
  obtain ⟨next, pushed, ended, -, members⟩ := candidates_spec size word.1
    (show (⟨words.map encodeEntry, index⟩ : Dictionary).dict = _ from rfl) indexes
  have contents := que.contents_pushAll pushed
  obtain ⟨letter, letters, split⟩ := List.exists_cons_of_ne_nil nonempty
  have shared : ∃ letter ∈ word.1, letter ∈ word.1 := ⟨letter, by simp [split], by simp [split]⟩
  have candidate : candidateOf word.1 word ∈ que.contents (que.pushAll pushed) := by
    rw [contents, Multiset.mem_coe]
    exact (members _).mpr ⟨word, member, shared, rfl⟩
  have zero : (candidateOf word.1 word).dis = 0 := (EditDistance.distance_eq_zero_iff _ _).mpr rfl
  cases isTop : que.top (que.pushAll pushed) with
  | none =>
    rw [que.top_eq_none _ isTop] at candidate
    exact absurd candidate (Multiset.notMem_zero _)
  | some best =>
    have best_zero := dis_eq_zero_of_not_less zero
      (que.top_maximal _ best isTop _ candidate)
    have best_mem : best ∈ pushed := by
      rw [← Multiset.mem_coe, ← contents, que.contents_pop _ best isTop]
      exact Multiset.mem_cons_self _ _
    obtain ⟨entry, -, -, rfl⟩ := (members best).mp best_mem
    have equal : word.1 = entry.1 := (EditDistance.distance_eq_zero_iff _ _).mp best_zero
    refine ⟨next, (Dictionary.selectLoop que 5 (que.pushAll pushed) []).1,
      (Dictionary.selectLoop que 5 (que.pushAll pushed) []).2, ?_, ?_⟩
    · rw [Dictionary.select, ended]
      dsimp only [Except.map]
    · rw [head?_selectLoop que 4 isTop, equal]
      rfl

/-- The word `b` of the sample is found, although `ab` is more frequent. -/
theorem select_exact_sample :
    ∃ index next ret ended, DictProducer.createIndex (sampleWords.map encodeEntry) = .ok index ∧
      Dictionary.select orderedQueue ⟨sampleWords.map encodeEntry, index⟩ (encode ['b']) =
        (next, .ok (ret, ended)) ∧ ret.head? = some (encode ['b']) := by
  obtain ⟨index, created, -⟩ := createIndex_spec sampleWords
  obtain ⟨next, ret, ended, selected, first⟩ :=
    select_exact (by decide) created (show (['b'], 1) ∈ sampleWords by simp [sampleWords])
      (by simp) orderedQueue
  exact ⟨index, next, ret, ended, created, selected, first⟩

/-- In a dictionary of 2^31 + 1 words the query for the last word, which alone has its character,
reads outside the dictionary. -/
theorem select_negative_position :
    ∃ words : List (List Char × Int), (words.map Prod.fst).Nodup ∧
      (∀ entry ∈ words, entry.1 ≠ []) ∧ (['b'], 1) ∈ words ∧
      ∃ index, DictProducer.createIndex (words.map encodeEntry) = .ok index ∧
        ∀ que : PriorityQueue CandidateResult.less,
          (Dictionary.select que ⟨words.map encodeEntry, index⟩ (encode ['b'])).2 =
            .error .outOfBounds := by
  obtain ⟨index, created, indexes, -⟩ := createIndex_spec (wordsBeforeB (2 ^ 31))
  refine ⟨wordsBeforeB (2 ^ 31), nodup_wordsBeforeB (by norm_num), fun entry member => ?_, ?_,
    index, created, fun que => ?_⟩
  · exact List.ne_nil_of_length_pos (length_wordsBeforeB member).1
  · exact List.mem_append_right _ (List.mem_singleton_self _)
  · have positions (position : Int) : position ∈ value index (String.utf8EncodeChar 'b') ↔
        position = -2147483648 := by
      rw [indexes, mem_indexPairs_wordsBeforeB, toInt_two_pow]
    obtain ⟨first, more, split⟩ :=
      List.exists_cons_of_ne_nil (List.ne_nil_of_mem ((positions _).mpr rfl))
    have negative : first = -2147483648 :=
      (positions first).mp (by rw [split]; exact List.mem_cons_self)
    have outside (dict : List (Bytes × Int)) (sought : Bytes) :
        Dictionary.pushPositions dict sought (value index (String.utf8EncodeChar 'b')) =
          .error .outOfBounds := by
      rw [split, negative, Dictionary.pushPositions, Dictionary.candidateAt, Dictionary.entryAt,
        if_neg (by norm_num)]
      rfl
    rw [Dictionary.select, Dictionary.candidates, splitSought_encode]
    dsimp only
    rw [List.map_singleton, Dictionary.pushCandidates]
    dsimp only
    rw [subscript_snd, outside]
    rfl

end SearchEngine
