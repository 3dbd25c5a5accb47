/-
This file proves what the selection of a dictionary query returns.

Nothing is pushed while the selection runs, so it depends on the priority queue
only through the order in which the candidates are popped. Over this order the
selection is a loop on lists: a round walks once through the words it has
returned and takes the front off whenever it is the word it has come to, and
returns the next word. Every word that is popped is then returned or a copy of a
returned one, whatever order the queue gives to candidates of equal priority, so
what is left when the loop ends is no better than what was returned.
-/

import SearchEngine.Recommender.Candidates
import SearchEngine.Library.Matching

namespace SearchEngine

open Containers Utf8 Matching

/-! ### The selection over the order of popping -/

/-- The selection loop over the words in the order in which they are popped. -/
def pickWords : Nat → List Bytes → List Bytes → List Bytes × Option Fault
  | 0, _, ret => (ret, none)
  | cnt + 1, order, ret =>
    if order = [] then (ret, none)
    else
      match takeOff ret order with
      | [] => (ret, some .emptyContainer)
      | word :: rest => pickWords cnt rest (ret ++ [word])

/-- A round in which only copies are left asks the empty queue. -/
theorem pickWords_of_nil (cnt : Nat) {order ret : List Bytes} (nonempty : order ≠ [])
    (left : takeOff ret order = []) : pickWords (cnt + 1) order ret = (ret, some .emptyContainer) := by
  rw [pickWords, if_neg nonempty, left]

/-- Any other round returns the first word behind the copies. -/
theorem pickWords_of_cons (cnt : Nat) {order ret rest : List Bytes} {word : Bytes}
    (left : takeOff ret order = word :: rest) :
    pickWords (cnt + 1) order ret = pickWords cnt rest (ret ++ [word]) := by
  have nonempty : order ≠ [] := by
    obtain ⟨copies, rfl, -⟩ := takeOff_eq_cons_iff.mp left
    exact List.append_ne_nil_of_right_ne_nil _ (List.cons_ne_nil _ _)
  rw [pickWords, if_neg nonempty, left]

section Queue

variable {que : PriorityQueue CandidateResult.less}

/-- The words in a queue, in the order in which they are popped. -/
def wordOrder (que : PriorityQueue CandidateResult.less) (queue : que.Queue) : List Bytes :=
  (que.drained queue).map CandidateResult.word

/-- The inner loop takes copies off the order, and has run into the empty queue when there is
nothing left. -/
theorem popReturned_spec (queue : que.Queue) (ret : List Bytes) :
    (∃ next, Dictionary.popReturned que queue ret = .ok next ∧
        wordOrder que next = takeOff ret (wordOrder que queue)) ∨
      Dictionary.popReturned que queue ret = .error .emptyContainer ∧
        takeOff ret (wordOrder que queue) = [] := by
  induction ret generalizing queue with
  | nil => exact Or.inl ⟨queue, rfl, by rw [takeOff]⟩
  | cons word ret inductionHypothesis =>
    rw [Dictionary.popReturned]
    cases top : que.top queue with
    | none =>
      refine Or.inr ⟨rfl, ?_⟩
      rw [wordOrder, PriorityQueue.drained_of_none top]
      rfl
    | some first =>
      rw [orFault_some, ok_bind, wordOrder, PriorityQueue.drained_of_some top, List.map_cons,
        takeOff]
      split_ifs with same
      · exact inductionHypothesis (que.pop queue)
      · have later := inductionHypothesis queue
        rwa [wordOrder, PriorityQueue.drained_of_some top, List.map_cons] at later

/-- The selection loop depends on the order of popping only. -/
theorem selectLoop_eq_pickWords (cnt : Nat) (queue : que.Queue) (ret : List Bytes) :
    Dictionary.selectLoop que cnt queue ret = pickWords cnt (wordOrder que queue) ret := by
  induction cnt generalizing queue ret with
  | zero => rfl
  | succ cnt inductionHypothesis =>
    have empty_iff : (que.top queue).isNone ↔ wordOrder que queue = [] := by
      rw [Option.isNone_iff_eq_none, wordOrder, List.map_eq_nil_iff,
        PriorityQueue.drained_eq_nil_iff]
    rw [Dictionary.selectLoop, pickWords]
    simp only [empty_iff]
    split_ifs
    · rfl
    rcases popReturned_spec queue ret with ⟨next, popped, left⟩ | ⟨failed, nothing⟩
    · rw [popped, ← left]
      dsimp only
      cases top : que.top next with
      | none => rw [wordOrder, PriorityQueue.drained_of_none top]; rfl
      | some first =>
        dsimp only
        rw [inductionHypothesis, wordOrder, wordOrder, PriorityQueue.drained_of_some top,
          List.map_cons]
    · rw [failed, nothing]

end Queue

/-! ### What is popped and what is left -/

/-- A completed selection: what it has popped has been returned or is a copy of what has, and
either nothing is left or all rounds were used. -/
theorem pickWords_completes {cnt : Nat} {order ret result : List Bytes}
    (ended : pickWords cnt order ret = (result, none)) :
    ∃ popped rest new, order = popped ++ rest ∧ result = ret ++ new ∧ new.Sublist popped ∧
      (∀ word ∈ popped, word ∈ result) ∧ (rest = [] ∨ new.length = cnt) := by
  induction cnt generalizing order ret with
  | zero =>
    obtain rfl := (Prod.mk.inj ended).1
    exact ⟨[], order, [], rfl, (List.append_nil _).symm, List.Sublist.refl _,
      List.forall_mem_nil _, Or.inr rfl⟩
  | succ cnt inductionHypothesis =>
    by_cases empty : order = []
    · rw [pickWords, if_pos empty] at ended
      obtain rfl := (Prod.mk.inj ended).1
      exact ⟨[], [], [], empty, (List.append_nil _).symm, List.Sublist.refl _,
        List.forall_mem_nil _, Or.inl rfl⟩
    · cases left : takeOff ret order with
      | nil =>
        rw [pickWords_of_nil cnt empty left] at ended
        cases ended
      | cons word others =>
        rw [pickWords_of_cons cnt left] at ended
        obtain ⟨copies, split, within, -⟩ := takeOff_eq_cons_iff.mp left
        obtain ⟨popped, rest, new, rfl, rfl, sublist, returned, last⟩ := inductionHypothesis ended
        refine ⟨copies ++ word :: popped, rest, word :: new, ?_, ?_, ?_, ?_, ?_⟩
        · rw [split, List.append_assoc, List.cons_append]
        · rw [List.append_assoc, List.singleton_append]
        · exact (sublist.cons_cons word).trans (List.sublist_append_right _ _)
        · intro other member
          rcases List.mem_append.mp member with copy | popped
          · exact List.mem_append_left _ (List.mem_append_left _ (within.subset copy))
          · rcases List.mem_cons.mp popped with rfl | later
            · exact List.mem_append_left _ (List.mem_append_right _ (List.mem_singleton_self _))
            · exact returned other later
        · rw [List.length_cons, Nat.succ_inj]
          exact last

/-! ### The candidates that are pushed -/

/-- The positions under the characters of a text, character by character. -/
def soughtPositions (index : Index) (text : List Char) : List Int :=
  text.flatMap fun letter => value index (String.utf8EncodeChar letter)

/-- What a query pushes. -/
theorem map_candidates {dictionary : Dictionary} {text : List Char} {pushed : List CandidateResult}
    (pushes : (dictionary.candidates (encode text)).2 = .ok pushed) :
    (soughtPositions dictionary.index text).map
      (Dictionary.candidateAt dictionary.dict (encode text)) = pushed.map .ok := by
  rw [Dictionary.candidates, splitSought_encode] at pushes
  have mapped := map_pushCandidates pushes
  rwa [List.flatMap_map] at mapped

/-- A word of the dictionary that is indexed under a character of the query, with its frequency
and its edit distance to the query. -/
def IsCandidate (dictionary : Dictionary) (text : List Char) (candidate : CandidateResult) : Prop :=
  ∃ letter ∈ text, ∃ position ∈ value dictionary.index (String.utf8EncodeChar letter),
    Dictionary.entryAt dictionary.dict position = .ok (candidate.word, candidate.fre) ∧
    MinEditDist.editDistance (encode text) candidate.word = .ok candidate.dis

/-- The candidates are the elements that are pushed. -/
theorem isCandidate_iff_mem {dictionary : Dictionary} {text : List Char}
    {pushed : List CandidateResult}
    (pushes : (dictionary.candidates (encode text)).2 = .ok pushed) {candidate : CandidateResult} :
    IsCandidate dictionary text candidate ↔ candidate ∈ pushed := by
  have mapped : (Except.ok candidate : Except Fault CandidateResult) ∈ pushed.map .ok ↔
      candidate ∈ pushed := List.mem_map_of_injective fun _ _ same => Except.ok.inj same
  rw [← mapped, ← map_candidates pushes, List.mem_map]
  simp only [soughtPositions, List.mem_flatMap, candidateAt_eq_ok_iff, IsCandidate]
  constructor
  · rintro ⟨letter, among, position, under, found⟩
    exact ⟨position, ⟨letter, among, under⟩, found⟩
  · rintro ⟨position, ⟨letter, among, under⟩, found⟩
    exact ⟨letter, among, position, under, found⟩

/-! ### The ranking -/

/-- A query that runs to completion: what is pushed, and the selection over the order of popping. -/
theorem doQuery_eq_ok {que : PriorityQueue CandidateResult.less} {dictionary next : Dictionary}
    {sought : Bytes} {ret : List Bytes} (ended : dictionary.doQuery que sought = (next, .ok ret)) :
    ∃ pushed, (dictionary.candidates sought).2 = .ok pushed ∧
      pickWords 5 (wordOrder que (que.pushAll pushed)) [] = (ret, none) := by
  have result : (dictionary.doQuery que sought).2 = .ok ret := by rw [ended]
  rw [Dictionary.doQuery, Dictionary.select] at result
  obtain ⟨⟨words, fault⟩, selected, result⟩ := bind_eq_ok.mp result
  obtain ⟨pushed, pushes, selected⟩ := map_eq_ok.mp selected
  refine ⟨pushed, pushes, ?_⟩
  rw [← selectLoop_eq_pickWords, selected]
  cases fault with
  | none => rw [Except.ok.inj result]
  | some fault => cases result

/-- A candidate that ranks strictly better than another: it is closer to the query, or as close
and more frequent. -/
def RanksBefore (candidate other : CandidateResult) : Prop :=
  candidate.dis < other.dis ∨ candidate.dis = other.dis ∧ other.fre < candidate.fre

theorem ranksBefore_iff_less {candidate other : CandidateResult} :
    RanksBefore candidate other ↔ CandidateResult.less other candidate := by
  rw [RanksBefore, CandidateResult.less]
  split_ifs with different
  · rw [decide_eq_true_iff]
    omega
  · rw [decide_eq_true_iff]
    omega

/-- The returned words with their frequencies and distances are the best of the candidates. -/
structure Ranking (dictionary : Dictionary) (text : List Char) (ret : List Bytes)
    (kept : List CandidateResult) : Prop where
  words : ret = kept.map CandidateResult.word
  indexed : ∀ candidate ∈ kept, IsCandidate dictionary text candidate
  /-- the distances do not decrease, and at equal distance the frequencies do not increase -/
  ordered : kept.Pairwise fun first second =>
    first.dis < second.dis ∨ first.dis = second.dis ∧ second.fre ≤ first.fre
  /-- a candidate whose word is missing ranks before none that was returned -/
  best : ∀ missing, IsCandidate dictionary text missing → missing.word ∉ ret →
    ∀ candidate ∈ kept, ¬ RanksBefore missing candidate
  /-- fewer than five words are all there are -/
  complete : ret.length < 5 → ∀ candidate, IsCandidate dictionary text candidate →
    candidate.word ∈ ret

/-- A query that runs to completion returns the best candidates in order, for every dictionary,
every index and every way of breaking ties. -/
theorem doQuery_ranks {que : PriorityQueue CandidateResult.less} {dictionary next : Dictionary}
    {text : List Char} {ret : List Bytes}
    (ended : dictionary.doQuery que (encode text) = (next, .ok ret)) :
    ∃ kept, Ranking dictionary text ret kept := by
  obtain ⟨pushed, pushes, picked⟩ := doQuery_eq_ok ended
  have order_mem (candidate : CandidateResult) :
      candidate ∈ que.drained (que.pushAll pushed) ↔ IsCandidate dictionary text candidate := by
    rw [PriorityQueue.mem_drained_pushAll, isCandidate_iff_mem pushes]
  have descending := PriorityQueue.descending_drained (que.pushAll pushed)
  obtain ⟨poppedWords, restWords, new, split, result, sublist, returned, last⟩ :=
    pickWords_completes picked
  rw [List.nil_append] at result
  obtain ⟨popped, rest, order, rfl, rfl⟩ := List.map_eq_append_iff.mp split
  obtain ⟨kept, within, words⟩ := List.sublist_map_iff.mp sublist
  rw [order] at descending order_mem
  obtain ⟨poppedOrder, -, behind⟩ := List.pairwise_append.mp descending
  refine ⟨kept, result.trans words, ?_, ?_, ?_, ?_⟩
  · intro candidate member
    exact (order_mem candidate).mp (List.mem_append_left _ (within.subset member))
  · refine (poppedOrder.sublist within).imp fun {first second} notLess => ?_
    rw [← ranksBefore_iff_less, RanksBefore] at notLess
    omega
  · intro missing isCandidate absent candidate member
    rw [ranksBefore_iff_less]
    rcases List.mem_append.mp ((order_mem missing).mpr isCandidate) with early | late
    · exact absurd (returned _ (List.mem_map_of_mem early)) absent
    · exact behind candidate (within.subset member) missing late
  · intro few candidate isCandidate
    have nothing : rest = [] := by
      rw [result] at few
      exact List.map_eq_nil_iff.mp (last.resolve_right (by omega))
    rw [nothing, List.append_nil] at order_mem
    exact returned _ (List.mem_map_of_mem ((order_mem candidate).mpr isCandidate))

/-- The query `b` to the sample dictionary, of which it has two words. -/
theorem sample_completes :
    ∃ index next, DictProducer.createIndex (sampleWords.map encodeEntry) = .ok index ∧
      (⟨sampleWords.map encodeEntry, index⟩ : Dictionary).doQuery orderedQueue (encode ['b']) =
        (next, .ok [[98], [97, 98]]) := by
  refine ⟨_, _, rfl, Prod.ext rfl ?_⟩
  decide +kernel

theorem doQuery_ranks_sample :
    ∃ index kept, DictProducer.createIndex (sampleWords.map encodeEntry) = .ok index ∧
      Ranking ⟨sampleWords.map encodeEntry, index⟩ ['b'] [[98], [97, 98]] kept := by
  obtain ⟨index, next, created, ended⟩ := sample_completes
  obtain ⟨kept, ranking⟩ := doQuery_ranks ended
  exact ⟨index, kept, created, ranking⟩

end SearchEngine
