/-
This file determines when the scores of a query of several pieces are computed
inside their arrays.

The query has one weight for each piece, and a document one for each piece it is
posted under. The loop over the two arrays runs over the pieces, so it leaves the
document's array when the document is missing under a piece. What `multiQuery`
collects is posted under the first piece and a later one, which says nothing
about the others.
-/

import SearchEngine.Searcher.Answer

namespace SearchEngine

open Containers

variable {Weight : Type}

/-! ### One weight for each piece -/

/-- A document has as many weights as there are pieces it is posted under. -/
theorem length_weightsUnder {table : InvertIndexTable Weight} (once : OncePerDocument table)
    (keys : List Bytes) (id : Int) :
    (weightsUnder table keys id).length = keys.countP (id ∈ ids table ·) := by
  induction keys with
  | nil => rfl
  | cons key keys inductionHypothesis =>
    have front : (((value table key).filter (·.id = id)).map Posting.weight).length =
        if id ∈ ids table key then 1 else 0 := by
      have posted : ((value table key).filter (·.id = id)).length = (ids table key).count id := by
        rw [ids, List.count_eq_countP, List.countP_map, List.countP_eq_length_filter]
        rfl
      rw [List.length_map, posted]
      split_ifs with under
      · exact List.count_eq_one_of_mem (once key) under
      · exact List.count_eq_zero_of_not_mem under
    rw [weightsUnder, List.flatMap_cons, List.length_append, front, ← weightsUnder,
      inductionHypothesis, List.countP_cons, Nat.add_comm]
    simp

/-- A document has one weight for each piece exactly when it is posted under all of them. -/
theorem length_weightsUnder_eq_iff {table : InvertIndexTable Weight} (once : OncePerDocument table)
    (keys : List Bytes) (id : Int) :
    (weightsUnder table keys id).length = keys.length ↔ ContainsAll table keys id := by
  rw [length_weightsUnder once, List.countP_eq_length]
  simp [ContainsAll]

section Scores

variable [Arithmetic Weight]

/-- The loop over the weights ends exactly when the document has enough of them. -/
theorem productLoop_isOk_iff (wArr obwArr : List Weight) (XY modX modY : Weight) :
    (∃ sums, productLoop wArr obwArr XY modX modY = .ok sums) ↔ wArr.length ≤ obwArr.length := by
  induction wArr generalizing obwArr XY modX modY with
  | nil => simp [productLoop]
  | cons w wArr inductionHypothesis =>
    cases obwArr with
    | nil => simp [productLoop]
    | cons obw obwArr =>
      rw [productLoop, inductionHypothesis, List.length_cons, List.length_cons]
      omega

theorem cosine_isOk_iff (wArr obwArr : List Weight) :
    (∃ cos, cosine wArr obwArr = .ok cos) ↔ wArr.length ≤ obwArr.length := by
  rw [← productLoop_isOk_iff wArr obwArr (Arithmetic.ofInt 0) (Arithmetic.ofInt 0)
    (Arithmetic.ofInt 0)]
  constructor
  · rintro ⟨cos, ended⟩
    obtain ⟨sums, ended, -⟩ := bind_eq_ok.mp ended
    exact ⟨sums, ended⟩
  · rintro ⟨sums, ended⟩
    exact ⟨_, by rw [cosine, ended, ok_bind]; rfl⟩

/-! ### When the arrays agree -/

/-- The weights `simCalc` computes for a document are one for each key, and the score is computed
inside the arrays, in whatever state that reads alike the loop has come to. -/
def Aligned (searcher : WebPageSearcher Weight) (keys : List Bytes) (id : Int) : Prop :=
  ∀ state : WebPageSearcher Weight, state.ReadsAs searcher →
    (state.documentWeights id keys).2.length = keys.length ∧
      ∃ cos, cosine (queryWeights Weight keys.length) (state.documentWeights id keys).2 = .ok cos

theorem aligned_iff {searcher : WebPageSearcher Weight}
    (once : OncePerDocument searcher.invertIndexTable) (keys : List Bytes) (id : Int) :
    Aligned searcher keys id ↔ ContainsAll searcher.invertIndexTable keys id := by
  rw [← length_weightsUnder_eq_iff once]
  have weights {state : WebPageSearcher Weight} (reads : state.ReadsAs searcher) :
      (state.documentWeights id keys).2 = weightsUnder searcher.invertIndexTable keys id := by
    rw [(documentWeights_spec id state keys).2, weightsUnder, weightsUnder, reads.table]
  constructor
  · intro aligned
    rw [← weights ⟨rfl, rfl⟩]
    exact (aligned searcher ⟨rfl, rfl⟩).1
  · intro length state reads
    rw [weights reads, cosine_isOk_iff, queryWeights, List.length_replicate, length]
    exact ⟨rfl, le_refl _⟩

end Scores

/-- A document that is under the first piece and a later one is under all of the later ones. -/
def SharedByAll (table : InvertIndexTable Weight) (first : Bytes) (later : List Bytes) : Prop :=
  ∀ id ∈ ids table first, (∃ piece ∈ later, id ∈ ids table piece) → ContainsAll table later id

instance (table : InvertIndexTable Weight) (first : Bytes) (later : List Bytes) :
    Decidable (SharedByAll table first later) :=
  inferInstanceAs (Decidable (∀ id ∈ ids table first, _ → _))

/-- This is so when there are two pieces. -/
theorem sharedByAll_pair (table : InvertIndexTable Weight) (first second : Bytes) :
    SharedByAll table first [second] := by
  rintro id - ⟨piece, member, under⟩ word among
  rw [List.mem_singleton] at member among
  rwa [among, ← member]

theorem mem_common {table : InvertIndexTable Weight} {first : Bytes} {later : List Bytes}
    {id : Int} : id ∈ common table first later ↔
      id ∈ ids table first ∧ ∃ piece ∈ later, id ∈ ids table piece := by
  rw [common, List.mem_flatMap]
  constructor
  · rintro ⟨piece, among, member⟩
    obtain ⟨under, posted⟩ := List.mem_filter.mp member
    exact ⟨by simpa using posted, piece, among, under⟩
  · rintro ⟨posted, piece, among, under⟩
    exact ⟨piece, among, List.mem_filter.mpr ⟨under, by simpa using posted⟩⟩

/-- The documents that are collected are under all pieces exactly when they are shared by all. -/
theorem containsAll_collected_iff {table : InvertIndexTable Weight} {query first : Bytes}
    {later : List Bytes} (split : pieces query = first :: later) (several : later ≠ []) :
    (∀ id ∈ collectedIds table query, ContainsAll table (pieces query) id) ↔
      SharedByAll table first later := by
  rw [collectedIds_multi split several, split]
  constructor
  · intro all id posted shared word member
    exact all id (mem_common.mpr ⟨posted, shared⟩) word (List.mem_cons_of_mem _ member)
  · intro shared id collected word member
    obtain ⟨posted, another⟩ := mem_common.mp collected
    rcases List.mem_cons.mp member with rfl | among
    · exact posted
    · exact shared id posted another word among

section Scores

variable [Arithmetic Weight]

/-- What a query collects, and for which documents the arrays agree. -/
theorem collect_aligned {searcher : WebPageSearcher Weight}
    (once : OncePerDocument searcher.invertIndexTable) (query : Bytes) :
    ∃ next, searcher.collect query =
        .ok (next, pieces query, collectedIds searcher.invertIndexTable query) ∧
      ∀ id, Aligned next (pieces query) id ↔
        ContainsAll searcher.invertIndexTable (pieces query) id := by
  obtain ⟨next, reads, collected⟩ := collect_eq_ok searcher query
  have sameIds : ids next.invertIndexTable = ids searcher.invertIndexTable := by
    funext word
    rw [ids, ids, reads.table]
  have nextOnce : OncePerDocument next.invertIndexTable := by
    intro word
    rw [sameIds]
    exact once word
  refine ⟨next, collected, fun id => ?_⟩
  rw [aligned_iff nextOnce, ContainsAll, ContainsAll, sameIds]

/-- For a query of several pieces, the scores of all collected documents are computed with one
weight for each piece exactly when every document under the first piece and a later one is under
all of them. -/
theorem scores_aligned_iff {searcher : WebPageSearcher Weight}
    (once : OncePerDocument searcher.invertIndexTable) {query first : Bytes} {later : List Bytes}
    (split : splitKeys query [] = first :: later) (several : later ≠ []) :
    ∃ next keys calcId, searcher.collect query = .ok (next, keys, calcId) ∧
      ((∀ id ∈ calcId, Aligned next keys id) ↔
        SharedByAll searcher.invertIndexTable first later) := by
  rw [splitKeys_nil] at split
  obtain ⟨next, collected, aligned⟩ := collect_aligned once query
  refine ⟨next, _, _, collected, ?_⟩
  rw [← containsAll_collected_iff split several]
  exact forall₂_congr fun id _ => aligned id

end Scores

/-- The query `a b` over two documents. -/
theorem scores_aligned_twoDocuments :
    letI := wholeNumbers
    ∃ next keys calcId, twoDocuments.collect [97, 32, 98] = .ok (next, keys, calcId) ∧
      ((∀ id ∈ calcId, Aligned next keys id) ↔
        SharedByAll twoDocuments.invertIndexTable [97] [[98]]) := by
  let := wholeNumbers
  exact scores_aligned_iff (oncePerDocument_of_entries (by decide)) (by decide) (by simp)

/-- A document that contains the words `a` and `b`. -/
def incompleteDocument : WebPageSearcher Nat := plainSearcher [([97], [1]), ([98], [1])]

/-- The query `a b c` collects the document, which has two weights for the three pieces. -/
theorem incompleteDocument_misaligned :
    letI := wholeNumbers
    OncePerDocument incompleteDocument.invertIndexTable ∧
    ∃ next keys calcId,
      incompleteDocument.collect [97, 32, 98, 32, 99] = .ok (next, keys, calcId) ∧
      ¬ ∀ id ∈ calcId, Aligned next keys id := by
  let := wholeNumbers
  have once : OncePerDocument incompleteDocument.invertIndexTable :=
    oncePerDocument_of_entries (by decide)
  obtain ⟨next, collected, aligned⟩ := collect_aligned once [97, 32, 98, 32, 99]
  refine ⟨once, next, _, _, collected, fun all => ?_⟩
  have missing : ¬ ContainsAll incompleteDocument.invertIndexTable
      (pieces [97, 32, 98, 32, 99]) 1 := by decide
  exact missing ((aligned 1).mp (all 1 (by decide)))

end SearchEngine
