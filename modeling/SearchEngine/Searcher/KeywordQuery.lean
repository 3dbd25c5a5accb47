/-
This file determines for which tables and queries the searcher collects exactly
the documents that contain every keyword.

A query of several pieces collects, for each later piece, the documents it has in
common with the first piece. A document is therefore collected once for every
later piece it is posted under, whether or not it is posted under the others,
and a space too many adds an empty piece that takes part like a keyword. The
main theorem states exactly when this comes to the documents under all keywords,
each collected once.
-/

import SearchEngine.Searcher.WebPageSearcher

namespace SearchEngine

open Containers

variable {Weight : Type}

/-! ### The pieces of a query -/

theorem splitKeys_eq (key tmp : Bytes) :
    splitKeys key tmp = List.splitOnPPrepend (· == space) key tmp.reverse := by
  induction key generalizing tmp with
  | nil => simp [splitKeys]
  | cons byte key inductionHypothesis =>
    by_cases blank : byte = space
    · rw [splitKeys, if_neg (not_not.mpr blank), inductionHypothesis,
        List.splitOnPPrepend_cons_pos (by simpa using blank), List.reverse_reverse]
      rfl
    · rw [splitKeys, if_pos blank, inductionHypothesis, List.reverse_append,
        List.splitOnPPrepend_cons_neg (by simpa using blank)]
      rfl

/-- The pieces between the spaces of a query. -/
def pieces (query : Bytes) : List Bytes := query.splitOn space

/-- The maximal runs of bytes other than the space. -/
def keywords (query : Bytes) : List Bytes := (pieces query).filter (· ≠ [])

theorem splitKeys_nil (query : Bytes) : splitKeys query [] = pieces query := splitKeys_eq query []

theorem pieces_ne_nil (query : Bytes) : pieces query ≠ [] := List.splitOnP_ne_nil _ _

/-- A query that is one piece has no space. -/
theorem pieces_eq_singleton {query piece : Bytes} (single : pieces query = [piece]) :
    piece = query := by
  have joined : [space].intercalate (pieces query) = query := List.intercalate_splitOn space
  rw [single] at joined
  simpa using joined

/-- A query of at most one piece is that piece. -/
theorem pieces_of_few {query : Bytes} (few : ¬ (pieces query).length > 1) :
    pieces query = [query] := by
  obtain ⟨first, later, split⟩ := List.exists_cons_of_ne_nil (pieces_ne_nil query)
  have single : later = [] := by
    rw [split, List.length_cons] at few
    exact List.length_eq_zero_iff.mp (by omega)
  rw [single] at split
  rw [split, pieces_eq_singleton split]

/-! ### The documents under a keyword -/

/-- The documents a keyword is posted for. -/
def ids (table : InvertIndexTable Weight) (word : Bytes) : List Int :=
  (value table word).map Posting.id

/-- No keyword has two postings for one document. -/
def OncePerDocument (table : InvertIndexTable Weight) : Prop := ∀ word, (ids table word).Nodup

/-- The document is posted under every one of the words. -/
def ContainsAll (table : InvertIndexTable Weight) (words : List Bytes) (id : Int) : Prop :=
  ∀ word ∈ words, id ∈ ids table word

instance (table : InvertIndexTable Weight) (words : List Bytes) (id : Int) :
    Decidable (ContainsAll table words id) :=
  inferInstanceAs (Decidable (∀ word ∈ words, id ∈ ids table word))

theorem oncePerDocument_of_entries {table : InvertIndexTable Weight}
    (nodup : ∀ entry ∈ table.entries, (entry.2.map Posting.id).Nodup) : OncePerDocument table := by
  intro word
  rw [ids, value]
  cases found : table.lookup word with
  | none => exact List.nodup_nil
  | some postings => exact nodup ⟨word, postings⟩ (AList.mem_lookup_iff.mp found)

@[simp] theorem postings_snd (searcher : WebPageSearcher Weight) (key : Bytes) :
    (searcher.postings key).2 = value searcher.invertIndexTable key := by
  rw [WebPageSearcher.postings]
  exact subscript_snd searcher.invertIndexTable key

@[simp] theorem value_postings (searcher : WebPageSearcher Weight) (key : Bytes) :
    value (searcher.postings key).1.invertIndexTable = value searcher.invertIndexTable := by
  rw [WebPageSearcher.postings]
  exact value_subscript searcher.invertIndexTable key

/-- Two searchers whose maps read alike. -/
structure WebPageSearcher.ReadsAs (searcher other : WebPageSearcher Weight) : Prop where
  offset : value searcher.offset = value other.offset
  table : value searcher.invertIndexTable = value other.invertIndexTable

theorem WebPageSearcher.ReadsAs.trans {first second third : WebPageSearcher Weight}
    (left : first.ReadsAs second) (right : second.ReadsAs third) : first.ReadsAs third :=
  ⟨left.offset.trans right.offset, left.table.trans right.table⟩

theorem postings_readsAs (searcher : WebPageSearcher Weight) (key : Bytes) :
    (searcher.postings key).1.ReadsAs searcher := ⟨rfl, value_postings searcher key⟩

/-! ### What the searcher collects -/

/-- The ids `multiQuery` collects. -/
def common (table : InvertIndexTable Weight) (first : Bytes) (later : List Bytes) : List Int :=
  later.flatMap fun piece => (ids table piece).filter (· ∈ ids table first)

theorem multiQueryLoop_spec (firstKeyId : List Int) (searcher : WebPageSearcher Weight)
    (keys : List Bytes) (retId : List Int) :
    (WebPageSearcher.multiQueryLoop firstKeyId searcher keys retId).1.ReadsAs searcher ∧
      (WebPageSearcher.multiQueryLoop firstKeyId searcher keys retId).2 =
        retId ++ keys.flatMap fun key =>
          (ids searcher.invertIndexTable key).filter (· ∈ firstKeyId) := by
  induction keys generalizing searcher retId with
  | nil => exact ⟨⟨rfl, rfl⟩, (List.append_nil retId).symm⟩
  | cons key keys inductionHypothesis =>
    obtain ⟨reads, collected⟩ := inductionHypothesis (searcher.postings key).1 (retId ++
      (ids searcher.invertIndexTable key).filter (· ∈ firstKeyId))
    simp only [WebPageSearcher.multiQueryLoop, postings_snd]
    rw [← ids]
    refine ⟨reads.trans (postings_readsAs searcher key), ?_⟩
    rw [collected, List.flatMap_cons, List.append_assoc]
    simp only [ids, value_postings]

/-- The ids the searcher collects. -/
def collectedIds (table : InvertIndexTable Weight) (query : Bytes) : List Int :=
  match pieces query with
  | [] => []
  | [_] => ids table query
  | first :: later => common table first later

theorem collectedIds_congr {searcher other : WebPageSearcher Weight}
    (reads : searcher.ReadsAs other) :
    collectedIds searcher.invertIndexTable = collectedIds other.invertIndexTable := by
  have same : ids searcher.invertIndexTable = ids other.invertIndexTable := by
    funext word
    rw [ids, ids, reads.table]
  unfold collectedIds common
  rw [same]

theorem collectedIds_single {table : InvertIndexTable Weight} {query piece : Bytes}
    (single : pieces query = [piece]) : collectedIds table query = ids table query := by
  rw [collectedIds, single]

theorem collectedIds_multi {table : InvertIndexTable Weight} {query first : Bytes}
    {later : List Bytes} (several : pieces query = first :: later) (nonempty : later ≠ []) :
    collectedIds table query = common table first later := by
  obtain ⟨second, rest, rfl⟩ := List.exists_cons_of_ne_nil nonempty
  rw [collectedIds, several]

theorem collect_eq_ok (searcher : WebPageSearcher Weight) (query : Bytes) :
    ∃ next, next.ReadsAs searcher ∧ searcher.collect query =
      .ok (next, pieces query, collectedIds searcher.invertIndexTable query) := by
  obtain ⟨first, later, split⟩ := List.exists_cons_of_ne_nil (pieces_ne_nil query)
  by_cases single : later = []
  · rw [single] at split
    have one : (splitKeys query []).length = 0 ∨ (splitKeys query []).length = 1 :=
      Or.inr (by rw [splitKeys_nil, split]; rfl)
    refine ⟨(searcher.postings query).1, postings_readsAs searcher query, ?_⟩
    rw [WebPageSearcher.collect, if_pos one, splitKeys_nil, collectedIds_single split]
    simp only [WebPageSearcher.singleQuery, postings_snd]
    rfl
  · have many : ¬ ((splitKeys query []).length = 0 ∨ (splitKeys query []).length = 1) := by
      rw [splitKeys_nil, split, List.length_cons]
      have positive := List.length_pos_iff.mpr single
      omega
    obtain ⟨reads, collected⟩ := multiQueryLoop_spec (ids searcher.invertIndexTable first)
      (searcher.postings first).1 later []
    refine ⟨_, reads.trans (postings_readsAs searcher first), ?_⟩
    rw [WebPageSearcher.collect, if_neg many, splitKeys_nil, collectedIds_multi split single, split,
      WebPageSearcher.multiQuery]
    simp only [postings_snd, ok_bind, pure_eq_ok]
    refine congrArg Except.ok (Prod.ext rfl (Prod.ext rfl ?_))
    rw [← ids, collected, List.nil_append, common]
    simp only [ids, value_postings]

/-- How often a document is collected. -/
theorem count_common {table : InvertIndexTable Weight} (once : OncePerDocument table)
    (first : Bytes) (later : List Bytes) (id : Int) :
    (common table first later).count id =
      if id ∈ ids table first then later.countP (id ∈ ids table ·) else 0 := by
  induction later with
  | nil => simp [common]
  | cons piece later inductionHypothesis =>
    have front : ((ids table piece).filter (· ∈ ids table first)).count id =
        if id ∈ ids table first then (if id ∈ ids table piece then 1 else 0) else 0 := by
      by_cases posted : id ∈ ids table first
      · rw [List.count_filter (by simpa using posted), if_pos posted]
        by_cases under : id ∈ ids table piece
        · rw [if_pos under, List.count_eq_one_of_mem (once piece) under]
        · rw [if_neg under, List.count_eq_zero_of_not_mem under]
      · rw [if_neg posted]
        refine List.count_eq_zero_of_not_mem fun member => posted ?_
        simpa using (List.mem_filter.mp member).2
    rw [common, List.flatMap_cons, List.count_append, front, ← common, inductionHypothesis,
      List.countP_cons]
    split_ifs <;> simp_all [Nat.add_comm]

/-! ### When the collection is exact -/

/-- The documents that contain every keyword, each collected once. -/
def CollectsExactly (table : InvertIndexTable Weight) (words : List Bytes) (calcId : List Int) :
    Prop :=
  calcId.Nodup ∧ ∀ id, id ∈ calcId ↔ ContainsAll table words id

theorem collectsExactly_iff_count {table : InvertIndexTable Weight} {words : List Bytes}
    {calcId : List Int} :
    CollectsExactly table words calcId ↔
      ∀ id, calcId.count id = if ContainsAll table words id then 1 else 0 := by
  constructor
  · rintro ⟨nodup, members⟩ id
    by_cases all : ContainsAll table words id
    · rw [if_pos all, List.count_eq_one_of_mem nodup ((members id).mpr all)]
    · rw [if_neg all, List.count_eq_zero_of_not_mem (fun member => all ((members id).mp member))]
  · intro counts
    refine ⟨List.nodup_iff_count_le_one.mpr fun id => ?_, fun id => ?_⟩
    · rw [counts id]
      split_ifs <;> omega
    · rw [← List.count_pos_iff, counts id]
      split_ifs with all <;> simp [all]

/-- The condition on a query of several pieces. -/
structure PiecesAgree (table : InvertIndexTable Weight) (words : List Bytes) (first : Bytes)
    (later : List Bytes) : Prop where
  /-- no document under the first piece is under two of the later ones -/
  once : ∀ id ∈ ids table first, later.countP (id ∈ ids table ·) ≤ 1
  /-- a document under the first piece and a later one contains every keyword -/
  sound : ∀ id ∈ ids table first, ∀ piece ∈ later, id ∈ ids table piece →
    ContainsAll table words id
  /-- a document that contains every keyword is under the first piece and a later one -/
  complete : ∀ id, ContainsAll table words id →
    id ∈ ids table first ∧ ∃ piece ∈ later, id ∈ ids table piece

theorem collectsExactly_common_iff {table : InvertIndexTable Weight}
    (once : OncePerDocument table) {words : List Bytes} {first : Bytes} {later : List Bytes} :
    CollectsExactly table words (common table first later) ↔
      PiecesAgree table words first later := by
  rw [collectsExactly_iff_count]
  have counted (id : Int) := count_common once first later id
  constructor
  · intro counts
    refine ⟨fun id posted => ?_, fun id posted piece member under => ?_, fun id all => ?_⟩
    · have count := counts id
      rw [counted, if_pos posted] at count
      rw [count]
      split_ifs <;> omega
    · by_contra missing
      have count := counts id
      rw [counted, if_pos posted, if_neg missing, List.countP_eq_zero] at count
      exact count piece member (by simpa using under)
    · have count := counts id
      rw [counted, if_pos all] at count
      split_ifs at count with posted
      have positive : 0 < later.countP (id ∈ ids table ·) := by omega
      obtain ⟨piece, member, under⟩ := List.countP_pos_iff.mp positive
      exact ⟨posted, piece, member, by simpa using under⟩
  · rintro ⟨atMostOne, sound, complete⟩ id
    rw [counted]
    by_cases all : ContainsAll table words id
    · obtain ⟨posted, piece, member, under⟩ := complete id all
      have positive : 0 < later.countP (id ∈ ids table ·) :=
        List.countP_pos_iff.mpr ⟨piece, member, by simpa using under⟩
      rw [if_pos all, if_pos posted]
      exact Nat.le_antisymm (atMostOne id posted) positive
    · rw [if_neg all]
      split_ifs with posted
      · refine List.countP_eq_zero.mpr fun piece member under => all ?_
        exact sound id posted piece member (by simpa using under)
      · rfl

/-- Two keywords with one space between them. -/
theorem piecesAgree_pair (table : InvertIndexTable Weight) (first second : Bytes) :
    PiecesAgree table [first, second] first [second] where
  once id _ := by
    rw [List.countP_singleton]
    split_ifs <;> omega
  sound id posted piece member under := by
    rw [List.mem_singleton] at member
    subst member
    intro word among
    rcases List.mem_pair.mp among with rfl | rfl
    · exact posted
    · exact under
  complete id all :=
    ⟨all first (by simp), second, List.mem_singleton_self second, all second (by simp)⟩

/-- The searcher collects exactly the documents that contain every keyword, each once, if and only
if the query has no space or its pieces agree. -/
theorem collect_exact_iff {searcher : WebPageSearcher Weight}
    (once : OncePerDocument searcher.invertIndexTable) {query : Bytes}
    (nonblank : ∃ byte ∈ query, byte ≠ space) :
    ∃ next keys calcId, searcher.collect query = .ok (next, keys, calcId) ∧
      (CollectsExactly searcher.invertIndexTable (keywords query) calcId ↔
        ∀ first later, pieces query = first :: later →
          later = [] ∨ PiecesAgree searcher.invertIndexTable (keywords query) first later) := by
  obtain ⟨next, -, collected⟩ := collect_eq_ok searcher query
  refine ⟨next, _, _, collected, ?_⟩
  obtain ⟨first, later, split⟩ := List.exists_cons_of_ne_nil (pieces_ne_nil query)
  by_cases single : later = []
  · rw [single] at split
    rw [collectedIds_single split]
    refine iff_of_true ⟨once query, fun id => ?_⟩ ?_
    · have nonempty : query ≠ [] := by
        obtain ⟨byte, member, -⟩ := nonblank
        exact List.ne_nil_of_mem member
      have words : keywords query = [query] := by
        rw [keywords, split, pieces_eq_singleton split]
        simp [nonempty]
      simp [words, ContainsAll]
    · intro other others same
      rw [split] at same
      exact Or.inl (List.cons.inj same).2.symm
  · rw [collectedIds_multi split single, collectsExactly_common_iff once]
    constructor
    · intro agree other others same
      rw [split] at same
      obtain ⟨rfl, rfl⟩ := List.cons.inj same
      exact Or.inr agree
    · intro condition
      exact (condition first later split).resolve_left single

/-- A searcher without pages whose table has, under each of some words, one posting for each of
some documents. -/
def plainSearcher (entries : List (Bytes × List Int)) : WebPageSearcher Nat where
  offset := ∅
  invertIndexTable := entries.foldr
    (fun entry table => table.insert entry.1 (entry.2.map fun id => ⟨id, 1, 0⟩)) ∅

/-- Two documents that contain `a`, of which one contains `b`. -/
def twoDocuments : WebPageSearcher Nat := plainSearcher [([97], [1, 2]), ([98], [2])]

/-- The query `a b` over these documents. -/
theorem collect_exact_twoDocuments :
    ∃ next keys calcId, twoDocuments.collect [97, 32, 98] = .ok (next, keys, calcId) ∧
      (CollectsExactly twoDocuments.invertIndexTable (keywords [97, 32, 98]) calcId ↔
        ∀ first later, pieces [97, 32, 98] = first :: later → later = [] ∨
          PiecesAgree twoDocuments.invertIndexTable (keywords [97, 32, 98]) first later) :=
  collect_exact_iff (oncePerDocument_of_entries (by decide)) ⟨97, by decide, by decide⟩

/-- One document that contains the words `a`, `b` and `c`. -/
def sharedDocument : WebPageSearcher Nat := plainSearcher [([97], [1]), ([98], [1]), ([99], [1])]

/-- The query `a b c` collects the document twice. -/
theorem collect_repeats_document :
    OncePerDocument sharedDocument.invertIndexTable ∧
    ∃ next keys calcId,
      sharedDocument.collect [97, 32, 98, 32, 99] = .ok (next, keys, calcId) ∧
      ¬ CollectsExactly sharedDocument.invertIndexTable (keywords [97, 32, 98, 32, 99]) calcId := by
  refine ⟨oncePerDocument_of_entries (by decide), ?_⟩
  obtain ⟨next, -, collected⟩ := collect_eq_ok sharedDocument [97, 32, 98, 32, 99]
  refine ⟨next, _, _, collected, fun exact => ?_⟩
  have repeated : collectedIds sharedDocument.invertIndexTable [97, 32, 98, 32, 99] = [1, 1] := by
    decide
  rw [repeated] at exact
  exact absurd exact.1 (by decide)

end SearchEngine
