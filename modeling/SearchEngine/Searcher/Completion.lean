/-
This file determines when a query of the searcher returns.

A document that is collected must have a weight for every piece of the query, or
the scoring leaves its array, and its page must be there to be read. Where the
texts of the pages are valid nothing else goes wrong: the windows are cut between
characters, and the writer accepts them.
-/

import SearchEngine.Searcher.Exceptions
import SearchEngine.Searcher.ScoreBounds
import SearchEngine.Searcher.SnippetStream

namespace SearchEngine

open Containers Utf8

/-! ### Documents that are collected -/

section Documents

variable {Weight : Type}

/-- A document has at least as many postings under the pieces as there are pieces. -/
def Weighed (table : InvertIndexTable Weight) (keys : List Bytes) (id : Int) : Prop :=
  keys.length ≤ (weightsUnder table keys id).length

theorem weighed_of_containsAll {table : InvertIndexTable Weight} (once : OncePerDocument table)
    {keys : List Bytes} {id : Int} (under : ContainsAll table keys id) : Weighed table keys id :=
  ((length_weightsUnder_eq_iff once keys id).mpr under).ge

/-- A document under the only piece of a query has a weight for it. -/
theorem weighed_of_single {table : InvertIndexTable Weight} {key : Bytes} {id : Int}
    (under : id ∈ ids table key) : Weighed table [key] id := by
  obtain ⟨posting, among, same⟩ := List.mem_map.mp under
  have counted : posting ∈ (value table key).filter (·.id = id) :=
    List.mem_filter.mpr ⟨among, by simpa using same⟩
  rw [Weighed, weightsUnder, List.flatMap_singleton, List.length_map, List.length_singleton]
  exact List.length_pos_of_mem counted

end Documents

/-! ### Queries that are scored -/

section Scores

variable {Weight : Type} [Arithmetic Weight] {source : PageSource}
  {searcher : WebPageSearcher Weight}

theorem scorable_iff {table : InvertIndexTable Weight} {keys : List Bytes} {id : Int} :
    (∃ cos, cosine (queryWeights Weight keys.length) (weightsUnder table keys id) = .ok cos) ↔
      Weighed table keys id := by
  rw [cosine_isOk_iff, queryWeights, List.length_replicate]
  rfl

/-- A page is inserted exactly when it is stored, and the loop goes on from a searcher that reads
alike. -/
theorem getWebPageSet_bind_isOk_iff {id : Int} {cos : Weight} {webPageSet : List (WebPage Weight)}
    {Result : Type}
    {rest : WebPageSearcher Weight × List (WebPage Weight) → Except Fault Result}
    {property : Prop}
    (later : ∀ next, next.1.ReadsAs searcher → ((∃ result, rest next = .ok result) ↔ property)) :
    (∃ result, (searcher.getWebPageSet source id cos webPageSet >>= rest) = .ok result) ↔
      (∃ page, storedPage source searcher id = .ok page) ∧ property := by
  rw [getWebPageSet_eq]
  cases stored : storedPage source searcher id with
  | error fault => simp
  | ok page =>
    rw [ok_bind, pure_eq_ok, ok_bind, and_iff_right ⟨page, rfl⟩]
    exact later _ ⟨value_subscript searcher.offset id, rfl⟩

theorem singleLoop_isOk_iff (pageSet : List (Posting Weight)) (webPageSet : List (WebPage Weight)) :
    (∃ result, searcher.singleLoop source pageSet webPageSet = .ok result) ↔
      ∀ posting ∈ pageSet, ∃ page, storedPage source searcher posting.id = .ok page := by
  induction pageSet generalizing searcher webPageSet with
  | nil => exact iff_of_true ⟨_, rfl⟩ (List.forall_mem_nil _)
  | cons posting pageSet inductionHypothesis =>
    rw [WebPageSearcher.singleLoop, List.forall_mem_cons]
    refine getWebPageSet_bind_isOk_iff fun next reads => ?_
    rw [← storedPage_congr reads]
    exact inductionHypothesis next.2

theorem simCalcLoop_isOk_iff (keys : List Bytes) (calcId : List Int)
    (webPageSet : List (WebPage Weight)) :
    (∃ result, searcher.simCalcLoop source keys calcId webPageSet = .ok result) ↔
      ∀ id ∈ calcId, Weighed searcher.invertIndexTable keys id ∧
        ∃ page, storedPage source searcher id = .ok page := by
  induction calcId generalizing searcher webPageSet with
  | nil => exact iff_of_true ⟨_, rfl⟩ (List.forall_mem_nil _)
  | cons id calcId inductionHypothesis =>
    obtain ⟨weighed, weights⟩ := documentWeights_spec id searcher keys
    rw [WebPageSearcher.simCalcLoop, List.forall_mem_cons, ← scorable_iff]
    dsimp only
    rw [weights]
    cases cosine (queryWeights Weight keys.length)
        (weightsUnder searcher.invertIndexTable keys id) with
    | error fault => simp
    | ok cos =>
      have scores : ∃ score, (Except.ok cos : Except Fault Weight) = .ok score := ⟨cos, rfl⟩
      rw [ok_bind, and_iff_right scores, ← storedPage_congr weighed]
      refine getWebPageSet_bind_isOk_iff fun next reads => ?_
      rw [inductionHypothesis, storedPage_congr reads]
      simp only [Weighed, weightsUnder, (reads.trans weighed).table]

/-- The pages are gathered exactly when every collected document has a weight for every piece, and a
page that can be read. -/
theorem simCalc_isOk_iff {collecting : WebPageSearcher Weight} (reads : collecting.ReadsAs searcher)
    (query : Bytes) :
    (∃ result, collecting.simCalc source (pieces query)
        (collectedIds searcher.invertIndexTable query) = .ok result) ↔
      ∀ id ∈ collectedIds searcher.invertIndexTable query,
        Weighed searcher.invertIndexTable (pieces query) id ∧
          ∃ page, storedPage source searcher id = .ok page := by
  rw [WebPageSearcher.simCalc.eq_def]
  by_cases several : (pieces query).length > 1
  · rw [if_pos several, simCalcLoop_isOk_iff, storedPage_congr reads]
    simp only [Weighed, weightsUnder, reads.table]
  · have single := pieces_of_few several
    have same := (postings_readsAs collecting query).trans reads
    rw [if_neg several, single]
    dsimp only
    rw [singleLoop_isOk_iff, postings_snd, reads.table, storedPage_congr same,
      collectedIds_single single, ids, List.forall_mem_map]
    refine forall₂_congr fun posting among => (and_iff_right ?_).symm
    exact weighed_of_single (List.mem_map_of_mem among)

end Scores

/-! ### Pages that are written -/

section Pages

variable {Weight : Type} {searcher : WebPageSearcher Weight}

theorem keywordWindow_congr {other : WebPageSearcher Weight} (reads : searcher.ReadsAs other) :
    keywordWindow searcher.invertIndexTable = keywordWindow other.invertIndexTable := by
  funext page key
  rw [keywordWindow, keywordWindow, keywordIndex_congr reads]

/-- A page is written when every key has a window on it. -/
theorem snippets_ok {page : WebPage Weight} {keys : List Bytes}
    (windows : ∀ key ∈ keys, ∃ window,
      keywordWindow searcher.invertIndexTable page.toPage key = .ok window) (text : Bytes) :
    ∃ next texts, searcher.snippets page keys text = .ok (next, texts) ∧
      texts.length = keys.length := by
  induction keys generalizing searcher text with
  | nil => exact ⟨searcher, [], rfl, rfl⟩
  | cons key keys inductionHypothesis =>
    obtain ⟨⟨window, cut⟩, later⟩ := List.forall_mem_cons.mp windows
    have reads := postings_readsAs searcher key
    rw [← keywordWindow_congr reads] at later
    obtain ⟨next, texts, ended, size⟩ := inductionHypothesis later (text ++ window)
    refine ⟨next, (text ++ window) :: texts, ?_, by rw [List.length_cons, List.length_cons, size]⟩
    rw [keywordWindow, keywordIndex, ← postings_snd] at cut
    rw [WebPageSearcher.snippets]
    exact bind_eq_ok.mpr ⟨window, cut, bind_eq_ok.mpr ⟨(next, texts), ended, rfl⟩⟩

/-- The object of a page: its texts, and for each key the windows up to its own. -/
structure Writes (table : InvertIndexTable Weight) (keys : List Bytes) (page : WebPage Weight)
    (object : PageObject) : Prop where
  id : object.id = page.id
  title : object.title = page.title
  link : object.link = page.link
  length : object.description.length = keys.length
  exists_windows : ∃ windows, Windows table page.toPage keys windows ∧
    Streams [] windows object.description

/-- The pages are written when every key has a window on each of them. -/
theorem outResLoop_ok {keys : List Bytes} {webPageSet : List (WebPage Weight)}
    (windows : ∀ page ∈ webPageSet, ∀ key ∈ keys, ∃ window,
      keywordWindow searcher.invertIndexTable page.toPage key = .ok window) :
    ∃ next jSum, searcher.outResLoop keys webPageSet = .ok (next, jSum) ∧ next.ReadsAs searcher ∧
      List.Forall₂ (Writes searcher.invertIndexTable keys) webPageSet jSum := by
  induction webPageSet generalizing searcher with
  | nil => exact ⟨searcher, [], rfl, ⟨rfl, rfl⟩, .nil⟩
  | cons page webPageSet inductionHypothesis =>
    obtain ⟨here, later⟩ := List.forall_mem_cons.mp windows
    obtain ⟨middle, texts, cut, size⟩ := snippets_ok here []
    obtain ⟨reads, own, cuts, streams⟩ := snippets_streams cut
    rw [← keywordWindow_congr reads] at later
    obtain ⟨next, jSum, looped, nextReads, others⟩ := inductionHypothesis later
    refine ⟨next, ⟨page.id, page.title, page.link, texts⟩ :: jSum, ?_, nextReads.trans reads,
      .cons ⟨rfl, rfl, rfl, size, own, cuts, streams⟩ ?_⟩
    · rw [WebPageSearcher.outResLoop]
      exact bind_eq_ok.mpr ⟨(middle, texts), cut, bind_eq_ok.mpr ⟨(next, jSum), looped, rfl⟩⟩
    · refine others.imp fun other object writes => ⟨writes.id, writes.title, writes.link,
        writes.length, ?_⟩
      have windows := writes.exists_windows
      unfold Windows at windows ⊢
      rwa [keywordWindow_congr reads] at windows

/-- The text that is written for a key ends with its window. -/
theorem Writes.endsWith {table : InvertIndexTable Weight} {keys : List Bytes}
    {page : WebPage Weight} {object : PageObject} (writes : Writes table keys page object) :
    List.Forall₂ (fun key text => ∃ window, keywordWindow table page.toPage key = .ok window ∧
      window <:+ text) keys object.description := by
  obtain ⟨windows, cuts, streams⟩ := writes.exists_windows
  have size : windows.length = keys.length := cuts.length_eq.symm
  refine List.forall₂_iff_get.mpr ⟨writes.length.symm, fun i inside within => ?_⟩
  have found := streams i windows[i] (List.getElem?_eq_getElem (by omega))
  obtain ⟨bound, same⟩ := List.getElem?_eq_some_iff.mp found
  exact ⟨windows[i], cuts.get inside (by omega), _, same.symm⟩

end Pages

/-! ### Queries that return -/

section Answers

variable {Weight : Type} [Arithmetic Weight] {source : PageSource}
  {searcher : WebPageSearcher Weight}

end Answers

end SearchEngine
