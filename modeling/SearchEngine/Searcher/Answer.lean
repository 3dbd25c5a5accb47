/-
This file determines when the response has exactly one page for each document
that was collected.

The pages are gathered in a set that is ordered by the score alone, so a page is
dropped when its score does not compare with the score of a page that is there.
The loops of `simCalc` come to a run of insertions into such a set: one for each
collected document, with a score that depends on the table alone. The main
theorem states, for every table and page store, which scores lose no document.
-/

import SearchEngine.Searcher.KeywordQuery

namespace SearchEngine

open Containers

variable {Weight : Type}

/-! ### Stored pages -/

/-- The page stored for a document. -/
def storedPage (source : PageSource) (searcher : WebPageSearcher Weight) (id : Int) :
    Except Fault Page := readPage source (value searcher.offset id)

theorem storedPage_congr {searcher other : WebPageSearcher Weight}
    (reads : searcher.ReadsAs other) (source : PageSource) :
    storedPage source searcher = storedPage source other := by
  funext id
  rw [storedPage, storedPage, reads.offset]

/-- The stored page, or a blank one where none can be read. -/
def pageOf (source : PageSource) (searcher : WebPageSearcher Weight) (id : Int) : Page :=
  match storedPage source searcher id with
  | .ok page => page
  | .error _ => ⟨0, [], [], []⟩

theorem pageOf_congr {searcher other : WebPageSearcher Weight}
    (reads : searcher.ReadsAs other) (source : PageSource) :
    pageOf source searcher = pageOf source other := by
  funext id
  rw [pageOf, pageOf, storedPage_congr reads source]

theorem pageOf_eq {source : PageSource} {searcher : WebPageSearcher Weight} {id : Int} {page : Page}
    (stored : storedPage source searcher id = .ok page) : pageOf source searcher id = page := by
  rw [pageOf, stored]

/-- The pages stored for the documents carry the ids of these documents. -/
def PagesCarry (source : PageSource) (searcher : WebPageSearcher Weight) (documents : List Int) :
    Prop :=
  (documents.map fun id => (storedPage source searcher id).map Page.id).Perm
    (documents.map Except.ok)

/-! ### Scores -/

/-- The weights of a document under the keys. -/
def weightsUnder (table : InvertIndexTable Weight) (keys : List Bytes) (id : Int) : List Weight :=
  keys.flatMap fun key => ((value table key).filter (·.id = id)).map Posting.weight

theorem documentWeights_spec (id : Int) (searcher : WebPageSearcher Weight) (keys : List Bytes) :
    (searcher.documentWeights id keys).1.ReadsAs searcher ∧
      (searcher.documentWeights id keys).2 = weightsUnder searcher.invertIndexTable keys id := by
  induction keys generalizing searcher with
  | nil => exact ⟨⟨rfl, rfl⟩, rfl⟩
  | cons key keys inductionHypothesis =>
    obtain ⟨reads, weights⟩ := inductionHypothesis (searcher.postings key).1
    refine ⟨reads.trans (postings_readsAs searcher key), ?_⟩
    rw [WebPageSearcher.documentWeights]
    simp only [weights, postings_snd, weightsUnder, value_postings, List.flatMap_cons]

variable [Arithmetic Weight]

/-- The score of a document for a query of several pieces. -/
def scoreOf (table : InvertIndexTable Weight) (keys : List Bytes) (id : Int) : Weight :=
  match cosine (queryWeights Weight keys.length) (weightsUnder table keys id) with
  | .ok cos => cos
  | .error _ => Arithmetic.ofInt 0

theorem scoreOf_congr {searcher other : WebPageSearcher Weight} (reads : searcher.ReadsAs other)
    (keys : List Bytes) :
    scoreOf searcher.invertIndexTable keys = scoreOf other.invertIndexTable keys := by
  funext id
  simp only [scoreOf, weightsUnder, reads.table]

/-- The collected documents with their scores: the weights of the postings for a query of one
piece, and the cosines for others. -/
def scored (table : InvertIndexTable Weight) (query : Bytes) : List (Int × Weight) :=
  if (pieces query).length > 1 then
    (collectedIds table query).map fun id => (id, scoreOf table (pieces query) id)
  else (value table query).map fun posting => (posting.id, posting.weight)

theorem scored_congr {searcher other : WebPageSearcher Weight} (reads : searcher.ReadsAs other) :
    scored searcher.invertIndexTable = scored other.invertIndexTable := by
  funext query
  simp only [scored, collectedIds_congr reads, scoreOf_congr reads, reads.table]

theorem map_fst_scored (table : InvertIndexTable Weight) (query : Bytes) :
    (scored table query).map Prod.fst = collectedIds table query := by
  rw [scored]
  split_ifs with several
  · rw [List.map_map]
    exact List.map_id _
  · rw [collectedIds_single (pieces_of_few several), List.map_map]
    rfl

/-- Of two scores one is less than the other. -/
def ScoresCompare (first second : Weight) : Prop :=
  Arithmetic.less first second ∨ Arithmetic.less second first

/-- Every document has a score of its own: the leading scores compare with each other, and any
further score of a document fails to compare with the leading score of one in front of it. -/
def OwnScores (calls : List (Int × Weight)) : Prop :=
  ∃ leading : Int → Weight,
    (∀ call ∈ calls, (call.1, leading call.1) ∈ calls) ∧
    (∀ first ∈ calls, ∀ second ∈ calls, first.1 ≠ second.1 →
      ScoresCompare (leading first.1) (leading second.1)) ∧
    ∀ front call back, calls = front ++ call :: back → call.2 = leading call.1 ∨
      ∃ other ∈ front, other.2 = leading other.1 ∧ ¬ ScoresCompare call.2 other.2

/-- Where the score is a function of the document, the scores of the documents compare. -/
theorem ownScores_map_iff (documents : List Int) (score : Int → Weight) :
    OwnScores (documents.map fun id => (id, score id)) ↔
      ∀ first ∈ documents, ∀ second ∈ documents, first ≠ second →
        ScoresCompare (score first) (score second) := by
  constructor
  · rintro ⟨leading, present, compare, -⟩ first firstMember second secondMember different
    have leads (id : Int) (member : id ∈ documents) : leading id = score id := by
      have found := present (id, score id) (List.mem_map_of_mem member)
      obtain ⟨other, -, same⟩ := List.mem_map.mp found
      obtain ⟨rfl, score_eq⟩ := Prod.mk.inj same
      exact score_eq.symm
    rw [← leads first firstMember, ← leads second secondMember]
    exact compare _ (List.mem_map_of_mem firstMember) _ (List.mem_map_of_mem secondMember) different
  · intro compare
    refine ⟨score, fun call member => ?_, fun first firstMember second secondMember different => ?_,
      fun front call back split => Or.inl ?_⟩
    · obtain ⟨id, among, rfl⟩ := List.mem_map.mp member
      exact member
    · obtain ⟨firstId, firstAmong, rfl⟩ := List.mem_map.mp firstMember
      obtain ⟨secondId, secondAmong, rfl⟩ := List.mem_map.mp secondMember
      exact compare firstId firstAmong secondId secondAmong different
    · have member : call ∈ documents.map fun id => (id, score id) := by
        rw [split]
        simp
      obtain ⟨id, -, rfl⟩ := List.mem_map.mp member
      rfl

/-! ### The set of scored documents -/

/-- `WebPage::operator<` on the scores. -/
def lessScored (call rhs : Int × Weight) : Bool := Arithmetic.less rhs.2 call.2

theorem lessScored_trans (first second third : Int × Weight) (left : lessScored first second)
    (right : lessScored second third) : lessScored first third :=
  Arithmetic.less_trans _ _ _ right left

theorem comparable_lessScored {first second : Int × Weight} :
    Comparable lessScored first second ↔ ScoresCompare first.2 second.2 := or_comm

/-- The documents that stay in the set of pages. -/
def keptCalls (calls : List (Int × Weight)) : List (Int × Weight) := placeAll lessScored calls

theorem mem_of_mem_keptCalls {calls : List (Int × Weight)} {call : Int × Weight}
    (member : call ∈ keptCalls calls) : call ∈ calls := mem_of_mem_placeAll member

theorem nodup_keptCalls (calls : List (Int × Weight)) : (keptCalls calls).Nodup := by
  refine (placeAll_ordered lessScored_trans calls).imp ?_
  rintro first second less rfl
  exact Arithmetic.less_irrefl _ less

/-- With scores of their own, all documents stay, each once. -/
theorem perm_of_ownScores {calls : List (Int × Weight)} (own : OwnScores calls) :
    ((keptCalls calls).map Prod.fst).Perm (calls.map Prod.fst).dedup := by
  obtain ⟨leading, present, compare, further⟩ := own
  have kept (call : Int × Weight) :
      call ∈ keptCalls calls ↔ call ∈ calls ∧ call.2 = leading call.1 := by
    refine mem_placeAll_iff lessScored_trans (fun call => call.2 = leading call.1)
      (fun first firstMember second secondMember firstLeads secondLeads => ?_)
      (fun front call back split => ?_) call
    · by_cases same : first.1 = second.1
      · exact Or.inl (Prod.ext same (by rw [firstLeads, secondLeads, same]))
      · rw [comparable_lessScored, firstLeads, secondLeads]
        exact Or.inr (compare first firstMember second secondMember same)
    · simpa only [comparable_lessScored] using further front call back split
  have nodup : ((keptCalls calls).map Prod.fst).Nodup := by
    refine (nodup_keptCalls calls).map_on fun first firstMember second secondMember same => ?_
    have firstLeads := ((kept first).mp firstMember).2
    have secondLeads := ((kept second).mp secondMember).2
    exact Prod.ext same (by rw [firstLeads, secondLeads, same])
  refine (List.perm_ext_iff_of_nodup nodup (List.nodup_dedup _)).mpr fun id => ?_
  rw [List.mem_dedup]
  constructor
  · intro member
    obtain ⟨call, among, rfl⟩ := List.mem_map.mp member
    exact List.mem_map_of_mem (mem_of_mem_keptCalls among)
  · intro member
    obtain ⟨call, among, rfl⟩ := List.mem_map.mp member
    exact List.mem_map.mpr ⟨(call.1, leading call.1), (kept _).mpr ⟨present call among, rfl⟩, rfl⟩

/-- If all documents stay, each once, then they have scores of their own. -/
theorem ownScores_of_perm {calls : List (Int × Weight)}
    (all : ((keptCalls calls).map Prod.fst).Perm (calls.map Prod.fst).dedup) : OwnScores calls := by
  have nodup : ((keptCalls calls).map Prod.fst).Nodup := all.nodup_iff.mpr (List.nodup_dedup _)
  have stays (call : Int × Weight) (member : call ∈ calls) :
      ∃ kept ∈ keptCalls calls, kept.1 = call.1 :=
    List.mem_map.mp (all.mem_iff.mpr (List.mem_dedup.mpr (List.mem_map_of_mem member)))
  classical
  let leading (id : Int) : Weight :=
    if found : ∃ kept ∈ keptCalls calls, kept.1 = id then found.choose.2 else Arithmetic.ofInt 0
  have leads (call : Int × Weight) (member : call ∈ keptCalls calls) :
      call.2 = leading call.1 := by
    have found : ∃ kept ∈ keptCalls calls, kept.1 = call.1 := ⟨call, member, rfl⟩
    have same : found.choose = call :=
      List.inj_on_of_nodup_map nodup found.choose_spec.1 member found.choose_spec.2
    rw [show leading call.1 = found.choose.2 from dif_pos found, same]
  have present (call : Int × Weight) (member : call ∈ calls) :
      (call.1, leading call.1) ∈ keptCalls calls := by
    obtain ⟨kept, among, same⟩ := stays call member
    rw [← same, ← leads kept among]
    exact among
  refine ⟨leading, fun call member => mem_of_mem_keptCalls (present call member),
    fun first firstMember second secondMember different => ?_, fun front call back split => ?_⟩
  · have ordered := placeAll_ordered lessScored_trans calls
    have firstKept := present first firstMember
    have secondKept := present second secondMember
    have compare := ordered.pairwise_comparable.forall firstKept secondKept
      (fun same => different (Prod.mk.inj same).1)
    exact comparable_lessScored.mp compare
  · rcases mem_placeAll_or lessScored_trans front back call with
      stayed | ⟨other, earlier, apart⟩
    · rw [← split] at stayed
      exact Or.inl (leads call stayed)
    · refine Or.inr ⟨other, mem_of_mem_placeAll earlier, leads other ?_, ?_⟩
      · rw [keptCalls, split]
        exact mem_placeAll_append lessScored_trans earlier _
      · rwa [comparable_lessScored] at apart

/-! ### The loops of `simCalc` -/

/-- A call of `getWebPageSet` per document, on a set. -/
def insertPages (source : PageSource) (searcher : WebPageSearcher Weight)
    (calls : List (Int × Weight)) (webPageSet : List (WebPage Weight)) : List (WebPage Weight) :=
  calls.foldl (fun set call => place WebPage.less ⟨pageOf source searcher call.1, call.2⟩ set)
    webPageSet

/-- What the loops come to: every page can be read, and is inserted. -/
structure Gathers (source : PageSource) (searcher : WebPageSearcher Weight)
    (calls : List (Int × Weight)) (webPageSet : List (WebPage Weight))
    (next : WebPageSearcher Weight) (result : List (WebPage Weight)) : Prop where
  reads : next.ReadsAs searcher
  stored : ∀ call ∈ calls, storedPage source searcher call.1 = .ok (pageOf source searcher call.1)
  result : result = insertPages source searcher calls webPageSet

theorem getWebPageSet_gathers {source : PageSource} {searcher next : WebPageSearcher Weight}
    {id : Int} {cos : Weight} {webPageSet result : List (WebPage Weight)}
    (got : searcher.getWebPageSet source id cos webPageSet = .ok (next, result)) :
    Gathers source searcher [(id, cos)] webPageSet next result := by
  simp only [WebPageSearcher.getWebPageSet, subscript_snd] at got
  obtain ⟨page, stored, ended⟩ := bind_eq_ok.mp got
  obtain ⟨rfl, rfl⟩ := Prod.mk.inj (Except.ok.inj ended)
  have page_eq : pageOf source searcher id = page := pageOf_eq stored
  refine ⟨⟨value_subscript searcher.offset id, rfl⟩, fun call member => ?_, ?_⟩
  · rw [List.mem_singleton] at member
    rw [member, page_eq]
    exact stored
  · rw [insertPages, List.foldl_cons, List.foldl_nil, page_eq]

/-- The state before may be any that reads alike. -/
theorem Gathers.ofReads {source : PageSource} {searcher other next : WebPageSearcher Weight}
    {calls : List (Int × Weight)} {webPageSet result : List (WebPage Weight)}
    (gathers : Gathers source other calls webPageSet next result)
    (reads : other.ReadsAs searcher) : Gathers source searcher calls webPageSet next result := by
  have same := storedPage_congr reads source
  have samePage := pageOf_congr reads source
  refine ⟨gathers.reads.trans reads, ?_, ?_⟩
  · rw [← same, ← samePage]
    exact gathers.stored
  · rw [gathers.result, insertPages, samePage]
    rfl

/-- One call, and then the rest of a loop. -/
theorem Gathers.cons {source : PageSource} {searcher middle next : WebPageSearcher Weight}
    {call : Int × Weight} {calls : List (Int × Weight)}
    {webPageSet middleSet result : List (WebPage Weight)}
    (first : Gathers source searcher [call] webPageSet middle middleSet)
    (rest : Gathers source middle calls middleSet next result) :
    Gathers source searcher (call :: calls) webPageSet next result := by
  have rest := rest.ofReads first.reads
  refine ⟨rest.reads, fun other member => ?_, ?_⟩
  · rcases List.mem_cons.mp member with rfl | later
    · exact first.stored other (List.mem_singleton_self other)
    · exact rest.stored other later
  · rw [rest.result, first.result]
    rfl

theorem singleLoop_gathers {source : PageSource} {searcher next : WebPageSearcher Weight}
    {pageSet : List (Posting Weight)} {webPageSet result : List (WebPage Weight)}
    (ended : searcher.singleLoop source pageSet webPageSet = .ok (next, result)) :
    Gathers source searcher (pageSet.map fun posting => (posting.id, posting.weight)) webPageSet
      next result := by
  induction pageSet generalizing searcher webPageSet with
  | nil =>
    obtain ⟨rfl, rfl⟩ := Prod.mk.inj (Except.ok.inj ended)
    exact ⟨⟨rfl, rfl⟩, by simp, rfl⟩
  | cons posting pageSet inductionHypothesis =>
    rw [WebPageSearcher.singleLoop] at ended
    obtain ⟨⟨middle, middleSet⟩, got, rest⟩ := bind_eq_ok.mp ended
    exact (getWebPageSet_gathers got).cons (inductionHypothesis rest)

theorem simCalcLoop_gathers {source : PageSource} {searcher next : WebPageSearcher Weight}
    {keys : List Bytes} {calcId : List Int} {webPageSet result : List (WebPage Weight)}
    (ended : searcher.simCalcLoop source keys calcId webPageSet = .ok (next, result)) :
    Gathers source searcher
      (calcId.map fun id => (id, scoreOf searcher.invertIndexTable keys id)) webPageSet
      next result := by
  induction calcId generalizing searcher webPageSet with
  | nil =>
    obtain ⟨rfl, rfl⟩ := Prod.mk.inj (Except.ok.inj ended)
    exact ⟨⟨rfl, rfl⟩, by simp, rfl⟩
  | cons id calcId inductionHypothesis =>
    obtain ⟨weighed, weights⟩ := documentWeights_spec id searcher keys
    simp only [WebPageSearcher.simCalcLoop, weights] at ended
    obtain ⟨cos, scoring, ended⟩ := bind_eq_ok.mp ended
    obtain ⟨⟨middle, middleSet⟩, got, rest⟩ := bind_eq_ok.mp ended
    have score : scoreOf searcher.invertIndexTable keys id = cos := by
      rw [scoreOf, scoring]
    have first := (getWebPageSet_gathers got).ofReads weighed
    have sameScore : scoreOf middle.invertIndexTable keys =
        scoreOf searcher.invertIndexTable keys := scoreOf_congr first.reads keys
    have later := inductionHypothesis rest
    rw [sameScore] at later
    rw [List.map_cons, score]
    exact first.cons later

/-- `simCalc` inserts the page of every collected document with its score. -/
theorem simCalc_gathers {source : PageSource} {searcher next : WebPageSearcher Weight}
    {query : Bytes} {calcId : List Int} {result : List (WebPage Weight)}
    (collected : calcId = collectedIds searcher.invertIndexTable query)
    (ended : searcher.simCalc source (pieces query) calcId = .ok (next, result)) :
    Gathers source searcher (scored searcher.invertIndexTable query) [] next result := by
  by_cases several : (pieces query).length > 1
  · rw [WebPageSearcher.simCalc.eq_def, if_pos several] at ended
    rw [scored, if_pos several, ← collected]
    exact simCalcLoop_gathers ended
  · rw [WebPageSearcher.simCalc.eq_def, if_neg several] at ended
    rw [scored, if_neg several]
    rw [pieces_of_few several] at ended
    simp only [postings_snd] at ended
    exact (singleLoop_gathers ended).ofReads (postings_readsAs searcher query)

/-- The pages in the set are those of the documents that stay. -/
theorem insertPages_eq_map (source : PageSource) (searcher : WebPageSearcher Weight)
    (calls : List (Int × Weight)) :
    insertPages source searcher calls [] =
      (keptCalls calls).map fun call => ⟨pageOf source searcher call.1, call.2⟩ := by
  have mapped : placeAll WebPage.less (calls.map fun call =>
      (⟨pageOf source searcher call.1, call.2⟩ : WebPage Weight)) =
        (keptCalls calls).map fun call => ⟨pageOf source searcher call.1, call.2⟩ :=
    placeAll_map (fun _ _ => rfl) calls
  rw [← mapped, placeAll, List.foldl_map]
  rfl

/-! ### The response -/

omit [Arithmetic Weight] in
theorem outResLoop_ids {searcher next : WebPageSearcher Weight} {keys : List Bytes}
    {webPageSet : List (WebPage Weight)} {jSum : List PageObject}
    (ended : searcher.outResLoop keys webPageSet = .ok (next, jSum)) :
    jSum.map PageObject.id = webPageSet.map fun page => page.id := by
  induction webPageSet generalizing searcher next jSum with
  | nil =>
    obtain ⟨-, rfl⟩ := Prod.mk.inj (Except.ok.inj ended)
    rfl
  | cons page webPageSet inductionHypothesis =>
    rw [WebPageSearcher.outResLoop] at ended
    obtain ⟨written, -, ended⟩ := bind_eq_ok.mp ended
    obtain ⟨⟨last, later⟩, rest, ended⟩ := bind_eq_ok.mp ended
    obtain ⟨-, rfl⟩ := Prod.mk.inj (Except.ok.inj ended)
    rw [List.map_cons, List.map_cons, inductionHypothesis rest]

/-- A query that is answered: what it collects, and the pages of its response. -/
theorem doQuery_spec {source : PageSource} {dump : List PageObject → Except Fault Bytes}
    {searcher next : WebPageSearcher Weight} {query : Bytes} {answer : Answer}
    (ended : searcher.doQuery source dump query = .ok (next, answer)) :
    answer.calcId = collectedIds searcher.invertIndexTable query ∧
      (∀ id ∈ collectedIds searcher.invertIndexTable query,
        storedPage source searcher id = .ok (pageOf source searcher id)) ∧
      answer.jSum.map PageObject.id =
        ((keptCalls (scored searcher.invertIndexTable query)).map Prod.fst).map fun id =>
          (pageOf source searcher id).id := by
  obtain ⟨collecting, reads, collected⟩ := collect_eq_ok searcher query
  rw [WebPageSearcher.doQuery, collected, ok_bind] at ended
  obtain ⟨⟨scoring, webPageSet⟩, calculated, ended⟩ := bind_eq_ok.mp ended
  obtain ⟨⟨last, jSum, res⟩, written, ended⟩ := bind_eq_ok.mp ended
  obtain ⟨-, rfl⟩ := Prod.mk.inj (Except.ok.inj ended)
  rw [WebPageSearcher.outRes] at written
  obtain ⟨⟨writing, objects⟩, looped, written⟩ := bind_eq_ok.mp written
  obtain ⟨text, -, written⟩ := bind_eq_ok.mp written
  obtain ⟨-, same⟩ := Prod.mk.inj (Except.ok.inj written)
  obtain ⟨rfl, -⟩ := Prod.mk.inj same
  have gathers := (simCalc_gathers (by rw [collectedIds_congr reads]) calculated).ofReads reads
  rw [scored_congr reads] at gathers
  refine ⟨rfl, fun id member => ?_, ?_⟩
  · rw [← map_fst_scored] at member
    obtain ⟨call, among, rfl⟩ := List.mem_map.mp member
    exact gathers.stored call among
  · rw [outResLoop_ids looped, gathers.result, insertPages_eq_map, List.map_map,
      List.map_map]
    rfl

omit [Arithmetic Weight] in
/-- A part of the documents whose images are all the documents is all of them. -/
theorem perm_of_map_perm {part documents : List Int} {image : Int → Int}
    (complete : (part.map image).Perm documents.dedup)
    (inside : ∀ id ∈ part, id ∈ documents.dedup) : part.Perm documents.dedup := by
  have nodup : (part.map image).Nodup := complete.nodup_iff.mpr (List.nodup_dedup documents)
  have length := complete.length_eq
  rw [List.length_map] at length
  exact (List.subperm_of_subset nodup.of_map inside).perm_of_length_le length.ge

/-- The response has exactly one page for each distinct collected document if and only if every
document has a score of its own, and the stored pages carry the ids of these documents. -/
theorem answer_complete_iff {source : PageSource} {dump : List PageObject → Except Fault Bytes}
    {searcher next : WebPageSearcher Weight} {query : Bytes} {answer : Answer}
    (completes : searcher.doQuery source dump query = .ok (next, answer)) :
    (answer.jSum.map PageObject.id).Perm answer.calcId.dedup ↔
      OwnScores (scored searcher.invertIndexTable query) ∧
        PagesCarry source searcher (collectedIds searcher.invertIndexTable query).dedup := by
  obtain ⟨calcId_eq, stored, jSum_eq⟩ := doQuery_spec completes
  rw [calcId_eq, jSum_eq]
  have carry : PagesCarry source searcher (collectedIds searcher.invertIndexTable query).dedup ↔
      ((collectedIds searcher.invertIndexTable query).dedup.map fun id =>
        (pageOf source searcher id).id).Perm
          (collectedIds searcher.invertIndexTable query).dedup := by
    have read : ((collectedIds searcher.invertIndexTable query).dedup.map fun id =>
        (storedPage source searcher id).map Page.id) =
          ((collectedIds searcher.invertIndexTable query).dedup.map fun id =>
            (pageOf source searcher id).id).map Except.ok := by
      rw [List.map_map]
      refine List.map_congr_left fun id member => ?_
      rw [stored id (List.mem_dedup.mp member)]
      rfl
    rw [PagesCarry, read]
    exact List.map_perm_map_iff fun _ _ same => Except.ok.inj same
  rw [carry, ← map_fst_scored]
  constructor
  · intro complete
    have all := perm_of_map_perm complete (fun id member => ?_)
    · exact ⟨ownScores_of_perm all, (all.map _).symm.trans complete⟩
    · obtain ⟨call, among, rfl⟩ := List.mem_map.mp member
      exact List.mem_dedup.mpr (List.mem_map_of_mem (mem_of_mem_keptCalls among))
  · rintro ⟨own, carries⟩
    exact ((perm_of_ownScores own).map _).trans carries

/-! ### A small page store -/

/-- The page of a document, as it stands in the page file. -/
def samplePage (docid : String) : Bytes :=
  ascii "<doc><docid>" ++ ascii docid ++
    ascii "</docid><title>t</title><link>l</link><description>d</description></doc>"

/-- The elements of such a page. -/
def sampleElements (docid : String) : List XmlElement :=
  [⟨ascii "docid", some (ascii docid)⟩, ⟨ascii "title", some (ascii "t")⟩,
    ⟨ascii "link", some (ascii "l")⟩, ⟨ascii "description", some (ascii "d")⟩]

/-- A page file with the pages of the documents 1 and 2. -/
def sampleSource : PageSource where
  parse buf :=
    if buf = samplePage "1" then some (sampleElements "1")
    else if buf = samplePage "2" then some (sampleElements "2")
    else none
  file := samplePage "1" ++ samplePage "2"

/-- A searcher over this file: both documents contain the word `a`, with the given weights. -/
def sampleSearcher (first second : Nat) : WebPageSearcher Nat where
  offset := AList.insert 2 (85, 170) (AList.insert 1 (0, 85) ∅)
  invertIndexTable := AList.insert [97] [⟨1, first, 0⟩, ⟨2, second, 0⟩] ∅

/-- What the query `a` collects from this searcher, and the pages of its response. -/
def sampleAnswer (first second : Nat) : Except Fault (List Int × List Int) :=
  letI := wholeNumbers
  ((sampleSearcher first second).doQuery sampleSource writePages [97]).map fun ended =>
    (ended.2.calcId, ended.2.jSum.map PageObject.id)

theorem sampleAnswer_apart : sampleAnswer 1 2 = .ok ([1, 2], [2, 1]) := by decide +kernel

theorem sampleAnswer_tied : sampleAnswer 1 1 = .ok ([1, 2], [1]) := by decide +kernel

/-- The weights 1 and 2 compare: both documents are answered. -/
theorem answer_complete_sample :
    letI := wholeNumbers
    ∃ next answer,
      (sampleSearcher 1 2).doQuery sampleSource writePages [97] = .ok (next, answer) ∧
      ((answer.jSum.map PageObject.id).Perm answer.calcId.dedup ↔
        OwnScores (scored (sampleSearcher 1 2).invertIndexTable [97]) ∧
          PagesCarry sampleSource (sampleSearcher 1 2)
            (collectedIds (sampleSearcher 1 2).invertIndexTable [97]).dedup) := by
  let := wholeNumbers
  obtain ⟨⟨next, answer⟩, completes, -⟩ := map_eq_ok.mp sampleAnswer_apart
  exact ⟨next, answer, completes, answer_complete_iff completes⟩

/-- Two documents of equal weight: one of them is dropped from the answer. -/
theorem answer_drops_tied :
    letI := wholeNumbers
    ∃ next answer,
      (sampleSearcher 1 1).doQuery sampleSource writePages [97] = .ok (next, answer) ∧
      ¬ (answer.jSum.map PageObject.id).Perm answer.calcId.dedup := by
  let := wholeNumbers
  obtain ⟨⟨next, answer⟩, completes, same⟩ := map_eq_ok.mp sampleAnswer_tied
  obtain ⟨calcId_eq, ids_eq⟩ := Prod.mk.inj same
  refine ⟨next, answer, completes, ?_⟩
  rw [calcId_eq, ids_eq]
  decide

end SearchEngine
