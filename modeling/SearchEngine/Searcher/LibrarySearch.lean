/-
This file proves what a searcher that serves a library answers.

A query is answered when every collected document is stored and under all pieces
of the query, and every piece has a window on its pages. A searcher that serves a
library has all of this for a query that agrees with the library, so it shows
exactly pages of items that contain all pieces, with the texts of the items and
windows around the pieces, and keeps serving the library. Runs of such queries
are therefore answered from the items alone, whatever was asked before.
-/

import SearchEngine.PageDump.Deployment
import SearchEngine.Searcher.Completion

namespace SearchEngine

open Containers Arithmetic Utf8 PageProducer

/-! ### Answers from the items -/

section Library

variable {Number Weight : Type} [LogArithmetic Number] [Arithmetic Weight]

/-- An item contains every piece of a query. -/
def RssItem.Matches (tool : SplitTool Number) (stopWords : List Bytes) (query : Bytes)
    (item : RssItem) : Prop := ∀ piece ∈ pieces query, piece ∈ item.indexed tool stopWords

/-- An item that contains the first piece of a query and a later one contains them all. This is so for
every query of one or two pieces. -/
def Agrees (tool : SplitTool Number) (stopWords : List Bytes) (rss : List RssItem)
    (query : Bytes) : Prop :=
  ∀ first later, pieces query = first :: later → ∀ item ∈ rss,
    first ∈ item.indexed tool stopWords → (∃ piece ∈ later, piece ∈ item.indexed tool stopWords) →
      ∀ piece ∈ later, piece ∈ item.indexed tool stopWords

theorem agrees_of_few (tool : SplitTool Number) (stopWords : List Bytes) (rss : List RssItem)
    {query : Bytes} (few : (pieces query).length ≤ 2) : Agrees tool stopWords rss query := by
  rintro first later split item - - ⟨piece, member, contained⟩ other among
  rw [split, List.length_cons] at few
  cases later with
  | nil => cases member
  | cons second rest =>
    rw [List.length_cons] at few
    obtain rfl : rest = [] := List.length_eq_zero_iff.mp (by omega)
    rw [List.mem_singleton] at member among
    rwa [among, ← member]

/-- An answer is one about the library: the documents of the items that match are collected, every
page shows such an item, with a valid text for each piece that has the piece in it, no item is shown
twice, and if any matches then some page is shown. -/
structure Finds (tool : SplitTool Number) (stopWords : List Bytes) (rss : List RssItem)
    (query : Bytes) (answer : Answer) : Prop where
  collected : ∀ id, id ∈ answer.calcId ↔
    ∃ i item, rss[i]? = some item ∧ id = (i + 1 : Nat) ∧ item.Matches tool stopWords query
  shows : ∀ object ∈ answer.jSum, ∃ i item, rss[i]? = some item ∧
    item.Matches tool stopWords query ∧ object.id = (i + 1 : Nat) ∧
    object.title = item.title ∧ object.link = item.link ∧
    List.Forall₂ (fun piece text => Valid text ∧ (piece.length ≤ 30 → piece <:+: text))
      (pieces query) object.description
  once : (answer.jSum.map PageObject.id).Nodup
  some_shown : answer.calcId ≠ [] → answer.jSum ≠ []

variable {tool : SplitTool Number} {stopWords : List Bytes} {rss : List RssItem}
  {searcher : WebPageSearcher Weight}

omit [Arithmetic Weight] in
theorem Serves.congr (serves : Serves tool stopWords rss searcher)
    {next : WebPageSearcher Weight} (reads : next.ReadsAs searcher) :
    Serves tool stopWords rss next := by
  have sameIds : ids next.invertIndexTable = ids searcher.invertIndexTable := by
    funext word
    rw [ids, ids, reads.table]
  refine ⟨fun word => ?_, fun word id => ?_, fun word posting among => ?_, fun i item listed => ?_⟩
  · rw [sameIds]
    exact serves.once word
  · rw [sameIds]
    exact serves.mem_ids word id
  · rw [reads.table] at among
    exact serves.points word posting among
  · rw [storedPage_congr reads]
    exact serves.stored i item listed

omit [Arithmetic Weight] in
/-- What is collected are the documents of the items that match. -/
theorem Serves.mem_collectedIds (serves : Serves tool stopWords rss searcher) {query : Bytes}
    (agrees : Agrees tool stopWords rss query) (id : Int) :
    id ∈ collectedIds searcher.invertIndexTable query ↔
      ∃ i item, rss[i]? = some item ∧ id = (i + 1 : Nat) ∧ item.Matches tool stopWords query := by
  obtain ⟨first, later, split⟩ := List.exists_cons_of_ne_nil (pieces_ne_nil query)
  by_cases single : later = []
  · rw [single] at split
    have matched (item : RssItem) : item.Matches tool stopWords query ↔
        query ∈ item.indexed tool stopWords := by
      rw [RssItem.Matches, split, pieces_eq_singleton split, List.forall_mem_singleton]
    rw [collectedIds_single split, serves.mem_ids]
    simp only [matched]
  · have another := List.exists_mem_of_ne_nil _ single
    rw [collectedIds_multi split single, mem_common]
    simp only [serves.mem_ids]
    constructor
    · rintro ⟨⟨i, item, listed, rfl, contained⟩, piece, member, k, other, alsoListed, same, also⟩
      obtain rfl : k = i := by omega
      obtain rfl := Option.some.inj (listed.symm.trans alsoListed)
      refine ⟨k, item, listed, rfl, ?_⟩
      rw [RssItem.Matches, split]
      exact List.forall_mem_cons.mpr ⟨contained, agrees first later split item
        (List.mem_of_getElem? listed) contained ⟨piece, member, also⟩⟩
    · rintro ⟨i, item, listed, rfl, matched⟩
      rw [RssItem.Matches, split] at matched
      obtain ⟨contained, others⟩ := List.forall_mem_cons.mp matched
      obtain ⟨piece, member⟩ := another
      exact ⟨⟨i, item, listed, rfl, contained⟩, piece, member, i, item, listed, rfl,
        others piece member⟩

omit [Arithmetic Weight] in
/-- The window of an indexed word on the page of its item. -/
theorem Serves.window (serves : Serves tool stopWords rss searcher) {i : Nat} {item : RssItem}
    (listed : rss[i]? = some item) {word : Bytes} (indexed : word ∈ item.indexed tool stopWords) :
    ∃ window, keywordWindow searcher.invertIndexTable (itemPage (i + 1) item) word = .ok window ∧
      Valid window ∧ (word.length ≤ 30 → word <:+: window) := by
  have present : ((i + 1 : Nat) : Int) ∈ ids searcher.invertIndexTable word :=
    (serves.mem_ids word _).mpr ⟨i, item, listed, rfl, indexed⟩
  have found : ((value searcher.invertIndexTable word).find?
      (·.id = ((i + 1 : Nat) : Int))).isSome := by
    obtain ⟨posting, among, same⟩ := List.mem_map.mp present
    exact List.find?_isSome.mpr ⟨posting, among, by simpa using same⟩
  obtain ⟨posting, isFirst⟩ := Option.isSome_iff_exists.mp found
  have sameId : posting.id = ((i + 1 : Nat) : Int) := by simpa using List.find?_some isFirst
  obtain ⟨k, other, letters, alsoListed, otherId, content, pointsAt⟩ :=
    serves.points word posting (List.mem_of_find?_eq_some isFirst)
  obtain rfl : k = i := by omega
  obtain rfl := Option.some.inj (listed.symm.trans alsoListed)
  obtain ⟨window, cut, valid, inside⟩ := pointsAt.shows
  have index : keywordIndex searcher.invertIndexTable (itemPage (k + 1) item) word =
      UInt64.ofInt posting.position := by
    rw [keywordIndex]
    split
    · next other alsoFirst => rw [Option.some.inj (alsoFirst.symm.trans isFirst)]
    · next missing => cases missing.symm.trans isFirst
  refine ⟨window, ?_, valid, inside⟩
  rw [keywordWindow, index, itemPage, content]
  exact cut

/-- Documents are scored once each, or with one score. -/
theorem scored_functional {table : InvertIndexTable Weight} (once : OncePerDocument table)
    (query : Bytes) {first second : Int × Weight} (firstMember : first ∈ scored table query)
    (secondMember : second ∈ scored table query) (same : first.1 = second.1) : first = second := by
  rw [scored] at firstMember secondMember
  split_ifs at firstMember secondMember
  · obtain ⟨id, -, rfl⟩ := List.mem_map.mp firstMember
    obtain ⟨other, -, rfl⟩ := List.mem_map.mp secondMember
    obtain rfl : id = other := same
    rfl
  · obtain ⟨posting, among, rfl⟩ := List.mem_map.mp firstMember
    obtain ⟨other, alsoAmong, rfl⟩ := List.mem_map.mp secondMember
    rw [List.inj_on_of_nodup_map (once query) among alsoAmong same]

omit [Arithmetic Weight] in
/-- The page of a document that is collected. -/
theorem Serves.pageOf_collected (serves : Serves tool stopWords rss searcher) {query : Bytes}
    (agrees : Agrees tool stopWords rss query) {id : Int}
    (member : id ∈ collectedIds searcher.invertIndexTable query) :
    ∃ i item, rss[i]? = some item ∧ id = (i + 1 : Nat) ∧ item.Matches tool stopWords query ∧
      storedPage ⟨Tinyxml2.parse, (store rss).1⟩ searcher id = .ok (itemPage (i + 1) item) ∧
      pageOf ⟨Tinyxml2.parse, (store rss).1⟩ searcher id = itemPage (i + 1) item := by
  obtain ⟨i, item, listed, rfl, matched⟩ := (serves.mem_collectedIds agrees id).mp member
  have stored := serves.stored i item listed
  exact ⟨i, item, listed, rfl, matched, stored, pageOf_eq stored⟩

/-- The set of pages that is gathered: a page for each document that stays, with its item. -/
theorem Serves.simCalc (serves : Serves tool stopWords rss searcher) {query : Bytes}
    (agrees : Agrees tool stopWords rss query) {collecting : WebPageSearcher Weight}
    (reads : collecting.ReadsAs searcher) :
    ∃ scoring webPageSet, collecting.simCalc ⟨Tinyxml2.parse, (store rss).1⟩ (pieces query)
        (collectedIds searcher.invertIndexTable query) = .ok (scoring, webPageSet) ∧
      scoring.ReadsAs searcher ∧
      (webPageSet.map fun page => page.id) =
        (keptCalls (scored searcher.invertIndexTable query)).map Prod.fst ∧
      ∀ page ∈ webPageSet, ∃ i item, rss[i]? = some item ∧ item.Matches tool stopWords query ∧
        page.toPage = itemPage (i + 1) item := by
  have stored : ∀ id ∈ collectedIds searcher.invertIndexTable query,
      ∃ page, storedPage ⟨Tinyxml2.parse, (store rss).1⟩ searcher id = .ok page := by
    intro id member
    obtain ⟨i, item, -, -, -, stored, -⟩ := serves.pageOf_collected agrees member
    exact ⟨_, stored⟩
  have weighed : ∀ id ∈ collectedIds searcher.invertIndexTable query,
      Weighed searcher.invertIndexTable (pieces query) id := by
    intro id member
    obtain ⟨i, item, listed, rfl, matched, -⟩ := serves.pageOf_collected agrees member
    exact weighed_of_containsAll serves.once fun piece among =>
      (serves.mem_ids piece _).mpr ⟨i, item, listed, rfl, matched piece among⟩
  obtain ⟨⟨scoring, webPageSet⟩, calculated⟩ := (simCalc_isOk_iff reads query).mpr
    fun id member => ⟨weighed id member, stored id member⟩
  have gathers := (simCalc_gathers (by rw [collectedIds_congr reads]) calculated).ofReads reads
  rw [scored_congr reads] at gathers
  have set_eq := gathers.result
  rw [insertPages_eq_map] at set_eq
  have collected {call : Int × Weight}
      (kept : call ∈ keptCalls (scored searcher.invertIndexTable query)) :
      call.1 ∈ collectedIds searcher.invertIndexTable query := by
    rw [← map_fst_scored]
    exact List.mem_map_of_mem (mem_of_mem_keptCalls kept)
  refine ⟨scoring, webPageSet, calculated, gathers.reads, ?_, fun page member => ?_⟩
  · rw [set_eq, List.map_map]
    refine List.map_congr_left fun call kept => ?_
    obtain ⟨i, item, -, sameId, -, -, page⟩ := serves.pageOf_collected agrees (collected kept)
    rw [Function.comp_apply, page, sameId]
    rfl
  · rw [set_eq] at member
    obtain ⟨call, kept, rfl⟩ := List.mem_map.mp member
    obtain ⟨i, item, listed, -, matched, -, page⟩ :=
      serves.pageOf_collected agrees (collected kept)
    exact ⟨i, item, listed, matched, page⟩

/-- A query that agrees with the library is answered about its items, and the library is served as
before. The writer need not fail on valid strings. -/
theorem Serves.doQuery_finds (serves : Serves tool stopWords rss searcher)
    (valid : ∀ item ∈ rss, ∀ text ∈ item.fields, Valid text)
    {dump : List PageObject → Except Fault Bytes}
    (dumps : ∀ jSum, (∀ object ∈ jSum, ∀ text ∈ object.texts, Valid text) →
      ∃ res, dump jSum = .ok res)
    {query : Bytes} (agrees : Agrees tool stopWords rss query) :
    ∃ next answer, searcher.doQuery ⟨Tinyxml2.parse, (store rss).1⟩ dump query =
        .ok (next, answer) ∧ next.ReadsAs searcher ∧ Finds tool stopWords rss query answer := by
  obtain ⟨collecting, reads, collected⟩ := collect_eq_ok searcher query
  obtain ⟨scoring, webPageSet, calculated, same, pageIds, shown⟩ := serves.simCalc agrees reads
  have window {page : WebPage Weight} (member : page ∈ webPageSet) {piece : Bytes}
      (among : piece ∈ pieces query) : ∃ window,
        keywordWindow scoring.invertIndexTable page.toPage piece = .ok window ∧
          (piece.length ≤ 30 → piece <:+: window) := by
    obtain ⟨i, item, listed, matched, isItem⟩ := shown page member
    rw [keywordWindow_congr same, isItem]
    obtain ⟨window, cut, -, inside⟩ := serves.window listed (matched piece among)
    exact ⟨window, cut, inside⟩
  obtain ⟨writing, jSum, looped, writes, objects⟩ := outResLoop_ok
    fun page member piece among => (window member among).imp fun _ cut => cut.1
  have texts := outResLoop_valid (fun page member => by
    obtain ⟨i, item, listed, -, isItem⟩ := shown page member
    rw [isItem]
    obtain ⟨title, link, description⟩ :=
      item.forall_fields.mp (valid item (List.mem_of_getElem? listed))
    exact ⟨title, link, description⟩) looped
  obtain ⟨res, dumped⟩ := dumps jSum texts
  have objectIds : jSum.map PageObject.id =
      (keptCalls (scored searcher.invertIndexTable query)).map Prod.fst := by
    rw [← pageIds]
    exact outResLoop_ids looped
  refine ⟨writing, ⟨collectedIds searcher.invertIndexTable query, jSum, res⟩, ?_, writes.trans same,
    serves.mem_collectedIds agrees, fun object member => ?_, ?_, fun nonempty empty => ?_⟩
  · rw [WebPageSearcher.doQuery, collected, ok_bind]
    refine bind_eq_ok.mpr ⟨_, calculated, bind_eq_ok.mpr ⟨(writing, jSum, res), ?_, rfl⟩⟩
    exact bind_eq_ok.mpr ⟨_, looped, bind_eq_ok.mpr ⟨res, dumped, rfl⟩⟩
  · obtain ⟨k, inside, rfl⟩ := List.getElem_of_mem member
    have within : k < webPageSet.length := objects.length_eq ▸ inside
    have written := objects.get within inside
    obtain ⟨i, item, listed, matched, isItem⟩ := shown _ (List.getElem_mem within)
    refine ⟨i, item, listed, matched, written.id.trans (congrArg Page.id isItem),
      written.title.trans (congrArg Page.title isItem),
      written.link.trans (congrArg Page.link isItem), ?_⟩
    obtain ⟨size, ends⟩ := List.forall₂_iff_get.mp written.endsWith
    refine List.forall₂_iff_get.mpr ⟨size, fun j before behind => ?_⟩
    obtain ⟨cut, isCut, suffix⟩ := ends j before behind
    obtain ⟨own, isOwn, holds⟩ := window (List.getElem_mem within) (List.get_mem _ _)
    obtain rfl := Except.ok.inj (isCut.symm.trans isOwn)
    exact ⟨texts _ member _ (by simp [PageObject.texts]),
      fun narrow => (holds narrow).trans suffix.isInfix⟩
  · rw [objectIds]
    refine (nodup_keptCalls _).map_on fun first firstKept second secondKept sameId => ?_
    exact scored_functional serves.once query (mem_of_mem_keptCalls firstKept)
      (mem_of_mem_keptCalls secondKept) sameId
  · have none : jSum = [] := empty
    rw [none, List.map_nil, eq_comm, List.map_eq_nil_iff] at objectIds
    refine placeAll_ne_nil (fun unscored => nonempty ?_) objectIds
    show collectedIds searcher.invertIndexTable query = []
    rw [← map_fst_scored, unscored, List.map_nil]

/-! ### Runs of queries -/

/-- Queries that come one after the other, with their answers. -/
def WebPageSearcher.doQueries (source : PageSource) (dump : List PageObject → Except Fault Bytes) :
    WebPageSearcher Weight → List Bytes → Except Fault (WebPageSearcher Weight × List Answer)
  | searcher, [] => .ok (searcher, [])
  | searcher, query :: queries => do
    let (searcher, answer) ← searcher.doQuery source dump query
    let (searcher, answers) ← doQueries source dump searcher queries
    return (searcher, answer :: answers)

theorem Serves.doQueries_find (serves : Serves tool stopWords rss searcher)
    (valid : ∀ item ∈ rss, ∀ text ∈ item.fields, Valid text)
    {dump : List PageObject → Except Fault Bytes}
    (dumps : ∀ jSum, (∀ object ∈ jSum, ∀ text ∈ object.texts, Valid text) →
      ∃ res, dump jSum = .ok res)
    {queries : List Bytes} (agree : ∀ query ∈ queries, Agrees tool stopWords rss query) :
    ∃ next answers, searcher.doQueries ⟨Tinyxml2.parse, (store rss).1⟩ dump queries =
        .ok (next, answers) ∧ List.Forall₂ (Finds tool stopWords rss) queries answers := by
  induction queries generalizing searcher with
  | nil => exact ⟨searcher, [], rfl, .nil⟩
  | cons query queries inductionHypothesis =>
    obtain ⟨here, later⟩ := List.forall_mem_cons.mp agree
    obtain ⟨middle, answer, ended, reads, finds⟩ := serves.doQuery_finds valid dumps here
    obtain ⟨next, answers, completes, others⟩ := inductionHypothesis (serves.congr reads) later
    refine ⟨next, answer :: answers, ?_, .cons finds others⟩
    rw [WebPageSearcher.doQueries]
    exact bind_eq_ok.mpr ⟨_, ended, bind_eq_ok.mpr ⟨_, completes, rfl⟩⟩

/-- The files that the offline programs write of a publishable library are loaded, and every run of
queries that agree with the library is answered about its items. -/
theorem library_answered {format : WeightFormat Weight}
    (publishable : Publishable tool format stopWords rss) {stopFile : Bytes}
    (stops : readStopWords stopFile = .ok stopWords) {dump : List PageObject → Except Fault Bytes}
    (dumps : ∀ jSum, (∀ object ∈ jSum, ∀ text ∈ object.texts, Valid text) →
      ∃ res, dump jSum = .ok res)
    {queries : List Bytes} (agree : ∀ query ∈ queries, Agrees tool stopWords rss query) :
    ∃ files searcher next answers, buildLibrary tool format stopFile rss = .ok files ∧
      WebPageSearcher.construct format files = .ok searcher ∧
      searcher.doQueries ⟨Tinyxml2.parse, files.page⟩ dump queries = .ok (next, answers) ∧
      List.Forall₂ (Finds tool stopWords rss) queries answers := by
  obtain ⟨files, searcher, built, page, loaded, serves⟩ := publishable.load stops
  obtain ⟨next, answers, ended, find⟩ := serves.doQueries_find publishable.valid dumps agree
  refine ⟨files, searcher, next, answers, built, loaded, ?_, find⟩
  rw [page]
  exact ended

end Library

/-! ### A small library -/

/-- Two items, the first of which has both characters of the queries in its description. -/
def sampleLibrary : List RssItem :=
  [⟨ascii "t", ascii "l", good ++ person⟩, ⟨ascii "u", ascii "m", person⟩]

theorem publishable_sampleLibrary :
    letI := integers
    letI := wholeNumbers
    @Publishable Int Nat _ _ plainTool WebPageSearcher.wholeFormat [] sampleLibrary := by
  let := integers
  let := wholeNumbers
  refine ⟨by decide +kernel, by decide +kernel, by decide +kernel, by decide +kernel, ?_,
    by decide +kernel, ?_⟩
  · intro i item listed
    rcases i with _ | _ | i
    · cases listed
      decide +kernel
    · cases listed
      decide +kernel
    · cases listed
  · show ∀ document ∈ libraryDocuments 0 sampleLibrary, ∀ word ∈ document.kept plainTool.words [],
      @tfIdfWeight Nat wholeNumbers plainTool.words [] (libraryDocuments 0 sampleLibrary) document
        word < 1000000
    decide +kernel

/-- The queries `好` and `好 人` over this library, which match the first item. -/
theorem library_answered_sample :
    letI := integers
    letI := wholeNumbers
    ∃ files searcher next answers,
      buildLibrary plainTool WebPageSearcher.wholeFormat [] sampleLibrary = .ok files ∧
      WebPageSearcher.construct WebPageSearcher.wholeFormat files = .ok searcher ∧
      searcher.doQueries ⟨Tinyxml2.parse, files.page⟩ writePages
        [good, good ++ [space] ++ person] = .ok (next, answers) ∧
      List.Forall₂ (Finds plainTool [] sampleLibrary) [good, good ++ [space] ++ person] answers := by
  let := integers
  let := wholeNumbers
  refine library_answered publishable_sampleLibrary rfl
    (fun jSum valid => (writePages_isOk_iff jSum).mpr valid)
    fun query member => agrees_of_few plainTool [] sampleLibrary ?_
  rcases List.mem_pair.mp member with rfl | rfl
  · decide
  · decide

end SearchEngine
