/-
This file determines which queries only read the tables of the searcher and of the
dictionary.

Both look keys up through the subscript of their maps, which inserts what it does
not find. A query that ends in a fault leaves what it has inserted by then, so the
searcher's query is stated here with the searcher it leaves in every case, and
proved to answer as before. The main theorem is that the maps keep their entries
exactly when every key that is looked up is there.
-/

import SearchEngine.Recommender.Lookups
import SearchEngine.Searcher.Exceptions

namespace SearchEngine

open Containers

/-! ### Computations that keep the searcher -/

section Kept

variable {State First Second : Type}

/-- A computation that leaves a state also where it ends in a fault, and what follows it. -/
def andThen (first : State × Except Fault First)
    (rest : State → First → State × Except Fault Second) : State × Except Fault Second :=
  match first with
  | (state, .error fault) => (state, .error fault)
  | (state, .ok result) => rest state result

/-- What is left of a computation when a fault loses the state. -/
def settled (computation : State × Except Fault First) : Except Fault (State × First) :=
  computation.2.map fun result => (computation.1, result)

theorem settled_andThen (first : State × Except Fault First)
    (rest : State → First → State × Except Fault Second) :
    settled (andThen first rest) =
      settled first >>= fun result => settled (rest result.1 result.2) := by
  obtain ⟨state, fault | result⟩ := first <;> rfl

/-- Where both parts keep a state, the computation does. -/
theorem andThen_fst {first : State × Except Fault First}
    {rest : State → First → State × Except Fault Second} {state : State} (kept : first.1 = state)
    (later : ∀ result, (rest state result).1 = state) : (andThen first rest).1 = state := by
  obtain ⟨left, fault | result⟩ := first
  · exact kept
  · obtain rfl := kept
    exact later result

end Kept

namespace WebPageSearcher

variable {Weight : Type}

section Scores

variable [Arithmetic Weight] (source : PageSource)

/-- `WebPageSearcher::getWebPageSet` -/
def keepWebPageSet (searcher : WebPageSearcher Weight) (id : Int) (cos : Weight)
    (webPageSet : List (WebPage Weight)) :
    WebPageSearcher Weight × Except Fault (List (WebPage Weight)) :=
  let (offset, range) := subscript searcher.offset id
  ({ searcher with offset },
    (readPage source range).map fun page => place WebPage.less ⟨page, cos⟩ webPageSet)

/-- The loop of `WebPageSearcher::simCalc` over `calcId`. -/
def keepSimCalcLoop (keys : List Bytes) : WebPageSearcher Weight → List Int →
    List (WebPage Weight) → WebPageSearcher Weight × Except Fault (List (WebPage Weight))
  | searcher, [], webPageSet => (searcher, .ok webPageSet)
  | searcher, id :: calcId, webPageSet =>
    let (searcher, obwArr) := searcher.documentWeights id keys
    andThen (searcher, cosine (queryWeights Weight keys.length) obwArr) fun searcher cos =>
      andThen (searcher.keepWebPageSet source id cos webPageSet) fun searcher webPageSet =>
        keepSimCalcLoop keys searcher calcId webPageSet

/-- The loop of `WebPageSearcher::simCalc` over the postings of a single key. -/
def keepSingleLoop : WebPageSearcher Weight → List (Posting Weight) →
    List (WebPage Weight) → WebPageSearcher Weight × Except Fault (List (WebPage Weight))
  | searcher, [], webPageSet => (searcher, .ok webPageSet)
  | searcher, posting :: pageSet, webPageSet =>
    andThen (searcher.keepWebPageSet source posting.id posting.weight webPageSet)
      fun searcher webPageSet => keepSingleLoop searcher pageSet webPageSet

/-- `WebPageSearcher::simCalc` -/
def keepSimCalc (searcher : WebPageSearcher Weight) (keys : List Bytes) (calcId : List Int) :
    WebPageSearcher Weight × Except Fault (List (WebPage Weight)) :=
  if keys.length > 1 then searcher.keepSimCalcLoop source keys calcId []
  else
    match keys with
    | [] => (searcher, .error .outOfBounds)
    | key :: _ =>
      let (searcher, pageSet) := searcher.postings key
      searcher.keepSingleLoop source pageSet []

end Scores

/-- The loop of `WebPageSearcher::outRes` over the keys of one page. -/
def keepSnippets (page : WebPage Weight) : WebPageSearcher Weight → List Bytes → Bytes →
    WebPageSearcher Weight × Except Fault (List Bytes)
  | searcher, [], _ => (searcher, .ok [])
  | searcher, key :: keys, text =>
    let (searcher, found) := searcher.postings key
    let idx : UInt64 :=
      match found.find? (·.id = page.id) with
      | some posting => UInt64.ofInt posting.position
      | none => 0
    andThen (searcher, snippet page.description idx) fun searcher window =>
      andThen (keepSnippets page searcher keys (text ++ window)) fun searcher description =>
        (searcher, .ok ((text ++ window) :: description))

/-- The loop of `WebPageSearcher::outRes` over the pages. -/
def keepOutResLoop (keys : List Bytes) : WebPageSearcher Weight → List (WebPage Weight) →
    WebPageSearcher Weight × Except Fault (List PageObject)
  | searcher, [] => (searcher, .ok [])
  | searcher, page :: webPageSet =>
    andThen (searcher.keepSnippets page keys []) fun searcher description =>
      andThen (keepOutResLoop keys searcher webPageSet) fun searcher jSum =>
        (searcher, .ok (⟨page.id, page.title, page.link, description⟩ :: jSum))

/-- `WebPageSearcher::outRes` -/
def keepOutRes (dump : List PageObject → Except Fault Bytes) (searcher : WebPageSearcher Weight)
    (keys : List Bytes) (webPageSet : List (WebPage Weight)) :
    WebPageSearcher Weight × Except Fault (List PageObject × Bytes) :=
  andThen (searcher.keepOutResLoop keys webPageSet) fun searcher jSum =>
    (searcher, (dump jSum).map fun res => (jSum, res))

/-- `WebPageSearcher::doQuery`, with the searcher it leaves also where it ends in a fault. -/
def keepQuery [Arithmetic Weight] (source : PageSource)
    (dump : List PageObject → Except Fault Bytes) (searcher : WebPageSearcher Weight)
    (key : Bytes) : WebPageSearcher Weight × Except Fault Answer :=
  match searcher.collect key with
  | .error fault => (searcher, .error fault)
  | .ok (searcher, keys, calcId) =>
    andThen (searcher.keepSimCalc source keys calcId) fun searcher webPageSet =>
      andThen (searcher.keepOutRes dump keys webPageSet) fun searcher written =>
        (searcher, .ok ⟨calcId, written.1, written.2⟩)

/-! ### The same answers -/

theorem settled_keepSnippets (page : WebPage Weight) (searcher : WebPageSearcher Weight)
    (keys : List Bytes) (text : Bytes) :
    settled (searcher.keepSnippets page keys text) = searcher.snippets page keys text := by
  induction keys generalizing searcher text with
  | nil => rfl
  | cons key keys inductionHypothesis =>
    rw [keepSnippets, snippets]
    dsimp only
    cases snippet page.description _ with
    | error fault => rfl
    | ok window =>
      rw [andThen, settled_andThen, inductionHypothesis]
      rfl

theorem settled_keepOutResLoop (keys : List Bytes) (searcher : WebPageSearcher Weight)
    (webPageSet : List (WebPage Weight)) :
    settled (searcher.keepOutResLoop keys webPageSet) = searcher.outResLoop keys webPageSet := by
  induction webPageSet generalizing searcher with
  | nil => rfl
  | cons page webPageSet inductionHypothesis =>
    rw [keepOutResLoop, outResLoop, settled_andThen, settled_keepSnippets]
    refine congrArg _ (funext fun written => ?_)
    rw [settled_andThen, inductionHypothesis]
    rfl

theorem settled_keepOutRes (dump : List PageObject → Except Fault Bytes)
    (searcher : WebPageSearcher Weight) (keys : List Bytes) (webPageSet : List (WebPage Weight)) :
    settled (searcher.keepOutRes dump keys webPageSet) = searcher.outRes dump keys webPageSet := by
  rw [keepOutRes, outRes, settled_andThen, settled_keepOutResLoop]
  refine congrArg _ (funext fun written => ?_)
  dsimp only [settled]
  cases dump written.2 <;> rfl

section Scores

variable [Arithmetic Weight] (source : PageSource)

theorem settled_keepWebPageSet (searcher : WebPageSearcher Weight) (id : Int) (cos : Weight)
    (webPageSet : List (WebPage Weight)) :
    settled (searcher.keepWebPageSet source id cos webPageSet) =
      searcher.getWebPageSet source id cos webPageSet := by
  rw [keepWebPageSet, getWebPageSet]
  dsimp only [settled]
  cases readPage source (subscript searcher.offset id).2 <;> rfl

theorem settled_keepSimCalcLoop (keys : List Bytes) (searcher : WebPageSearcher Weight)
    (calcId : List Int) (webPageSet : List (WebPage Weight)) :
    settled (searcher.keepSimCalcLoop source keys calcId webPageSet) =
      searcher.simCalcLoop source keys calcId webPageSet := by
  induction calcId generalizing searcher webPageSet with
  | nil => rfl
  | cons id calcId inductionHypothesis =>
    rw [keepSimCalcLoop, simCalcLoop]
    dsimp only
    cases cosine (queryWeights Weight keys.length) (searcher.documentWeights id keys).2 with
    | error fault => rfl
    | ok cos =>
      rw [andThen, ok_bind, settled_andThen, settled_keepWebPageSet]
      exact congrArg _ (funext fun loaded => inductionHypothesis loaded.1 loaded.2)

theorem settled_keepSingleLoop (searcher : WebPageSearcher Weight)
    (pageSet : List (Posting Weight)) (webPageSet : List (WebPage Weight)) :
    settled (searcher.keepSingleLoop source pageSet webPageSet) =
      searcher.singleLoop source pageSet webPageSet := by
  induction pageSet generalizing searcher webPageSet with
  | nil => rfl
  | cons posting pageSet inductionHypothesis =>
    rw [keepSingleLoop, singleLoop, settled_andThen, settled_keepWebPageSet]
    exact congrArg _ (funext fun loaded => inductionHypothesis loaded.1 loaded.2)

theorem settled_keepSimCalc (searcher : WebPageSearcher Weight) (keys : List Bytes)
    (calcId : List Int) :
    settled (searcher.keepSimCalc source keys calcId) = searcher.simCalc source keys calcId := by
  rw [keepSimCalc.eq_def, simCalc.eq_def]
  split_ifs
  · exact settled_keepSimCalcLoop ..
  · cases keys with
    | nil => rfl
    | cons key keys => exact settled_keepSingleLoop ..

/-- Keeping the searcher changes no answer. -/
theorem settled_keepQuery (dump : List PageObject → Except Fault Bytes)
    (searcher : WebPageSearcher Weight) (key : Bytes) :
    settled (searcher.keepQuery source dump key) = searcher.doQuery source dump key := by
  rw [keepQuery, doQuery]
  cases searcher.collect key with
  | error fault => rfl
  | ok collected =>
    dsimp only
    rw [ok_bind, settled_andThen, settled_keepSimCalc]
    refine congrArg _ (funext fun scored => ?_)
    rw [settled_andThen, settled_keepOutRes]
    rfl

end Scores

/-! ### What a query looks up -/

/-- The searcher after lookups of keys and of ids. -/
structure Touches (searcher : WebPageSearcher Weight) (keys : List Bytes) (ids : List Int)
    (next : WebPageSearcher Weight) : Prop where
  table : LooksUp searcher.invertIndexTable keys next.invertIndexTable
  offset : LooksUp searcher.offset ids next.offset

theorem Touches.refl (searcher : WebPageSearcher Weight) : searcher.Touches [] [] searcher :=
  ⟨looksUp_nil _, looksUp_nil _⟩

theorem Touches.trans {searcher middle next : WebPageSearcher Weight} {keys later : List Bytes}
    {ids further : List Int} (first : searcher.Touches keys ids middle)
    (second : middle.Touches later further next) :
    searcher.Touches (keys ++ later) (ids ++ further) next :=
  ⟨first.table.trans second.table, first.offset.trans second.offset⟩

theorem postings_touches (searcher : WebPageSearcher Weight) (key : Bytes) :
    searcher.Touches [key] [] (searcher.postings key).1 :=
  ⟨looksUp_subscript searcher.invertIndexTable key, looksUp_nil _⟩

theorem multiQueryLoop_touches (firstKeyId : List Int) (searcher : WebPageSearcher Weight)
    (keys : List Bytes) (retId : List Int) :
    searcher.Touches keys [] (multiQueryLoop firstKeyId searcher keys retId).1 := by
  induction keys generalizing searcher retId with
  | nil => exact Touches.refl searcher
  | cons key keys inductionHypothesis =>
    exact (postings_touches searcher key).trans (inductionHypothesis _ _)

/-- Collecting the ids looks every piece of the query up. -/
theorem collect_touches {searcher next : WebPageSearcher Weight} {query : Bytes} {keys : List Bytes}
    {calcId : List Int} (collected : searcher.collect query = .ok (next, keys, calcId)) :
    searcher.Touches (pieces query) [] next := by
  rw [collect, splitKeys_nil] at collected
  dsimp only at collected
  split_ifs at collected with few
  · obtain ⟨rfl, -⟩ := Prod.mk.inj (Except.ok.inj collected)
    rw [pieces_of_few (by omega)]
    exact postings_touches searcher query
  · obtain ⟨first, later, split⟩ := List.exists_cons_of_ne_nil (pieces_ne_nil query)
    rw [split, multiQuery] at collected
    obtain ⟨rfl, -⟩ := Prod.mk.inj (Except.ok.inj collected)
    rw [split]
    exact (postings_touches searcher first).trans (multiQueryLoop_touches _ _ _ _)

/-- All of the keys are in the table. -/
def Present (searcher : WebPageSearcher Weight) (keys : List Bytes) : Prop :=
  ∀ key ∈ keys, key ∈ searcher.invertIndexTable

theorem postings_of_mem {searcher : WebPageSearcher Weight} {key : Bytes}
    (member : key ∈ searcher.invertIndexTable) :
    searcher.postings key = (searcher, value searcher.invertIndexTable key) := by
  rw [postings, subscript_of_mem member]

section Present

variable {searcher : WebPageSearcher Weight} {keys : List Bytes}

theorem documentWeights_of_present (present : searcher.Present keys) (id : Int) :
    (searcher.documentWeights id keys).1 = searcher := by
  induction keys with
  | nil => rfl
  | cons key keys inductionHypothesis =>
    obtain ⟨member, later⟩ := List.forall_mem_cons.mp present
    rw [documentWeights, postings_of_mem member]
    exact inductionHypothesis later

/-- With all keys in the table the response is written from the searcher as it is. -/
theorem keepSnippets_of_present (page : WebPage Weight) (present : searcher.Present keys)
    (text : Bytes) : (searcher.keepSnippets page keys text).1 = searcher := by
  induction keys generalizing text with
  | nil => rfl
  | cons key keys inductionHypothesis =>
    obtain ⟨member, later⟩ := List.forall_mem_cons.mp present
    rw [keepSnippets, postings_of_mem member]
    exact andThen_fst rfl fun window => andThen_fst (inductionHypothesis later _) fun _ => rfl

theorem keepOutResLoop_of_present (present : searcher.Present keys)
    (webPageSet : List (WebPage Weight)) :
    (searcher.keepOutResLoop keys webPageSet).1 = searcher := by
  induction webPageSet with
  | nil => rfl
  | cons page webPageSet inductionHypothesis =>
    rw [keepOutResLoop]
    exact andThen_fst (keepSnippets_of_present page present []) fun _ =>
      andThen_fst inductionHypothesis fun _ => rfl

theorem keepOutRes_of_present (dump : List PageObject → Except Fault Bytes)
    (present : searcher.Present keys) (webPageSet : List (WebPage Weight)) :
    (searcher.keepOutRes dump keys webPageSet).1 = searcher :=
  andThen_fst (keepOutResLoop_of_present present webPageSet) fun _ => rfl

variable [Arithmetic Weight] (source : PageSource)

omit [Arithmetic Weight] in
theorem touches_offset (searcher : WebPageSearcher Weight) (id : Int) :
    searcher.Touches [] [id] { searcher with offset := (subscript searcher.offset id).1 } :=
  ⟨looksUp_nil _, looksUp_subscript searcher.offset id⟩

/-- One round of the loops that read pages, and the rounds behind it. -/
theorem keepWebPageSet_touches {id : Int} {cos : Weight} {webPageSet : List (WebPage Weight)}
    {calcId : List Int} {accepts : Int → Bool}
    {rest : WebPageSearcher Weight → List (WebPage Weight) →
      WebPageSearcher Weight × Except Fault (List (WebPage Weight))}
    (later : ∀ (next : WebPageSearcher Weight) webPageSet, next.ReadsAs searcher →
      next.invertIndexTable = searcher.invertIndexTable →
      next.Touches [] (readUntil (storedPage source searcher) accepts calcId)
        (rest next webPageSet).1)
    (accepted : accepts id = true) :
    searcher.Touches [] (readUntil (storedPage source searcher) accepts (id :: calcId))
      (andThen (searcher.keepWebPageSet source id cos webPageSet) rest).1 := by
  have touched := touches_offset searcher id
  have reads : ({ searcher with offset := (subscript searcher.offset id).1 } :
      WebPageSearcher Weight).ReadsAs searcher := ⟨value_subscript searcher.offset id, rfl⟩
  rw [readUntil, if_pos accepted, keepWebPageSet]
  dsimp only
  rw [subscript_snd, ← storedPage]
  cases storedPage source searcher id with
  | error fault => exact touched
  | ok page => exact touched.trans (later _ _ reads rfl)

theorem keepSingleLoop_touches (searcher : WebPageSearcher Weight)
    (pageSet : List (Posting Weight)) (webPageSet : List (WebPage Weight)) :
    searcher.Touches []
      (readUntil (storedPage source searcher) (fun _ => true) (pageSet.map Posting.id))
      (searcher.keepSingleLoop source pageSet webPageSet).1 := by
  induction pageSet generalizing searcher webPageSet with
  | nil => exact Touches.refl searcher
  | cons posting pageSet inductionHypothesis =>
    refine keepWebPageSet_touches source (fun next webPageSet reads _ => ?_) rfl
    rw [← storedPage_congr reads]
    exact inductionHypothesis next webPageSet

theorem keepSimCalcLoop_touches (present : searcher.Present keys) (calcId : List Int)
    (webPageSet : List (WebPage Weight)) :
    searcher.Touches []
      (readUntil (storedPage source searcher) (scorable searcher.invertIndexTable keys) calcId)
      (searcher.keepSimCalcLoop source keys calcId webPageSet).1 := by
  induction calcId generalizing searcher webPageSet with
  | nil => exact Touches.refl searcher
  | cons id calcId inductionHypothesis =>
    rw [keepSimCalcLoop]
    dsimp only
    rw [documentWeights_of_present present, (documentWeights_spec id searcher keys).2]
    cases scored : cosine (queryWeights Weight keys.length)
        (weightsUnder searcher.invertIndexTable keys id) with
    | error fault =>
      rw [readUntil, scorable_of_error scored]
      exact Touches.refl searcher
    | ok cos =>
      refine keepWebPageSet_touches source (fun next webPageSet reads same => ?_)
        (scorable_of_ok scored)
      rw [← storedPage_congr reads, ← same]
      refine inductionHypothesis ?_ webPageSet
      unfold Present
      rw [same]
      exact present

end Present

/-- Scoring looks the documents up whose pages are read. -/
theorem keepSimCalc_touches [Arithmetic Weight] (source : PageSource)
    {searcher other : WebPageSearcher Weight} (reads : other.ReadsAs searcher) {query : Bytes}
    (present : other.Present (pieces query)) :
    other.Touches [] (documentsRead source searcher query)
      (other.keepSimCalc source (pieces query)
        (collectedIds searcher.invertIndexTable query)).1 := by
  rw [keepSimCalc.eq_def, documentsRead]
  by_cases several : (pieces query).length > 1
  · simp only [if_pos several, ← storedPage_congr reads, ← scorable_congr reads]
    exact keepSimCalcLoop_touches source present _ _
  · have single := pieces_of_few several
    rw [single] at present
    rw [if_neg several, if_neg several, collectedIds_single single, single]
    dsimp only
    rw [postings_of_mem (present query (List.mem_singleton_self query)), ids, ← reads.table,
      ← storedPage_congr reads]
    exact keepSingleLoop_touches source other _ _

/-- A query looks up its pieces and the documents whose pages it reads. -/
theorem keepQuery_touches [Arithmetic Weight] (source : PageSource)
    (dump : List PageObject → Except Fault Bytes) (searcher : WebPageSearcher Weight)
    (query : Bytes) :
    searcher.Touches (pieces query) (documentsRead source searcher query)
      (searcher.keepQuery source dump query).1 := by
  obtain ⟨collecting, reads, collected⟩ := collect_eq_ok searcher query
  have touched := collect_touches collected
  have present : collecting.Present (pieces query) := fun key member => touched.table.mem member
  have scored := keepSimCalc_touches source reads present
  have written (webPageSet : List (WebPage Weight)) := keepOutRes_of_present dump
    (fun key member => scored.table.mono (present key member)) webPageSet
  have answered := touched.trans scored
  rw [List.append_nil, List.nil_append] at answered
  rw [keepQuery, collected]
  dsimp only
  rw [andThen_fst rfl fun webPageSet => andThen_fst (written webPageSet) fun _ => rfl]
  exact answered

end WebPageSearcher

/-! ### The dictionary -/

namespace Dictionary

/-- The characters that are looked up: those up to the first one under which a candidate cannot be
built. -/
def lettersUntil (dictionary : Dictionary) (sought : Bytes) : List Bytes → List Bytes
  | [] => []
  | letter :: words =>
    letter :: match pushPositions dictionary.dict sought (value dictionary.index letter) with
      | .ok _ => lettersUntil dictionary sought words
      | .error _ => []

/-- The characters a query looks up. -/
def lettersRead (dictionary : Dictionary) (sought : Bytes) : List Bytes :=
  match splitSought sought with
  | .error _ => []
  | .ok words => dictionary.lettersUntil sought words

theorem lettersUntil_congr {dictionary other : Dictionary} (reads : dictionary.ReadsAs other)
    (sought : Bytes) (words : List Bytes) :
    dictionary.lettersUntil sought words = other.lettersUntil sought words := by
  induction words with
  | nil => rfl
  | cons letter words inductionHypothesis =>
    rw [lettersUntil, lettersUntil, reads.dict, reads.index, inductionHypothesis]

theorem pushCandidates_looksUp (sought : Bytes) (dictionary : Dictionary) (words : List Bytes) :
    LooksUp dictionary.index (dictionary.lettersUntil sought words)
      (pushCandidates sought dictionary words).1.index := by
  induction words generalizing dictionary with
  | nil => exact looksUp_nil _
  | cons letter words inductionHypothesis =>
    have looked := looksUp_subscript dictionary.index letter
    rw [pushCandidates, lettersUntil]
    dsimp only
    rw [subscript_snd]
    cases pushPositions dictionary.dict sought (value dictionary.index letter) with
    | error fault => exact looked
    | ok pushed =>
      have later := inductionHypothesis
        { dictionary with index := (subscript dictionary.index letter).1 }
      rw [lettersUntil_congr (readsAs_subscript dictionary letter)] at later
      exact looked.trans later

theorem doQuery_looksUp (que : PriorityQueue CandidateResult.less) (dictionary : Dictionary)
    (sought : Bytes) :
    LooksUp dictionary.index (dictionary.lettersRead sought)
      (dictionary.doQuery que sought).1.index := by
  rw [doQuery, select, lettersRead]
  dsimp only
  rw [candidates]
  cases splitSought sought with
  | error fault => exact looksUp_nil _
  | ok words => exact pushCandidates_looksUp sought dictionary words

end Dictionary

/-! ### Queries that only read -/

section ReadOnly

variable {Weight : Type} [Arithmetic Weight]

/-- The queries leave every table as it was. -/
structure ReadsOnly (source : PageSource) (dump : List PageObject → Except Fault Bytes)
    (que : PriorityQueue CandidateResult.less) (searcher : WebPageSearcher Weight)
    (dictionary : Dictionary) (query sought : Bytes) : Prop where
  invertIndexTable : SameEntries (searcher.keepQuery source dump query).1.invertIndexTable
    searcher.invertIndexTable
  offset : SameEntries (searcher.keepQuery source dump query).1.offset searcher.offset
  dict : (dictionary.doQuery que sought).1.dict = dictionary.dict
  index : SameEntries (dictionary.doQuery que sought).1.index dictionary.index

/-- Every key the queries look up is there: the pieces of the one, the documents whose pages it
reads, and the characters of the other. -/
structure Known (source : PageSource) (searcher : WebPageSearcher Weight) (dictionary : Dictionary)
    (query sought : Bytes) : Prop where
  pieces : ∀ piece ∈ pieces query, piece ∈ searcher.invertIndexTable
  documents : ∀ id ∈ documentsRead source searcher query, id ∈ searcher.offset
  letters : ∀ letter ∈ dictionary.lettersRead sought, letter ∈ dictionary.index

/-- Queries only read exactly when they look nothing up that is not there. -/
theorem readsOnly_iff (source : PageSource) (dump : List PageObject → Except Fault Bytes)
    (que : PriorityQueue CandidateResult.less) (searcher : WebPageSearcher Weight)
    (dictionary : Dictionary) (query sought : Bytes) :
    ReadsOnly source dump que searcher dictionary query sought ↔
      Known source searcher dictionary query sought := by
  have touched := searcher.keepQuery_touches source dump query
  have looked := dictionary.doQuery_looksUp que sought
  constructor
  · intro readsOnly
    exact ⟨touched.table.sameEntries_iff.mp readsOnly.invertIndexTable,
      touched.offset.sameEntries_iff.mp readsOnly.offset, looked.sameEntries_iff.mp readsOnly.index⟩
  · intro known
    exact ⟨touched.table.sameEntries_iff.mpr known.pieces,
      touched.offset.sameEntries_iff.mpr known.documents,
      (dictionary.doQuery_readsAs que sought).dict, looked.sameEntries_iff.mpr known.letters⟩

end ReadOnly

/-- A query for the word `z`, which no document contains, and a dictionary query for `z`, which no
word contains: both insert it. -/
theorem unknownWord_inserted :
    letI := wholeNumbers
    let source : PageSource := ⟨fun _ => none, []⟩
    let dictionary : Dictionary := ⟨[], ∅⟩
    ¬ ReadsOnly source writePages orderedQueue twoDocuments dictionary [122] [122] ∧
      (∃ next answer, twoDocuments.doQuery source writePages [122] = .ok (next, answer) ∧
        [122] ∈ next.invertIndexTable ∧ [122] ∉ twoDocuments.invertIndexTable) ∧
      [122] ∈ (dictionary.doQuery orderedQueue [122]).1.index := by
  let := wholeNumbers
  have absent : [122] ∉ twoDocuments.invertIndexTable := by decide
  have touched := twoDocuments.keepQuery_touches ⟨fun _ => none, []⟩ writePages [122]
  refine ⟨fun readsOnly => ?_, ⟨_, _, rfl, ?_, absent⟩, ?_⟩
  · exact absent (touched.table.sameEntries_iff.mp readsOnly.invertIndexTable [122] (by decide))
  · decide
  · decide

end SearchEngine
