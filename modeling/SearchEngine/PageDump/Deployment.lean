/-
This file follows a library of items through the offline programs into the
server: the producer writes the page file and the offset file, the preprocessor
parses the page file and writes the index file, and the constructor of the
searcher loads the index and the offsets.

The result is stated about the items alone. In a publishable library, the loaded
table has one posting for each item under each of its indexed words, which points
at the word in the description of the item, and the range under the id of an item
is that of a page that is read as the item.
-/

import SearchEngine.PageDump.PageFile
import SearchEngine.PageDump.InvertIndexFile
import SearchEngine.PageDump.PageRanges
import SearchEngine.PageDump.SplitTool
import SearchEngine.Searcher.Exceptions

namespace SearchEngine

open Containers Arithmetic Utf8 PageProducer

/-! ### The programs -/

/-- The files the server loads, other than those of the dictionary. -/
structure LibraryFiles where
  page : Bytes
  offset : Bytes
  invert : Bytes

section Programs

variable {Number Weight : Type} [LogArithmetic Number] [Arithmetic Weight]

/-- The offline programs: `PageProducer::store`, `PagePreProcessor::invertProcess` on the page file,
and `PagePreProcessor::store`. -/
def buildLibrary (tool : SplitTool Number) (format : WeightFormat Weight) (stopFile : Bytes)
    (rss : List RssItem) : Except Fault LibraryFiles := do
  let (page, offset) := PageProducer.store rss
  let processor ← (PagePreProcessor.create : PagePreProcessor Weight).invertProcess tool.words
    stopFile (pageDocuments page)
  return ⟨page, offset, processor.store format⟩

/-- `WebPageSearcher::WebPageSearcher` -/
def WebPageSearcher.construct (format : WeightFormat Weight) (files : LibraryFiles) :
    Except Fault (WebPageSearcher Weight) := do
  let invertIndexTable ← initInvertIndex format files.invert
  let offset ← initOffset files.offset
  return ⟨offset, invertIndexTable⟩

end Programs

/-! ### Loading an index -/

section Loading

variable {Weight : Type} [Arithmetic Weight] {format : WeightFormat Weight}

/-- Without `','` in the keywords, what is inserted under a keyword are its rounded postings. -/
theorem readUnder_of_clean {entries : List (Sigma fun _ : Bytes => List (Posting Weight))}
    (distinct : entries.NodupKeys) (clean : ∀ entry ∈ entries, comma ∉ entry.1) (key : Bytes) :
    WebPageSearcher.readUnder format entries key =
      ((entries.dlookup key).getD []).map format.roundPosting := by
  induction entries with
  | nil => rfl
  | cons entry entries inductionHypothesis =>
    obtain ⟨word, postings⟩ := entry
    obtain ⟨absent, rest⟩ := List.nodupKeys_cons.mp distinct
    obtain ⟨here, later⟩ := List.forall_mem_cons.mp clean
    have split : WebPageSearcher.readUnder format (⟨word, postings⟩ :: entries) key =
        (if word = key then postings.map format.roundPosting else []) ++
          WebPageSearcher.readUnder format entries key := by
      rw [WebPageSearcher.readUnder, List.flatMap_cons, List.filter_append, List.map_append, readPairs]
      dsimp only
      rw [withoutCommas_eq_iff.mpr here]
      congr 1
      by_cases same : word = key
      · rw [if_pos same, List.filter_eq_self.mpr (by simp [same]), List.map_map]
        rfl
      · rw [if_neg same, List.filter_eq_nil_iff.mpr (by simp [same])]
        rfl
    rw [split, inductionHypothesis rest later]
    by_cases same : word = key
    · subst same
      rw [if_pos rfl, List.dlookup_cons_eq, List.dlookup_eq_none.mpr absent]
      exact List.append_nil _
    · rw [if_neg same, List.dlookup_cons_ne _ _ (Ne.symm same), List.nil_append]

/-- Where no keyword has a `','` or two postings for one document, each keyword is loaded with its
rounded postings. -/
theorem value_readTable_perm {table : InvertIndexTable Weight} (once : OncePerDocument table)
    (clean : ∀ entry ∈ table.entries, comma ∉ entry.1) (key : Bytes) :
    (value (WebPageSearcher.readTable format table.entries) key).Perm
      ((value table key).map format.roundPosting) := by
  have inserted : WebPageSearcher.readUnder format table.entries key =
      (value table key).map format.roundPosting := readUnder_of_clean table.nodupKeys clean key
  have loaded : value (WebPageSearcher.readTable format table.entries) key =
      placeAll PagePreProcessor.postingLess (WebPageSearcher.readUnder format table.entries key) :=
    value_addAllUnder _ _
  rw [loaded, inserted]
  refine placeAll_perm (List.pairwise_map.mpr ?_)
  refine (List.pairwise_map.mp (once key)).imp fun {first second} different => ?_
  have apart : (format.roundPosting first).id ≠ (format.roundPosting second).id := different
  exact PagePreProcessor.comparable_of_id_ne apart

end Loading

/-! ### Keywords and their postings -/

namespace PagePreProcessor

variable {Weight : Type} [Arithmetic Weight]

/-- Every keyword has a posting. -/
def Posted (table : InvertIndexTable Weight) : Prop := ∀ key ∈ table, value table key ≠ []

theorem Posted.addPostings {table : InvertIndexTable Weight} (posted : Posted table) (curId : Int)
    (sumW : Weight) (curW : List (Sigma fun _ : Bytes => Weight × Int)) :
    Posted (PagePreProcessor.addPostings curId sumW curW table) := by
  induction curW generalizing table with
  | nil => exact posted
  | cons entry curW inductionHypothesis =>
    obtain ⟨word, weight, position⟩ := entry
    rw [PagePreProcessor.addPostings]
    dsimp only
    refine inductionHypothesis fun key member => ?_
    rw [value_insert, subscript_snd, value_subscript]
    split_ifs with same
    · exact place_ne_nil _ _
    · rw [AList.mem_insert, or_iff_right same, mem_subscript, or_iff_right same] at member
      exact posted key member

theorem Posted.weighDocuments {processor : PagePreProcessor Weight}
    (posted : Posted processor.invertIndexTable) (N : Nat) :
    Posted (processor.weighDocuments N).invertIndexTable := by
  rw [PagePreProcessor.weighDocuments]
  generalize (processor.docWords.entries.insertionSort
    fun first second => first.1 ≤ second.1) = documents
  induction documents generalizing processor with
  | nil => exact posted
  | cons document documents inductionHypothesis =>
    rw [List.foldl_cons]
    exact inductionHypothesis (posted.addPostings _ _ _)

/-- Every keyword of the index of documents with different ids has a posting. -/
theorem posted_invertProcess (jieba : Bytes → List Bytes) {stopFile : Bytes}
    {stopWords : List Bytes} (stops : readStopWords stopFile = .ok stopWords)
    {docs : List DocElement} {documents : List Document}
    (reads : List.Forall₂ DocElement.Reads docs documents)
    (distinct : (documents.map Document.id).Nodup) {next : PagePreProcessor Weight}
    (ended : (create : PagePreProcessor Weight).invertProcess jieba stopFile (some docs) = .ok next) :
    Posted next.invertIndexTable := by
  obtain ⟨counted, docCnt, completes, corpus⟩ :=
    countDocuments_corpus reads (by rwa [List.nil_append])
      (corpus_create : Corpus jieba stopWords [] (create : PagePreProcessor Weight) 0)
  have same : next = counted.weighDocuments docCnt := by
    rw [invertProcess, stops, ok_bind] at ended
    dsimp only at ended
    rw [completes, ok_bind] at ended
    exact (Except.ok.inj ended).symm
  rw [same]
  refine Posted.weighDocuments (fun key member => ?_) docCnt
  rw [corpus.invertIndexTable] at member
  exact absurd member (AList.notMem_empty key)

end PagePreProcessor

/-! ### Publishable libraries -/

section Library

variable {Number Weight : Type} [LogArithmetic Number] [Arithmetic Weight]

/-- The words of the description of an item that are indexed. -/
def RssItem.indexed (tool : SplitTool Number) (stopWords : List Bytes) (item : RssItem) :
    List Bytes := keep stopWords (tool.words item.description)

/-- A library that the offline programs and the server can take: its texts are UTF-8 without control
characters and survive the parser, its pages fit, its indexed words have no separator of the index
file, and its weights are printed as decimal tokens. -/
structure Publishable (tool : SplitTool Number) (format : WeightFormat Weight)
    (stopWords : List Bytes) (rss : List RssItem) : Prop where
  printable : ∀ item ∈ rss, ∀ text ∈ item.fields, ∀ byte ∈ text, 32 ≤ byte
  survives : ∀ item ∈ rss, ∀ text ∈ item.fields, Survives text
  valid : ∀ item ∈ rss, ∀ text ∈ item.fields, Valid text
  fits : (store rss).1.length < 2 ^ 31
  short : ∀ (i : Nat) item, rss[i]? = some item → (page (i + 1) item).length < 65536
  clean : ∀ item ∈ rss, ∀ word ∈ item.indexed tool stopWords, space ∉ word ∧ comma ∉ word
  decimal : ∀ document ∈ libraryDocuments 0 rss, ∀ word ∈ document.kept tool.words stopWords,
    format.IsDecimal (tfIdfWeight tool.words stopWords (libraryDocuments 0 rss) document word)

/-- A searcher serves a library: a keyword has one posting for every item it is an indexed word of,
which points at the word in the description, and under the id of an item its page is stored. -/
structure Serves (tool : SplitTool Number) (stopWords : List Bytes) (rss : List RssItem)
    (searcher : WebPageSearcher Weight) : Prop where
  once : OncePerDocument searcher.invertIndexTable
  mem_ids : ∀ word id, id ∈ ids searcher.invertIndexTable word ↔
    ∃ i item, rss[i]? = some item ∧ id = (i + 1 : Nat) ∧ word ∈ item.indexed tool stopWords
  points : ∀ word, ∀ posting ∈ value searcher.invertIndexTable word, ∃ i item letters,
    rss[i]? = some item ∧ posting.id = (i + 1 : Nat) ∧ item.description = encode letters ∧
      PagePreProcessor.PointsAt letters word posting.position
  stored : ∀ (i : Nat) item, rss[i]? = some item →
    storedPage ⟨Tinyxml2.parse, (store rss).1⟩ searcher (i + 1 : Nat) = .ok (itemPage (i + 1) item)

variable {tool : SplitTool Number} {format : WeightFormat Weight} {stopWords : List Bytes}
  {rss : List RssItem}

section Publishable

variable (publishable : Publishable tool format stopWords rss)
include publishable

theorem Publishable.unmarked : ∀ item ∈ rss, ∀ text ∈ item.fields, Unmarked text :=
  fun item member text field => ⟨(publishable.survives item member text field).noMarkup,
    fun zero => absurd (publishable.printable item member text field 0 zero) (by decide)⟩

theorem Publishable.small : 0 + rss.length < 2 ^ 31 := by
  have size := (@le_position rss) le_rfl
  have fits := publishable.fits
  rw [position_length] at size
  omega

/-- The page file is read as the documents of the library. -/
theorem Publishable.reads :
    List.Forall₂ DocElement.Reads (storedElements 0 rss) (libraryDocuments 0 rss) := by
  refine reads_storedElements (fun item member => ?_) publishable.small
  have field : item.description ∈ item.fields := by simp [RssItem.fields]
  have survives := publishable.survives item member _ field
  exact (getText_textNodes (publishable.printable item member _ field)).mpr
    ⟨survives.visible, survives.noReference⟩

/-- The words of a document are those of the description of its item. -/
theorem Publishable.tokens {i : Nat} {item : RssItem} (listed : rss[i]? = some item) (id : Int) :
    Document.tokens tool.words ⟨id, some item.description⟩ = tool.words item.description := by
  have member := List.mem_of_getElem? listed
  have field : item.description ∈ item.fields := by simp [RssItem.fields]
  have nonempty : item.description.length ≠ 0 := by
    intro empty
    rw [List.length_eq_zero_iff] at empty
    refine (publishable.survives item member _ field).visible ?_
    rw [empty]
    exact List.forall_mem_nil _
  rw [Document.tokens]
  dsimp only
  rw [if_pos nonempty]

/-- No description is longer than a page. -/
theorem Publishable.description {i : Nat} {item : RssItem} (listed : rss[i]? = some item) :
    item.description.length < 2 ^ 31 := by
  have short := publishable.short i item listed
  rw [length_page] at short
  omega

/-- A keyword is an indexed word of an item, and a part of its description. -/
theorem Publishable.keyword {i : Nat} {item : RssItem} (listed : rss[i]? = some item) {word : Bytes}
    (indexed : word ∈ item.indexed tool stopWords) :
    space ∉ word ∧ newline ∉ word ∧ comma ∉ word := by
  have member := List.mem_of_getElem? listed
  have field : item.description ∈ item.fields := by simp [RssItem.fields]
  obtain ⟨noSpace, noComma⟩ := publishable.clean item member word indexed
  obtain ⟨flatten, -⟩ := tool.words_valid (publishable.valid item member _ field)
  refine ⟨noSpace, fun inside => ?_, noComma⟩
  have among : newline ∈ item.description := by
    rw [← flatten]
    exact List.mem_flatten.mpr ⟨word, (List.mem_filter.mp indexed).1, inside⟩
  exact absurd (publishable.printable item member _ field newline among) (by decide)

/-- The index that is built of the page file: a keyword has one posting for each item it is an indexed
word of. -/
theorem Publishable.invertProcess {stopFile : Bytes}
    (stops : readStopWords stopFile = .ok stopWords) :
    ∃ processor, (PagePreProcessor.create : PagePreProcessor Weight).invertProcess tool.words stopFile
        (pageDocuments (store rss).1) = .ok processor ∧
      OncePerDocument processor.invertIndexTable ∧
      PagePreProcessor.Posted processor.invertIndexTable ∧
      (∀ word id, id ∈ ids processor.invertIndexTable word ↔
        ∃ i item, rss[i]? = some item ∧ id = (i + 1 : Nat) ∧ word ∈ item.indexed tool stopWords) ∧
      ∀ word, ∀ posting ∈ value processor.invertIndexTable word, ∃ i item letters,
        rss[i]? = some item ∧ posting.id = (i + 1 : Nat) ∧ i + 1 < 2 ^ 31 ∧
          word ∈ item.indexed tool stopWords ∧ item.description = encode letters ∧
          PagePreProcessor.PointsAt letters word posting.position ∧
          format.IsDecimal posting.weight := by
  have reads := publishable.reads
  have distinct := nodup_libraryDocuments 0 rss
  have file : (PagePreProcessor.create : PagePreProcessor Weight).invertProcess tool.words stopFile
      (pageDocuments (store rss).1) =
        (PagePreProcessor.create : PagePreProcessor Weight).invertProcess tool.words stopFile
          (some (storedElements 0 rss)) := by
    have stored : (store rss).1 = PageProducer.written 0 rss := storeLoop_fst 0 [] rss
    rw [stored]
    cases rss with
    | nil => rfl
    | cons item rss => rw [pageDocuments_written publishable.unmarked]
  have document {i : Nat} {item : RssItem} (listed : rss[i]? = some item) :
      (⟨(i + 1 : Nat), some item.description⟩ : Document) ∈ libraryDocuments 0 rss :=
    mem_libraryDocuments.mpr ⟨i, item, listed, by rw [Nat.zero_add]⟩
  have described : ∀ read ∈ libraryDocuments 0 rss, ∀ content, read.description = some content →
      Valid content ∧ content.length < 2 ^ 31 := by
    intro read member content described
    obtain ⟨i, item, listed, rfl⟩ := mem_libraryDocuments.mp member
    cases described
    have field : item.description ∈ item.fields := by simp [RssItem.fields]
    exact ⟨publishable.valid item (List.mem_of_getElem? listed) _ field,
      publishable.description listed⟩
  obtain ⟨processor, ended, index⟩ :=
    PagePreProcessor.invertProcess_spec Weight tool.words stops reads distinct
  obtain ⟨other, alsoEnded, points⟩ :=
    @PagePreProcessor.invertProcess_pointsAt Number Weight _ _ tool _ _ stops _ _ reads distinct
      (fun read member content isContent => (described read member content isContent).1)
      (fun read member content isContent => (described read member content isContent).2)
  obtain rfl : processor = other := Except.ok.inj (ended.symm.trans alsoEnded)
  -- the words of a document are those of its item
  have member {word : Bytes} {posting : Posting Weight}
      (posted : posting ∈ value processor.invertIndexTable word) :
      ∃ i item, rss[i]? = some item ∧ posting.id = (i + 1 : Nat) ∧
        word ∈ item.indexed tool stopWords ∧ format.IsDecimal posting.weight := by
    obtain ⟨read, among, ⟨token, kept⟩, sameId, weight, -⟩ := ((index word).2 posting).mp posted
    obtain ⟨i, item, listed, rfl⟩ := mem_libraryDocuments.mp among
    have isKept : word ∈ Document.kept tool.words stopWords ⟨(0 + i + 1 : Nat), some item.description⟩ :=
      List.mem_filter.mpr ⟨token, by simp [kept]⟩
    rw [publishable.tokens listed] at token
    refine ⟨i, item, listed, ?_, List.mem_filter.mpr ⟨token, by simp [kept]⟩, ?_⟩
    · rw [sameId, Nat.zero_add]
    · rw [weight]
      exact publishable.decimal _ among word isKept
  refine ⟨processor, file.trans ended, fun word => (index word).1,
    PagePreProcessor.posted_invertProcess tool.words stops reads distinct ended, fun word id => ?_,
    fun word posting posted => ?_⟩
  · constructor
    · intro listed
      obtain ⟨posting, posted, rfl⟩ := List.mem_map.mp listed
      obtain ⟨i, item, listed, sameId, indexed, -⟩ := member posted
      exact ⟨i, item, listed, sameId, indexed⟩
    · rintro ⟨i, item, listed, rfl, indexed⟩
      obtain ⟨token, kept⟩ := List.mem_filter.mp indexed
      refine ((points word).1.mem_iff).mpr (List.mem_map.mpr ⟨_, List.mem_filter.mpr
        ⟨document listed, ?_⟩, rfl⟩)
      rw [publishable.tokens listed, Bool.and_eq_true, decide_eq_true_eq]
      exact ⟨token, kept⟩
  · obtain ⟨i, item, listed, sameId, indexed, decimal⟩ := member posted
    obtain ⟨read, among, letters, readId, content, -, pointsAt⟩ := (points word).2 posting posted
    obtain ⟨k, other, alsoListed, rfl⟩ := mem_libraryDocuments.mp among
    have same : k = i := by
      have ids := readId.symm.trans sameId
      dsimp only at ids
      omega
    rw [same] at alsoListed
    obtain rfl : item = other := Option.some.inj (listed.symm.trans alsoListed)
    obtain ⟨inside, -⟩ := List.getElem?_eq_some_iff.mp listed
    have small := publishable.small
    exact ⟨i, item, letters, listed, sameId, by omega, indexed, Option.some.inj content, pointsAt,
      decimal⟩

/-- The constructor of the searcher loads the files of a publishable library, and then serves it. -/
theorem Publishable.load {stopFile : Bytes} (stops : readStopWords stopFile = .ok stopWords) :
    ∃ files searcher, buildLibrary tool format stopFile rss = .ok files ∧
      files.page = (store rss).1 ∧ WebPageSearcher.construct format files = .ok searcher ∧
      Serves tool stopWords rss searcher := by
  obtain ⟨processor, processed, once, posted, mem_ids, points⟩ := publishable.invertProcess stops
  -- the entries of the index are as the file needs them
  have entry {keyword : Sigma fun _ : Bytes => List (Posting Weight)}
      (listed : keyword ∈ processor.invertIndexTable.entries) :
      (space ∉ keyword.1 ∧ newline ∉ keyword.1 ∧ comma ∉ keyword.1) ∧
        ∀ posting ∈ keyword.2, PlainPosting format posting := by
    have found := value_of_mem_entries listed
    have plain : ∀ posting ∈ keyword.2, (space ∉ keyword.1 ∧ newline ∉ keyword.1 ∧
        comma ∉ keyword.1) ∧ PlainPosting format posting := by
      intro posting among
      rw [← found] at among
      obtain ⟨i, item, letters, stored, sameId, small, indexed, -, pointsAt, decimal⟩ :=
        points keyword.1 posting among
      exact ⟨publishable.keyword stored indexed, by omega, pointsAt.stored, decimal⟩
    have isKey : keyword.1 ∈ processor.invertIndexTable :=
      AList.mem_keys.mpr (List.mem_keys_of_mem listed)
    obtain ⟨posting, among⟩ := List.exists_mem_of_ne_nil _ (posted keyword.1 isKey)
    rw [found] at among
    exact ⟨(plain posting among).1, fun posting among => (plain posting among).2⟩
  have read := WebPageSearcher.initInvertIndex_store processor
    (fun keyword listed => ⟨(entry listed).1.1, (entry listed).1.2.1⟩)
    (fun keyword listed => (entry listed).2)
  have loaded := (@value_readTable_perm _ _ format) once
    (fun keyword listed => (entry listed).1.2.2)
  generalize WebPageSearcher.readTable format processor.invertIndexTable.entries = table
    at read loaded
  have sameIds (word : Bytes) : (ids table word).Perm (ids processor.invertIndexTable word) := by
    have mapped := (loaded word).map Posting.id
    rw [List.map_map] at mapped
    exact mapped
  -- the offsets of the pages
  have starts : ∀ i < rss.length, position rss i < 2 ^ 31 := fun i inside =>
    lt_of_le_of_lt (position_le_length inside.le) publishable.fits
  have offsets := (WebPageSearcher.initOffset_store rss _).mpr ⟨starts, rfl⟩
  refine ⟨⟨(store rss).1, (store rss).2, processor.store format⟩,
    ⟨WebPageSearcher.insertOffsets (PageProducer.offsets rss) ∅, table⟩, ?_, rfl, ?_, ?_⟩
  · rw [buildLibrary]
    dsimp only
    rw [processed, ok_bind]
    rfl
  · rw [WebPageSearcher.construct, read, ok_bind, offsets, ok_bind]
    rfl
  · refine ⟨fun word => (sameIds word).nodup_iff.mpr (once word), fun word id => ?_,
      fun word posting among => ?_, fun i item listed => ?_⟩
    · rw [(sameIds word).mem_iff, mem_ids]
    · obtain ⟨original, listed, rfl⟩ := List.mem_map.mp ((loaded word).mem_iff.mp among)
      obtain ⟨i, item, letters, stored, sameId, -, -, content, pointsAt, -⟩ :=
        points word original listed
      exact ⟨i, item, letters, stored, sameId, content, pointsAt⟩
    · obtain ⟨inside, -⟩ := List.getElem?_eq_some_iff.mp listed
      have member := List.mem_of_getElem? listed
      have fits : position rss (i + 1) < 2 ^ 31 :=
        lt_of_le_of_lt (position_le_length inside) publishable.fits
      obtain ⟨children, parsed, taken⟩ := pageOfElements_parse (publishable.printable item member)
        (publishable.survives item member) (show i + 1 < 2 ^ 31 by
          have small := publishable.small
          omega)
      have page := pageText_page (publishable.printable item member) listed fits
      rw [if_pos (publishable.short i item listed)] at page
      rw [storedPage, WebPageSearcher.value_offsets inside]
      exact readPage_eq_ok.mpr ⟨_, children, page, parsed, taken⟩

end Publishable

end Library

end SearchEngine
