/-
This file determines what the counting pass of `PagePreProcessor::invertProcess`
leaves in its maps.

The words of a document are its kept words: those the segmenter gives for its
description less the skipped ones. The pass over one document adds one to the
number of documents of each of its kept words, collects the set of these words,
counts their occurrences, and ends with the position of the last occurrence of
each. The pass over all documents does this for each, and documents with
different ids do not disturb each other.
-/

import SearchEngine.PageDump.PagePreProcessor

namespace SearchEngine

open Containers

/-! ### Documents and their words -/

/-- A document: its id, and its description where this is not null. -/
structure Document where
  id : Int
  description : Option Bytes

/-- An element is read as a document. -/
def DocElement.Reads (element : DocElement) (document : Document) : Prop :=
  ∃ docid, element.docid = some (some docid) ∧ stoi docid = .ok document.id ∧
    element.description = some document.description

/-- The words of a list that are indexed. -/
def keep (stopWords : List Bytes) (words : List Bytes) : List Bytes :=
  words.filter fun word => !skipped stopWords word

namespace Document

variable (jieba : Bytes → List Bytes) (stopWords : List Bytes)

/-- The words of a document. An empty description is not segmented. -/
def tokens (document : Document) : List Bytes :=
  match document.description with
  | none => []
  | some content => if content.length ≠ 0 then jieba content else []

/-- The words of a document that are indexed, at all their occurrences. -/
def kept (document : Document) : List Bytes := keep stopWords (document.tokens jieba)

/-- The set of the words of a document that are indexed. -/
def keptWords (document : Document) : List Bytes := placeAll bytesLess (document.kept jieba stopWords)

end Document

theorem bytesLess_total (first second : Bytes) (notLess : ¬ bytesLess first second)
    (notGreater : ¬ bytesLess second first) : first = second := by
  rw [bytesLess, decide_eq_true_eq] at notLess notGreater
  have injective : Function.Injective (List.map UInt8.toNat) :=
    List.map_injective_iff.mpr fun _ _ same => UInt8.toNat_inj.mp same
  exact injective (le_antisymm (not_lt.mp notGreater) (not_lt.mp notLess))

theorem bytesLess_irrefl (word : Bytes) : ¬ bytesLess word word := by
  rw [bytesLess, decide_eq_true_eq]
  exact lt_irrefl _

theorem bytesLess_trans (first second third : Bytes) (left : bytesLess first second)
    (right : bytesLess second third) : bytesLess first third := by
  rw [bytesLess, decide_eq_true_eq] at left right ⊢
  exact left.trans right

theorem mem_placeAll_bytesLess (words : List Bytes) (word : Bytes) :
    word ∈ placeAll bytesLess words ↔ word ∈ words := by
  induction words using List.reverseRecOn with
  | nil => rfl
  | append_singleton words last inductionHypothesis =>
    rw [placeAll_append_singleton, mem_place_of_total bytesLess_total, inductionHypothesis,
      List.mem_append, List.mem_singleton, or_comm]

/-- The last occurrence of a word is behind these bytes. -/
def LastOccurrence (tokens : List Bytes) (word : Bytes) (offset : Nat) : Prop :=
  ∃ before after, tokens = before ++ word :: after ∧ word ∉ after ∧ offset = before.flatten.length

/-- A word has one last occurrence. -/
theorem LastOccurrence.unique {tokens : List Bytes} {word : Bytes} {first second : Nat}
    (left : LastOccurrence tokens word first) (right : LastOccurrence tokens word second) :
    first = second := by
  obtain ⟨before, after, rfl, absent, rfl⟩ := left
  obtain ⟨others, behind, same, alsoAbsent, rfl⟩ := right
  have shorter {front longer rest further : List Bytes} (absent : word ∉ rest)
      (split : longer = front ++ further) (ends : word :: rest = further ++ word :: after ∨
        word :: rest = further ++ word :: behind) : front = longer := by
    cases further with
    | nil => rw [split, List.append_nil]
    | cons head further =>
      refine absurd ?_ absent
      rcases ends with ends | ends <;> rw [(List.cons.inj ends).2] <;> simp
  rcases List.append_eq_append_iff.mp same with ⟨further, split, ends⟩ | ⟨further, split, ends⟩
  · rw [shorter absent split (Or.inr ends)]
  · rw [shorter alsoAbsent split (Or.inl ends)]

theorem lastOccurrence_append_self (tokens : List Bytes) (word : Bytes) :
    LastOccurrence (tokens ++ [word]) word tokens.flatten.length :=
  ⟨tokens, [], rfl, List.not_mem_nil, rfl⟩

theorem LastOccurrence.append {tokens : List Bytes} {word : Bytes} {offset : Nat}
    (last : LastOccurrence tokens word offset) {other : Bytes} (different : word ≠ other) :
    LastOccurrence (tokens ++ [other]) word offset := by
  obtain ⟨before, after, rfl, absent, same⟩ := last
  refine ⟨before, after ++ [other], by simp, ?_, same⟩
  rw [List.mem_append, List.mem_singleton]
  exact not_or_intro absent different

namespace PagePreProcessor

variable {Weight : Type}

/-! ### One document -/

section Words

variable (stopWords : List Bytes)

theorem keep_append_singleton (words : List Bytes) (word : Bytes) :
    keep stopWords (words ++ [word]) =
      if skipped stopWords word then keep stopWords words else keep stopWords words ++ [word] := by
  rw [keep, List.filter_append, ← keep]
  cases skip : skipped stopWords word <;> simp [skip]

/-- What the pass over the first words of a document has made of the maps. -/
structure Counted (base : PagePreProcessor Weight) (id : Int) (words : List Bytes)
    (processor : PagePreProcessor Weight) : Prop where
  invertIndexTable : processor.invertIndexTable = base.invertIndexTable
  wordsFreq : ∀ word, value processor.wordsFreq word =
    value base.wordsFreq word + if word ∈ keep stopWords words then 1 else 0
  docWords : ∀ other, value processor.docWords other =
    if other = id then placeAll bytesLess (keep stopWords words) else value base.docWords other
  count : ∀ word, (value (value processor.docFreq word) id).1 = (keep stopWords words).count word
  position : ∀ word ∈ keep stopWords words, ∃ offset, LastOccurrence words word offset ∧
    (value (value processor.docFreq word) id).2 = toInt offset
  others : ∀ word other, other ≠ id →
    value (value processor.docFreq word) other = value (value base.docFreq word) other

/-- The maps have nothing for a document. -/
structure Fresh (processor : PagePreProcessor Weight) (id : Int) : Prop where
  docWords : value processor.docWords id = []
  docFreq : ∀ word, value (value processor.docFreq word) id = (0, 0)

variable {stopWords} {base processor : PagePreProcessor Weight} {id : Int} {words : List Bytes}

theorem Fresh.counted (fresh : base.Fresh id) : Counted stopWords base id [] base where
  invertIndexTable := rfl
  wordsFreq := fun _ => rfl
  docWords := fun other => by
    split_ifs with same
    · rw [same, fresh.docWords]
      rfl
    · rfl
  count := fun word => by rw [fresh.docFreq]; rfl
  position := fun _ member => absurd member List.not_mem_nil
  others := fun _ _ _ => rfl

/-- A skipped word only moves the position. -/
theorem Counted.skip (counted : Counted stopWords base id words processor) {word : Bytes}
    (skip : skipped stopWords word = true) :
    Counted stopWords base id (words ++ [word]) processor := by
  have same : keep stopWords (words ++ [word]) = keep stopWords words := by
    rw [keep_append_singleton, if_pos skip]
  refine ⟨counted.invertIndexTable, ?_, ?_, ?_, fun other member => ?_, counted.others⟩
  · rw [same]
    exact counted.wordsFreq
  · rw [same]
    exact counted.docWords
  · rw [same]
    exact counted.count
  · rw [same] at member
    obtain ⟨offset, last, position⟩ := counted.position other member
    refine ⟨offset, last.append ?_, position⟩
    rintro rfl
    have indexed := (List.mem_filter.mp member).2
    rw [skip] at indexed
    exact absurd indexed (by decide)

/-- What `countWord` makes of the maps when the word is not skipped. -/
theorem countWord_kept (id : Int) (curPos : Nat) {word : Bytes}
    (kept : skipped stopWords word = false) (processor : PagePreProcessor Weight) :
    let next := countWord stopWords id curPos word processor
    let words := value processor.docWords id
    next.invertIndexTable = processor.invertIndexTable ∧
      (∀ other, value next.wordsFreq other =
        value processor.wordsFreq other + if other = word ∧ word ∉ words then 1 else 0) ∧
      (∀ other, value next.docWords other =
        if other = id then (if word ∈ words then words else place bytesLess word words)
        else value processor.docWords other) ∧
      ∀ other another, value (value next.docFreq other) another =
        if other = word ∧ another = id then
          ((value (value processor.docFreq word) id).1 + 1, toInt curPos)
        else value (value processor.docFreq other) another := by
  intro next words
  have docFreq (freqs : AList fun _ : Bytes => AList fun _ : Int => Nat × Int) (entry : Nat × Int)
      (other : Bytes) (another : Int) :
      value (value (freqs.insert word ((value freqs word).insert id entry)) other) another =
        if other = word ∧ another = id then entry else value (value freqs other) another := by
    rw [value_insert]
    by_cases same : other = word
    · rw [if_pos same, value_insert, same]
      simp
    · rw [if_neg same, if_neg fun both => same both.1]
  by_cases present : word ∈ words
  · have unfolded : next = { processor with
        docWords := (subscript processor.docWords id).1
        docFreq := processor.docFreq.insert word ((value processor.docFreq word).insert id
          ((value (value processor.docFreq word) id).1 + 1, toInt curPos)) } := by
      simp only [next, countWord, kept, subscript_snd]
      rw [if_neg Bool.false_ne_true, if_pos present]
    rw [unfolded]
    refine ⟨rfl, fun other => ?_, fun other => ?_, docFreq processor.docFreq _⟩
    · rw [if_neg fun both => both.2 present, Nat.add_zero]
      rfl
    · rw [value_subscript, if_pos present]
      split_ifs with same
      · rw [same]
      · rfl
  · have unfolded : next = { processor with
        wordsFreq := processor.wordsFreq.insert word (value processor.wordsFreq word + 1)
        docWords := (subscript processor.docWords id).1.insert id (place bytesLess word words)
        docFreq := processor.docFreq.insert word ((value processor.docFreq word).insert id
          ((value (value processor.docFreq word) id).1 + 1, toInt curPos)) } := by
      simp only [next, countWord, kept, subscript_snd]
      rw [if_neg Bool.false_ne_true, if_neg present]
    rw [unfolded]
    refine ⟨rfl, fun other => ?_, fun other => ?_, docFreq processor.docFreq _⟩
    · rw [value_insert]
      split_ifs with same both both
      · rw [same]
      · exact absurd ⟨same, present⟩ both
      · exact absurd both.1 same
      · rfl
    · rw [value_insert, value_subscript, if_neg present]

/-- A word that is not skipped is counted. -/
theorem Counted.count_kept (counted : Counted stopWords base id words processor) {word : Bytes}
    (kept : skipped stopWords word = false) :
    Counted stopWords base id (words ++ [word])
      (countWord stopWords id words.flatten.length word processor) := by
  obtain ⟨sameTable, wordsFreq, docWords, docFreq⟩ :=
    countWord_kept id words.flatten.length kept processor
  have longer : keep stopWords (words ++ [word]) = keep stopWords words ++ [word] := by
    rw [keep_append_singleton, if_neg (by simp [kept])]
  have set : value processor.docWords id = placeAll bytesLess (keep stopWords words) := by
    rw [counted.docWords, if_pos rfl]
  have member : word ∈ value processor.docWords id ↔ word ∈ keep stopWords words := by
    rw [set, mem_placeAll_bytesLess]
  refine ⟨sameTable.trans counted.invertIndexTable, fun other => ?_, fun other => ?_,
    fun other => ?_, fun other indexed => ?_, fun other another different => ?_⟩
  · rw [wordsFreq, counted.wordsFreq, longer, Nat.add_assoc]
    simp only [member, List.mem_append, List.mem_singleton]
    by_cases same : other = word
    · rw [same]
      by_cases earlier : word ∈ keep stopWords words <;> simp [earlier]
    · simp [same]
  · rw [docWords, counted.docWords other, longer, placeAll_append_singleton]
    split_ifs with same present
    · rw [set, place_of_mem bytesLess_irrefl bytesLess_trans
        (placeAll_ordered bytesLess_trans _) (by rwa [mem_placeAll_bytesLess, ← member])]
    · rw [set]
    · rfl
  · rw [docFreq, longer, List.count_append, ← counted.count other]
    by_cases same : other = word
    · subst same
      simp
    · rw [if_neg fun both => same both.1, List.count_singleton, if_neg, Nat.add_zero]
      simpa using Ne.symm same
  · rw [longer, List.mem_append, List.mem_singleton] at indexed
    by_cases same : other = word
    · refine ⟨words.flatten.length, ?_, by rw [docFreq, if_pos ⟨same, rfl⟩]⟩
      rw [same]
      exact lastOccurrence_append_self words word
    · obtain ⟨offset, last, position⟩ := counted.position other (indexed.resolve_right same)
      refine ⟨offset, last.append same, ?_⟩
      rw [docFreq, if_neg fun both => same both.1, position]
  · rw [docFreq, if_neg fun both => different both.2, counted.others other another different]

/-- The pass over the words of a document. -/
theorem Counted.countWords (counted : Counted stopWords base id words processor)
    (cutWords : List Bytes) :
    Counted stopWords base id (words ++ cutWords)
      (countWords stopWords id words.flatten.length cutWords processor) := by
  induction cutWords generalizing words processor with
  | nil =>
    rw [List.append_nil]
    exact counted
  | cons word cutWords inductionHypothesis =>
    have next : Counted stopWords base id (words ++ [word])
        (countWord stopWords id words.flatten.length word processor) := by
      cases skip : skipped stopWords word with
      | false => exact counted.count_kept skip
      | true =>
        rw [countWord, if_pos skip]
        exact counted.skip skip
    have rest := inductionHypothesis next
    rw [List.flatten_append, List.length_append, List.append_assoc, List.flatten_singleton] at rest
    exact rest

end Words

/-! ### All documents -/

section Corpus

variable (jieba : Bytes → List Bytes) (stopWords : List Bytes)

/-- What the counting pass has recorded of a document. -/
structure Recorded (processor : PagePreProcessor Weight) (document : Document) : Prop where
  docWords : value processor.docWords document.id = document.keptWords jieba stopWords
  count : ∀ word, (value (value processor.docFreq word) document.id).1 =
    (document.kept jieba stopWords).count word
  position : ∀ word ∈ document.kept jieba stopWords, ∃ offset,
    LastOccurrence (document.tokens jieba) word offset ∧
      (value (value processor.docFreq word) document.id).2 = toInt offset

/-- What the counting pass has made of the maps. -/
structure Corpus (documents : List Document) (processor : PagePreProcessor Weight)
    (docCnt : Nat) : Prop where
  invertIndexTable : processor.invertIndexTable = ∅
  docCnt : docCnt = documents.countP fun document => document.description.isSome
  wordsFreq : ∀ word, value processor.wordsFreq word =
    documents.countP fun document => word ∈ document.kept jieba stopWords
  fresh : ∀ id ∉ documents.map Document.id, processor.Fresh id
  recorded : ∀ document ∈ documents, processor.Recorded jieba stopWords document

variable {jieba stopWords} {processor : PagePreProcessor Weight} {documents : List Document}
  {docCnt : Nat}

theorem corpus_create : Corpus jieba stopWords [] (create : PagePreProcessor Weight) 0 where
  invertIndexTable := rfl
  docCnt := rfl
  wordsFreq := fun _ => rfl
  fresh := fun _ _ => ⟨rfl, fun _ => rfl⟩
  recorded := fun _ member => absurd member List.not_mem_nil

/-- One more document is recorded, and the others stay as they are. -/
theorem Corpus.counted (corpus : Corpus jieba stopWords documents processor docCnt)
    {document : Document} (absent : document.id ∉ documents.map Document.id)
    {next : PagePreProcessor Weight}
    (counted : Counted stopWords processor document.id (document.tokens jieba) next) :
    Corpus jieba stopWords (documents ++ [document]) next
      (docCnt + if document.description.isSome then 1 else 0) := by
  have other {id : Int} (different : id ≠ document.id) :
      value next.docWords id = value processor.docWords id ∧
        ∀ word, value (value next.docFreq word) id = value (value processor.docFreq word) id := by
    refine ⟨?_, fun word => counted.others word id different⟩
    rw [counted.docWords, if_neg different]
  refine ⟨counted.invertIndexTable.trans corpus.invertIndexTable, ?_, fun word => ?_,
    fun id fresh => ?_, fun recorded member => ?_⟩
  · rw [List.countP_append, ← corpus.docCnt, List.countP_singleton]
  · rw [counted.wordsFreq, corpus.wordsFreq, List.countP_append, List.countP_singleton]
    simp only [decide_eq_true_eq]
    rfl
  · rw [List.map_append, List.mem_append, not_or, List.map_singleton, List.mem_singleton] at fresh
    obtain ⟨docWords, docFreq⟩ := other fresh.2
    have before := corpus.fresh id fresh.1
    exact ⟨docWords.trans before.docWords, fun word => (docFreq word).trans (before.docFreq word)⟩
  · rcases List.mem_append.mp member with earlier | last
    · have different : recorded.id ≠ document.id :=
        fun same => absent (same ▸ List.mem_map_of_mem earlier)
      obtain ⟨docWords, docFreq⟩ := other different
      have before := corpus.recorded recorded earlier
      refine ⟨docWords.trans before.docWords, fun word => ?_, fun word indexed => ?_⟩
      · rw [docFreq]
        exact before.count word
      · rw [docFreq]
        exact before.position word indexed
    · obtain rfl := List.mem_singleton.mp last
      exact ⟨by rw [counted.docWords, if_pos rfl]; rfl, counted.count, counted.position⟩

variable (jieba stopWords) in
/-- The pass over one document. -/
theorem countDocument_counted {doc : DocElement} {document : Document}
    (reads : doc.Reads document) (fresh : processor.Fresh document.id) (docCnt : Nat) :
    ∃ next, countDocument jieba stopWords processor docCnt doc =
        .ok (next, docCnt + if document.description.isSome then 1 else 0) ∧
      Counted stopWords processor document.id (document.tokens jieba) next := by
  obtain ⟨docid, hasId, id, hasDescription⟩ := reads
  have start : Counted stopWords processor document.id [] processor := fresh.counted
  rw [countDocument, hasId]
  dsimp only
  rw [orFault_some, ok_bind, id, ok_bind, hasDescription, orFault_some, ok_bind, Document.tokens]
  cases document.description with
  | none => exact ⟨processor, rfl, start⟩
  | some content =>
    dsimp only
    by_cases nonempty : content.length ≠ 0
    · rw [if_pos nonempty, if_pos nonempty]
      exact ⟨countWords stopWords document.id 0 (jieba content) processor, rfl,
        start.countWords (jieba content)⟩
    · rw [if_neg nonempty, if_neg nonempty]
      exact ⟨processor, rfl, start⟩

/-- The counting pass over documents with different ids. -/
theorem countDocuments_corpus {docs : List DocElement} {further : List Document}
    (reads : List.Forall₂ DocElement.Reads docs further)
    (distinct : ((documents ++ further).map Document.id).Nodup)
    (corpus : Corpus jieba stopWords documents processor docCnt) :
    ∃ next total, countDocuments jieba stopWords docs processor docCnt = .ok (next, total) ∧
      Corpus jieba stopWords (documents ++ further) next total := by
  induction reads generalizing documents processor docCnt with
  | nil => exact ⟨processor, docCnt, rfl, by rwa [List.append_nil]⟩
  | @cons doc document docs further first rest inductionHypothesis =>
    have absent : document.id ∉ documents.map Document.id := key_notMem_front distinct
    rw [← List.singleton_append, ← List.append_assoc] at distinct
    obtain ⟨counted, ended, maps⟩ :=
      countDocument_counted jieba stopWords first (corpus.fresh _ absent) docCnt
    obtain ⟨next, total, completes, all⟩ := inductionHypothesis distinct (corpus.counted absent maps)
    refine ⟨next, total, ?_, by rwa [List.append_assoc, List.singleton_append] at all⟩
    rw [countDocuments, ended, ok_bind]
    exact completes

end Corpus

end PagePreProcessor

end SearchEngine
