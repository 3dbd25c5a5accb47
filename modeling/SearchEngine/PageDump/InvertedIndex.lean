/-
This file proves that `PagePreProcessor::invertProcess` builds the inverted index
of its documents.

A document has one posting under each of its kept words, with the position of
the last occurrence of the word and with its TF-IDF weight, scaled by the root of
the sum of the squares over the kept words of the document. The weights are
expressions over the operations of the floating-point type, evaluated in the
order of the source, so nothing is assumed about rounding.
-/

import SearchEngine.PageDump.Counting

namespace SearchEngine

open Containers Arithmetic

/-! ### Weights -/

section Weights

variable {Weight : Type} [Arithmetic Weight] (jieba : Bytes → List Bytes)
  (stopWords : List Bytes) (documents : List Document)

/-- The number of occurrences of a word in a document. -/
def termFrequency (document : Document) (word : Bytes) : Nat :=
  (document.tokens jieba).count word

/-- The number of documents that contain a word. -/
def documentFrequency (word : Bytes) : Nat :=
  documents.countP fun document => word ∈ document.tokens jieba

/-- The number of documents with a description. -/
def describedDocuments : Nat := documents.countP fun document => document.description.isSome

/-- `TF * log2(N / (DF + 1))` -/
def tfIdf (document : Document) (word : Bytes) : Weight :=
  ofInt (termFrequency jieba document word) *
    log2 (ofInt (describedDocuments documents) / ofInt (documentFrequency jieba documents word + 1))

/-- The sum of the squares of the products of words. -/
def sumOfSquares (product : Bytes → Weight) (words : List Bytes) : Weight :=
  words.foldl (fun sumW word => sumW + product word * product word) (ofInt 0)

/-- The weight of a word in a document: its product over the root of the sum of the squares of the
products of all kept words of the document, summed in their order. -/
def tfIdfWeight (document : Document) (word : Bytes) : Weight :=
  tfIdf jieba documents document word /
    sqrt (sumOfSquares (tfIdf jieba documents document) (document.keptWords jieba stopWords))

end Weights

namespace PagePreProcessor

variable {Weight : Type} [Arithmetic Weight]

/-! ### The weighting pass over one document -/

/-- The posting of a word of a document, from the maps. -/
def postingOf (processor : PagePreProcessor Weight) (N : Nat) (curId : Int) (words : List Bytes)
    (word : Bytes) : Posting Weight where
  id := curId
  weight := processor.weigh N curId word / sqrt (sumOfSquares (processor.weigh N curId) words)
  position := (value (value processor.docFreq word) curId).2

/-- The loop over the words computes the sum and collects the products and the positions. -/
theorem weighWords_spec (processor : PagePreProcessor Weight) (N : Nat) (curId : Int)
    (words : List Bytes) (curW : AList fun _ : Bytes => Weight × Int) (sumW : Weight) :
    let ended := processor.weighWords N curId words curW sumW
    ended.2 = words.foldl (fun sumW word =>
        sumW + processor.weigh N curId word * processor.weigh N curId word) sumW ∧
      ∀ word, ended.1.lookup word =
        if word ∈ words then
          some (processor.weigh N curId word, (value (value processor.docFreq word) curId).2)
        else curW.lookup word := by
  induction words generalizing curW sumW with
  | nil => exact ⟨rfl, fun _ => rfl⟩
  | cons first words inductionHypothesis =>
    obtain ⟨sum, found⟩ := inductionHypothesis
      (curW.insert first
        (processor.weigh N curId first, (value (value processor.docFreq first) curId).2))
      (sumW + processor.weigh N curId first * processor.weigh N curId first)
    refine ⟨sum, fun word => ?_⟩
    rw [weighWords, found]
    by_cases later : word ∈ words
    · rw [if_pos later, if_pos (List.mem_cons_of_mem _ later)]
    · rw [if_neg later]
      by_cases same : word = first
      · rw [if_pos (by rw [same]; exact List.mem_cons_self), same, AList.lookup_insert]
      · rw [if_neg (by simp [same, later]), AList.lookup_insert_ne same]

/-- The loop over `curW` inserts a posting under each of its words. -/
theorem value_addPostings (curId : Int) (sumW : Weight)
    {curW : List (Sigma fun _ : Bytes => Weight × Int)} (distinct : curW.NodupKeys)
    (table : InvertIndexTable Weight) (word : Bytes) :
    value (addPostings curId sumW curW table) word =
      match curW.dlookup word with
      | some (weight, position) =>
        place postingLess ⟨curId, weight / sqrt sumW, position⟩ (value table word)
      | none => value table word := by
  induction curW generalizing table with
  | nil => rfl
  | cons entry curW inductionHypothesis =>
    obtain ⟨first, weight, position⟩ := entry
    obtain ⟨absent, rest⟩ := List.nodupKeys_cons.mp distinct
    rw [addPostings]
    dsimp only
    rw [inductionHypothesis rest, value_insert, value_subscript, subscript_snd]
    by_cases same : word = first
    · subst same
      rw [List.dlookup_cons_eq, List.dlookup_eq_none.mpr absent, if_pos rfl]
    · rw [List.dlookup_cons_ne _ _ same, if_neg same]

/-- A document adds its posting under each of its words. -/
theorem weighDocument_spec (N : Nat) (processor : PagePreProcessor Weight)
    (document : Sigma fun _ : Int => List Bytes) (word : Bytes) :
    value (weighDocument N processor document).invertIndexTable word =
      if word ∈ document.2 then
        place postingLess (processor.postingOf N document.1 document.2 word)
          (value processor.invertIndexTable word)
      else value processor.invertIndexTable word := by
  obtain ⟨sum, found⟩ := processor.weighWords_spec N document.1 document.2 ∅ (ofInt 0)
  have looked := found word
  rw [AList.lookup] at looked
  rw [weighDocument]
  dsimp only
  rw [value_addPostings _ _ (AList.nodupKeys _), looked, sum]
  split_ifs with member
  · rfl
  · rfl

/-! ### The weighting pass over all documents -/

/-- Under every word the table has the postings of the documents that have been weighed. -/
structure Weighed (base : PagePreProcessor Weight) (N : Nat)
    (done : List (Sigma fun _ : Int => List Bytes)) (processor : PagePreProcessor Weight) : Prop where
  wordsFreq : processor.wordsFreq = base.wordsFreq
  docFreq : processor.docFreq = base.docFreq
  nodup : ∀ word, ((value processor.invertIndexTable word).map Posting.id).Nodup
  mem_iff : ∀ word posting, posting ∈ value processor.invertIndexTable word ↔
    ∃ document ∈ done, word ∈ document.2 ∧
      posting = base.postingOf N document.1 document.2 word

variable {base processor : PagePreProcessor Weight} {N : Nat}
  {done : List (Sigma fun _ : Int => List Bytes)}

/-- Postings of different documents compare. -/
theorem comparable_of_id_ne {first second : Posting Weight} (different : first.id ≠ second.id) :
    Comparable postingLess first second := by
  rcases lt_or_gt_of_ne different with before | behind
  · exact Or.inl (by simp [postingLess, before])
  · exact Or.inr (by simp [postingLess, behind])

/-- The postings depend on the counts only. -/
theorem postingOf_congr (N : Nat) (wordsFreq : processor.wordsFreq = base.wordsFreq)
    (docFreq : processor.docFreq = base.docFreq) (curId : Int) (words : List Bytes) :
    processor.postingOf N curId words = base.postingOf N curId words := by
  have products : processor.weigh N curId = base.weigh N curId := by
    funext word
    rw [weigh, weigh, wordsFreq, docFreq]
  funext word
  rw [postingOf, postingOf, products, docFreq]

theorem Weighed.weighDocument (weighed : Weighed base N done processor)
    {document : Sigma fun _ : Int => List Bytes} (fresh : document.1 ∉ done.map Sigma.fst) :
    Weighed base N (done ++ [document]) (weighDocument N processor document) := by
  have added := postingOf_congr N weighed.wordsFreq weighed.docFreq document.1 document.2
  have newId (word : Bytes) : ∀ other ∈ value processor.invertIndexTable word,
      document.1 ≠ other.id := by
    rintro other member same
    obtain ⟨earlier, isDone, -, rfl⟩ := (weighed.mem_iff word other).mp member
    exact fresh (List.mem_map.mpr ⟨earlier, isDone, same.symm⟩)
  have placed (word : Bytes) :
      (place postingLess (base.postingOf N document.1 document.2 word)
        (value processor.invertIndexTable word)).Perm
      (base.postingOf N document.1 document.2 word :: value processor.invertIndexTable word) :=
    place_perm_of_comparable fun other member => comparable_of_id_ne (newId word other member)
  refine ⟨weighed.wordsFreq, weighed.docFreq, fun word => ?_, fun word posting => ?_⟩
  · rw [weighDocument_spec, added]
    split_ifs with member
    · rw [((placed word).map Posting.id).nodup_iff, List.map_cons, List.nodup_cons, List.mem_map]
      refine ⟨?_, weighed.nodup word⟩
      rintro ⟨other, listed, same⟩
      exact newId word other listed same.symm
    · exact weighed.nodup word
  · rw [weighDocument_spec, added]
    simp only [List.mem_append, List.mem_singleton, or_and_right, exists_or, exists_eq_left,
      ← weighed.mem_iff]
    split_ifs with member
    · rw [(placed word).mem_iff, List.mem_cons, or_comm, and_iff_right member]
    · rw [or_iff_left fun both => member both.1]

/-- The weighting pass over documents with different ids. -/
theorem Weighed.foldl (weighed : Weighed base N done processor)
    {documents : List (Sigma fun _ : Int => List Bytes)}
    (distinct : ((done ++ documents).map Sigma.fst).Nodup) :
    Weighed base N (done ++ documents) (documents.foldl (PagePreProcessor.weighDocument N)
      processor) := by
  induction documents generalizing done processor with
  | nil =>
    rw [List.append_nil]
    exact weighed
  | cons document documents inductionHypothesis =>
    have fresh : document.1 ∉ done.map Sigma.fst := key_notMem_front distinct
    rw [← List.singleton_append, ← List.append_assoc] at distinct ⊢
    exact inductionHypothesis (weighed.weighDocument fresh) distinct

/-- The weighting pass, from an empty table. -/
theorem weighDocuments_weighed (N : Nat) (empty : base.invertIndexTable = ∅) :
    Weighed base N base.docWords.entries (base.weighDocuments N) := by
  have order : (base.docWords.entries.insertionSort fun first second => first.1 ≤ second.1).Perm
      base.docWords.entries := List.perm_insertionSort _ _
  have begun : Weighed base N [] base := by
    refine ⟨rfl, rfl, fun word => ?_, fun word posting => ?_⟩
    · rw [empty]
      exact List.nodup_nil
    · rw [empty]
      exact iff_of_false List.not_mem_nil fun ⟨_, member, _⟩ => absurd member List.not_mem_nil
  have ended : Weighed base N
      (base.docWords.entries.insertionSort fun first second => first.1 ≤ second.1)
      (base.weighDocuments N) :=
    begun.foldl ((order.map Sigma.fst).nodup_iff.mpr base.docWords.keys_nodup)
  refine ⟨ended.wordsFreq, ended.docFreq, ended.nodup, fun word posting => ?_⟩
  rw [ended.mem_iff]
  simp only [order.mem_iff]

/-! ### The index -/

section Index

variable {jieba : Bytes → List Bytes} {stopWords : List Bytes} {documents : List Document}
  {docCnt : Nat}

/-- The products of the weighting pass are the TF-IDF products. -/
theorem Corpus.weigh_eq (corpus : Corpus jieba stopWords documents processor docCnt)
    {document : Document} (member : document ∈ documents) {word : Bytes}
    (kept : word ∈ document.kept jieba stopWords) :
    processor.weigh docCnt document.id word = tfIdf jieba documents document word := by
  obtain ⟨-, indexed⟩ := List.mem_filter.mp kept
  have occurrences : (document.kept jieba stopWords).count word =
      termFrequency jieba document word := List.count_filter indexed
  have containing : documents.countP (fun document => word ∈ document.kept jieba stopWords) =
      documentFrequency jieba documents word := by
    refine List.countP_congr fun other _ => ?_
    simp [Document.kept, keep, indexed]
  rw [weigh, (corpus.recorded document member).count, corpus.wordsFreq, occurrences, containing,
    corpus.docCnt]
  rfl

omit [Arithmetic Weight] in
/-- The documents that are weighed are those with kept words. -/
theorem Corpus.mem_entries_iff (corpus : Corpus jieba stopWords documents processor docCnt)
    (entry : Sigma fun _ : Int => List Bytes) {word : Bytes} (listed : word ∈ entry.2) :
    entry ∈ processor.docWords.entries ↔
      ∃ document ∈ documents, entry = ⟨document.id, document.keptWords jieba stopWords⟩ := by
  constructor
  · intro member
    have read := value_of_mem_entries member
    by_cases known : entry.1 ∈ documents.map Document.id
    · obtain ⟨document, among, same⟩ := List.mem_map.mp known
      rw [← same, (corpus.recorded document among).docWords] at read
      exact ⟨document, among, Sigma.ext same.symm (heq_of_eq read.symm)⟩
    · rw [(corpus.fresh _ known).docWords] at read
      rw [← read] at listed
      exact absurd listed List.not_mem_nil
  · rintro ⟨document, among, rfl⟩
    have read := (corpus.recorded document among).docWords
    rw [← read]
    refine mem_entries_of_value_ne ?_
    rw [read]
    exact List.ne_nil_of_mem listed

/-- The posting of a kept word of a document. -/
theorem Corpus.postingOf_eq (corpus : Corpus jieba stopWords documents processor docCnt)
    {document : Document} (member : document ∈ documents) {word : Bytes}
    (kept : word ∈ document.kept jieba stopWords) :
    let posting := processor.postingOf docCnt document.id (document.keptWords jieba stopWords) word
    posting.weight = tfIdfWeight jieba stopWords documents document word ∧
      ∃ offset, LastOccurrence (document.tokens jieba) word offset ∧
        posting.position = toInt offset := by
  obtain ⟨offset, last, position⟩ := (corpus.recorded document member).position word kept
  have sums : sumOfSquares (processor.weigh docCnt document.id)
      (document.keptWords jieba stopWords) =
      sumOfSquares (tfIdf jieba documents document : Bytes → Weight)
        (document.keptWords jieba stopWords) := by
    refine List.foldl_ext _ _ _ fun sumW other listed => ?_
    rw [corpus.weigh_eq member ((mem_placeAll_bytesLess _ _).mp listed)]
  refine ⟨?_, offset, last, position⟩
  show processor.weigh docCnt document.id word / sqrt (sumOfSquares _ _) = _
  rw [sums, corpus.weigh_eq member kept]
  rfl

end Index

variable (Weight) in
/-- The postings of all documents with different ids. The position is the offset of the last
occurrence as an `int`. -/
theorem invertProcess_spec (jieba : Bytes → List Bytes) {stopFile : Bytes} {stopWords : List Bytes}
    (stops : readStopWords stopFile = .ok stopWords)
    {docs : List DocElement} {documents : List Document}
    (reads : List.Forall₂ DocElement.Reads docs documents)
    (distinct : (documents.map Document.id).Nodup) :
    ∃ next, (create : PagePreProcessor Weight).invertProcess jieba stopFile (some docs) = .ok next ∧
      ∀ word, ((value next.invertIndexTable word).map Posting.id).Nodup ∧
        ∀ posting, posting ∈ value next.invertIndexTable word ↔
          ∃ document ∈ documents,
            (word ∈ document.tokens jieba ∧ skipped stopWords word = false) ∧
            posting.id = document.id ∧
            posting.weight = tfIdfWeight jieba stopWords documents document word ∧
            ∃ offset, LastOccurrence (document.tokens jieba) word offset ∧
              posting.position = toInt offset := by
  obtain ⟨counted, docCnt, ended, corpus⟩ :=
    countDocuments_corpus reads (by rwa [List.nil_append])
      (corpus_create : Corpus jieba stopWords [] (create : PagePreProcessor Weight) 0)
  rw [List.nil_append] at corpus
  have weighed := weighDocuments_weighed docCnt corpus.invertIndexTable
  refine ⟨counted.weighDocuments docCnt, ?_, fun word => ⟨weighed.nodup word, fun posting => ?_⟩⟩
  · rw [invertProcess, stops, ok_bind]
    dsimp only
    rw [ended, ok_bind]
    rfl
  · have keptWords (document : Document) : word ∈ document.keptWords jieba stopWords ↔
        word ∈ document.tokens jieba ∧ skipped stopWords word = false := by
      rw [Document.keptWords, mem_placeAll_bytesLess, Document.kept, keep, List.mem_filter]
      simp
    rw [weighed.mem_iff]
    constructor
    · rintro ⟨entry, isEntry, listed, rfl⟩
      obtain ⟨document, member, rfl⟩ := (corpus.mem_entries_iff entry listed).mp isEntry
      obtain ⟨sameWeight, position⟩ :=
        corpus.postingOf_eq member ((mem_placeAll_bytesLess _ _).mp listed)
      exact ⟨document, member, (keptWords document).mp listed, rfl, sameWeight, position⟩
    · rintro ⟨document, member, kept, sameId, sameWeight, offset, last, position⟩
      have listed := (keptWords document).mpr kept
      obtain ⟨otherWeight, other, otherLast, otherPosition⟩ :=
        corpus.postingOf_eq member ((mem_placeAll_bytesLess _ _).mp listed)
      rw [last.unique otherLast] at position
      exact ⟨_, (corpus.mem_entries_iff _ listed).mpr ⟨document, member, rfl⟩, listed,
        Posting.ext sameId (sameWeight.trans otherWeight.symm)
          (position.trans otherPosition.symm)⟩

/-! ### Positions -/

/-- The last occurrence of a word among the words of a text starts at this byte. -/
def StartsLast (text : Bytes) (tokens : List Bytes) (word : Bytes) (position : Int) : Prop :=
  ∃ before after, tokens = before ++ word :: after ∧ word ∉ after ∧
    text = before.flatten ++ word ++ after.flatten ∧ position = before.flatten.length

/-- In a text shorter than 2^31 bytes the offset of an occurrence is an `int`. -/
theorem startsLast_iff {text : Bytes} {tokens : List Bytes} (segmented : tokens.flatten = text)
    (short : text.length < 2 ^ 31) (word : Bytes) (position : Int) :
    StartsLast text tokens word position ↔
      ∃ offset, LastOccurrence tokens word offset ∧ position = toInt offset := by
  have small {before after : List Bytes} (split : tokens = before ++ word :: after) :
      toInt before.flatten.length = before.flatten.length := by
    rw [← segmented, split, List.flatten_append, List.length_append] at short
    exact toInt_of_lt (by omega)
  constructor
  · rintro ⟨before, after, split, absent, -, same⟩
    exact ⟨_, ⟨before, after, split, absent, rfl⟩, same.trans (small split).symm⟩
  · rintro ⟨offset, ⟨before, after, split, absent, behind⟩, same⟩
    refine ⟨before, after, split, absent, ?_, ?_⟩
    · rw [← segmented, split]
      simp
    · rw [same, behind, small split]

/-- A document that has words has them from its description. -/
theorem flatten_tokens {jieba : Bytes → List Bytes} {document : Document}
    (segments : ∀ content, document.description = some content → (jieba content).flatten = content)
    {word : Bytes} (member : word ∈ document.tokens jieba) :
    (document.tokens jieba).flatten = document.description.getD [] := by
  rw [Document.tokens] at member ⊢
  cases described : document.description with
  | none =>
    rw [described] at member
    exact absurd member List.not_mem_nil
  | some content =>
    rw [described] at member
    dsimp only at member ⊢
    split_ifs at member ⊢ with nonempty
    · exact segments content described
    · exact absurd member List.not_mem_nil

/-! ### The index -/

/-- The inverted index of documents with different ids and descriptions shorter than 2^31 bytes:
under a word, every document that has it as a kept word has exactly one posting, with the position
of its last occurrence and with its weight. -/
theorem invertProcess_index (jieba : Bytes → List Bytes) {stopFile : Bytes}
    {stopWords : List Bytes} (stops : readStopWords stopFile = .ok stopWords)
    {docs : List DocElement} {documents : List Document}
    (reads : List.Forall₂ DocElement.Reads docs documents)
    (distinct : (documents.map Document.id).Nodup)
    (segments : ∀ document ∈ documents, ∀ content, document.description = some content →
      (jieba content).flatten = content)
    (short : ∀ document ∈ documents, ∀ content, document.description = some content →
      content.length < 2 ^ 31) :
    ∃ next, (create : PagePreProcessor Weight).invertProcess jieba stopFile (some docs) = .ok next ∧
      ∀ word, ((value next.invertIndexTable word).map Posting.id).Nodup ∧
        ∀ posting, posting ∈ value next.invertIndexTable word ↔
          ∃ document ∈ documents,
            (word ∈ document.tokens jieba ∧ skipped stopWords word = false) ∧
            posting.id = document.id ∧
            posting.weight = tfIdfWeight jieba stopWords documents document word ∧
            StartsLast (document.description.getD []) (document.tokens jieba) word
              posting.position := by
  obtain ⟨next, ended, index⟩ := invertProcess_spec Weight jieba stops reads distinct
  refine ⟨next, ended, fun word => ⟨(index word).1, fun posting => ?_⟩⟩
  rw [(index word).2]
  refine exists_congr fun document => and_congr_right fun member => and_congr_right fun kept =>
    and_congr_right fun _ => and_congr_right fun _ => (startsLast_iff ?_ ?_ word _).symm
  · exact flatten_tokens (segments document member) kept.1
  · cases described : document.description with
    | none => norm_num
    | some content => exact short document member content described

/-- Three documents, one without a description, and the stop word `!`. -/
theorem invertProcess_index_sample :
    letI := wholeNumbers
    let jieba : Bytes → List Bytes := fun text => text.map fun byte => [byte]
    let documents : List Document := [⟨1, some [44, 33, 44]⟩, ⟨3, none⟩, ⟨2, some [44, 63]⟩]
    ∃ next, (create : PagePreProcessor Nat).invertProcess jieba [33, 13, 10]
        (some [⟨some (some [49]), some (some [44, 33, 44])⟩, ⟨some (some [51]), some none⟩,
          ⟨some (some [50]), some (some [44, 63])⟩]) = .ok next ∧
      ∀ word, ((value next.invertIndexTable word).map Posting.id).Nodup ∧
        ∀ posting, posting ∈ value next.invertIndexTable word ↔
          ∃ document ∈ documents,
            (word ∈ document.tokens jieba ∧ skipped [[33]] word = false) ∧
            posting.id = document.id ∧
            posting.weight = tfIdfWeight jieba [[33]] documents document word ∧
            StartsLast (document.description.getD []) (document.tokens jieba) word
              posting.position := by
  let := wholeNumbers
  refine invertProcess_index _ (by decide) ?_ (by decide) ?_ ?_
  · refine .cons ⟨[49], rfl, by decide, rfl⟩ (.cons ⟨[51], rfl, by decide, rfl⟩
      (.cons ⟨[50], rfl, by decide, rfl⟩ .nil))
  · intro document member content described
    exact List.flatMap_singleton' content
  · intro document member content described
    simp only [List.mem_cons, List.not_mem_nil, or_false] at member
    rcases member with rfl | rfl | rfl
    · rw [← Option.some.inj described]
      norm_num
    · cases described
    · rw [← Option.some.inj described]
      norm_num

/-- A segmenter that cuts a text behind its leading spaces. -/
def cutBlanks (text : Bytes) : List Bytes := [text.takeWhile (· = space), text.dropWhile (· = space)]

theorem cutBlanks_replicate (count : Nat) :
    cutBlanks (List.replicate count space ++ [comma]) = [List.replicate count space, [comma]] := by
  have blank : ∀ byte ∈ List.replicate count space, decide (byte = space) = true :=
    fun byte member => decide_eq_true (List.eq_of_mem_replicate member)
  rw [cutBlanks, List.takeWhile_append_of_pos blank, List.dropWhile_append_of_pos blank]
  simp [space, comma]

theorem tokens_replicate (id : Int) (count : Nat) :
    Document.tokens cutBlanks ⟨id, some (List.replicate count space ++ [comma])⟩ =
      [List.replicate count space, [comma]] := by
  rw [← cutBlanks_replicate, Document.tokens]
  exact if_pos (by simp)

/-- A comma behind 2^31 spaces: its posting has a negative position. -/
theorem invertProcess_narrows :
    letI := wholeNumbers
    ∃ (jieba : Bytes → List Bytes) (docs : List DocElement) (documents : List Document),
      List.Forall₂ DocElement.Reads docs documents ∧ (documents.map Document.id).Nodup ∧
      (∀ document ∈ documents, ∀ content, document.description = some content →
        (jieba content).flatten = content) ∧
      ∃ next, (create : PagePreProcessor Nat).invertProcess jieba [] (some docs) = .ok next ∧
        ∃ document ∈ documents, ∃ word ∈ document.tokens jieba, skipped [] word = false ∧
          ¬ ∃ posting ∈ value next.invertIndexTable word, posting.id = document.id ∧
            StartsLast (document.description.getD []) (document.tokens jieba) word
              posting.position := by
  let := wholeNumbers
  let document : Document := ⟨1, some (List.replicate (2 ^ 31) space ++ [comma])⟩
  have tokens : document.tokens cutBlanks = [List.replicate (2 ^ 31) space, [comma]] :=
    tokens_replicate 1 (2 ^ 31)
  have reads : List.Forall₂ DocElement.Reads
      [⟨some (some [49]), some document.description⟩] [document] :=
    .cons ⟨[49], rfl, by decide, rfl⟩ .nil
  have distinct : ([document].map Document.id).Nodup := List.nodup_singleton _
  obtain ⟨next, ended, index⟩ := invertProcess_spec Nat cutBlanks
    (show readStopWords [] = .ok [] from rfl) reads distinct
  refine ⟨cutBlanks, _, _, reads, distinct, fun _ _ content _ => ?_, next, ended, document,
    List.mem_singleton_self _, [comma], ?_, by decide, ?_⟩
  · rw [cutBlanks, List.flatten_cons, List.flatten_singleton, List.takeWhile_append_dropWhile]
  · rw [tokens]
    exact List.mem_cons_of_mem _ (List.mem_singleton_self _)
  · rintro ⟨posting, listed, -, before, after, -, -, -, position⟩
    obtain ⟨other, member, -, -, -, offset, last, narrowed⟩ := ((index [comma]).2 posting).mp listed
    rw [List.mem_singleton.mp member, tokens] at last
    have behind : offset = 2 ^ 31 := by
      refine last.unique ⟨[List.replicate (2 ^ 31) space], [], rfl, List.not_mem_nil, ?_⟩
      rw [List.flatten_singleton, List.length_replicate]
    rw [behind, toInt_two_pow] at narrowed
    omega

end PagePreProcessor

end SearchEngine
