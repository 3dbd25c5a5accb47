/-
This file determines for which documents the TF-IDF weights are defined and lie
between zero and one.

The inverse document frequency is the logarithm of `N / (DF + 1)`: it vanishes for
a word that all documents but one contain, and is negative for a word that all
contain. The sum a document is scaled by vanishes with the products of all its
words, and its weights are then a zero over a zero. The arithmetic is exact. The
main theorem states both conditions on the documents.
-/

import SearchEngine.PageDump.InvertedIndex

namespace SearchEngine

open Containers Arithmetic

/-! ### Products and their squares -/

theorem sumOfSquares_real (product : Bytes → ℝ) (words : List Bytes) :
    letI := realNumbers
    sumOfSquares product words = squares (words.map product) := by
  let := realNumbers
  have added (sum : ℝ) : words.foldl (fun sumW word => sumW + product word * product word) sum =
      sum + squares (words.map product) := by
    induction words generalizing sum with
    | nil => exact (add_zero sum).symm
    | cons word words inductionHypothesis =>
      rw [List.foldl_cons, inductionHypothesis, squares, squares, List.map_cons, List.map_cons,
        List.sum_cons, ← add_assoc, sq]
  have started := added 0
  rw [zero_add] at started
  rw [sumOfSquares, ← started]
  simp only [ofInt, Int.cast_zero]

section Products

variable (jieba : Bytes → List Bytes) (stopWords : List Bytes) (documents : List Document)

theorem tfIdf_real (document : Document) (word : Bytes) :
    letI := realNumbers
    tfIdf jieba documents document word =
      (termFrequency jieba document word : ℝ) * Real.logb 2
        (describedDocuments documents / (documentFrequency jieba documents word + 1)) := by
  simp only [tfIdf, ofInt, log2]
  push_cast
  rfl

variable {jieba stopWords documents} {document : Document} {word : Bytes}

theorem termFrequency_pos (kept : word ∈ document.kept jieba stopWords) :
    0 < termFrequency jieba document word :=
  List.count_pos_iff.mpr (List.mem_filter.mp kept).1

theorem ratio_pos (described : 0 < describedDocuments documents) (word : Bytes) :
    (0 : ℝ) < describedDocuments documents / (documentFrequency jieba documents word + 1) :=
  div_pos (by exact_mod_cast described) (by positivity)

/-- The inverse document frequency is negative for a word that all documents contain. -/
theorem tfIdf_nonneg_iff (kept : word ∈ document.kept jieba stopWords)
    (described : 0 < describedDocuments documents) :
    letI := realNumbers
    0 ≤ (tfIdf jieba documents document word : ℝ) ↔
      documentFrequency jieba documents word + 1 ≤ describedDocuments documents := by
  have positive : (0 : ℝ) < documentFrequency jieba documents word + 1 := by positivity
  have frequency : (0 : ℝ) < termFrequency jieba document word := by
    exact_mod_cast termFrequency_pos kept
  rw [tfIdf_real, mul_nonneg_iff_of_pos_left frequency,
    Real.logb_nonneg_iff one_lt_two (ratio_pos described word), one_le_div positive]
  exact_mod_cast Iff.rfl

/-- It vanishes for a word that all documents but one contain. -/
theorem tfIdf_ne_zero_iff (kept : word ∈ document.kept jieba stopWords)
    (described : 0 < describedDocuments documents) :
    letI := realNumbers
    (tfIdf jieba documents document word : ℝ) ≠ 0 ↔
      documentFrequency jieba documents word + 1 ≠ describedDocuments documents := by
  have positive : (0 : ℝ) < documentFrequency jieba documents word + 1 := by positivity
  have frequency : (termFrequency jieba document word : ℝ) ≠ 0 := by
    exact_mod_cast (termFrequency_pos kept).ne'
  have vanishes : Real.logb 2 (describedDocuments documents /
      (documentFrequency jieba documents word + 1)) = 0 ↔
      (describedDocuments documents : ℝ) / (documentFrequency jieba documents word + 1) = 1 :=
    ⟨Real.eq_one_of_pos_of_logb_eq_zero one_lt_two (ratio_pos described word),
      fun one => by rw [one, Real.logb_one]⟩
  rw [tfIdf_real, mul_ne_zero_iff, and_iff_right frequency, Ne, vanishes,
    div_eq_one_iff_eq positive.ne', eq_comm]
  exact_mod_cast Iff.rfl

end Products

namespace PagePreProcessor

/-! ### The weights of an index -/

/-- `sumW` behind the loop over the words of a document. -/
def normaliser {Weight : Type} [Arithmetic Weight] (processor : PagePreProcessor Weight) (N : Nat)
    (document : Document) : Weight :=
  (processor.weighWords N document.id (value processor.docWords document.id) ∅ (ofInt 0)).2

/-- The weights that are computed from the counts are defined: the normaliser of every document is
positive, and every weight that is stored lies between zero and one. -/
structure WellWeighted (counted : PagePreProcessor ℝ) (N : Nat) (documents : List Document) :
    Prop where
  positive : letI := realNumbers
    ∀ document ∈ documents, 0 < counted.normaliser N document
  bounded : letI := realNumbers
    ∀ word, ∀ posting ∈ value (counted.weighDocuments N).invertIndexTable word,
      0 ≤ posting.weight ∧ posting.weight ≤ 1

/-- Every kept word is missing from a document, and every document has a kept word that is missing
from two. -/
structure Spread (jieba : Bytes → List Bytes) (stopWords : List Bytes) (documents : List Document) :
    Prop where
  missing : ∀ document ∈ documents, ∀ word ∈ document.kept jieba stopWords,
    documentFrequency jieba documents word + 1 ≤ documents.length
  rare : ∀ document ∈ documents, ∃ word ∈ document.kept jieba stopWords,
    documentFrequency jieba documents word + 2 ≤ documents.length

section Index

variable {jieba : Bytes → List Bytes} {stopWords : List Bytes} {documents : List Document}

theorem Corpus.normaliser_eq {Weight : Type} [Arithmetic Weight]
    {counted : PagePreProcessor Weight} {N : Nat}
    (corpus : Corpus jieba stopWords documents counted N) {document : Document}
    (member : document ∈ documents) :
    counted.normaliser N document =
      sumOfSquares (tfIdf jieba documents document : Bytes → Weight)
        (document.keptWords jieba stopWords) := by
  rw [normaliser, (corpus.recorded document member).docWords]
  refine (counted.weighWords_spec N document.id _ ∅ (ofInt 0)).1.trans ?_
  refine List.foldl_ext _ _ _ fun sumW word listed => ?_
  rw [corpus.weigh_eq member ((mem_placeAll_bytesLess _ _).mp listed)]

/-- The product of a kept word is one of those a document is scaled by. -/
theorem tfIdf_mem_products {Weight : Type} [Arithmetic Weight] {document : Document} {word : Bytes}
    (kept : word ∈ document.kept jieba stopWords) :
    (tfIdf jieba documents document word : Weight) ∈
      (document.keptWords jieba stopWords).map (tfIdf jieba documents document) :=
  List.mem_map_of_mem ((mem_placeAll_bytesLess _ _).mpr kept)

/-- All documents with kept words are counted. -/
theorem describedDocuments_eq
    (nonempty : ∀ document ∈ documents, document.kept jieba stopWords ≠ []) :
    describedDocuments documents = documents.length := by
  rw [describedDocuments, List.countP_eq_length]
  intro document member
  cases described : document.description with
  | none =>
    refine absurd ?_ (nonempty document member)
    rw [Document.kept, Document.tokens, described]
    rfl
  | some content => rfl

/-- The normaliser of a document is positive when one of its words is not in all documents but
one. -/
theorem squares_products_pos_iff {document : Document}
    (described : 0 < describedDocuments documents) :
    letI := realNumbers
    0 < squares ((document.keptWords jieba stopWords).map (tfIdf jieba documents document)) ↔
      ∃ word ∈ document.kept jieba stopWords,
        documentFrequency jieba documents word + 1 ≠ describedDocuments documents := by
  rw [squares_pos_iff]
  constructor
  · rintro ⟨product, listed, nonzero⟩
    obtain ⟨word, member, rfl⟩ := List.mem_map.mp listed
    have kept := (mem_placeAll_bytesLess _ _).mp member
    exact ⟨word, kept, (tfIdf_ne_zero_iff kept described).mp nonzero⟩
  · rintro ⟨word, kept, apart⟩
    let := realNumbers
    exact ⟨_, tfIdf_mem_products kept, (tfIdf_ne_zero_iff kept described).mpr apart⟩

/-- The weights that are stored under a word are those of the documents that keep it. -/
theorem Corpus.stored_iff {Weight : Type} [Arithmetic Weight] {counted : PagePreProcessor Weight}
    {N : Nat} (corpus : Corpus jieba stopWords documents counted N) (word : Bytes)
    (weight : Weight) :
    (∃ posting ∈ value (counted.weighDocuments N).invertIndexTable word, posting.weight = weight) ↔
      ∃ document ∈ documents, word ∈ document.kept jieba stopWords ∧
        tfIdfWeight jieba stopWords documents document word = weight := by
  have weighed := weighDocuments_weighed N corpus.invertIndexTable
  constructor
  · rintro ⟨posting, listed, rfl⟩
    obtain ⟨entry, isEntry, member, rfl⟩ := (weighed.mem_iff word posting).mp listed
    obtain ⟨document, among, rfl⟩ := (corpus.mem_entries_iff entry member).mp isEntry
    have kept := (mem_placeAll_bytesLess _ _).mp member
    exact ⟨document, among, kept, (corpus.postingOf_eq among kept).1.symm⟩
  · rintro ⟨document, among, kept, rfl⟩
    have member := (mem_placeAll_bytesLess _ _).mpr kept
    exact ⟨_, (weighed.mem_iff word _).mpr ⟨_, (corpus.mem_entries_iff _ member).mpr
      ⟨document, among, rfl⟩, member, rfl⟩, (corpus.postingOf_eq among kept).1⟩

/-- The weights of counted documents that have kept words are well defined exactly when the words
are spread. -/
theorem Corpus.wellWeighted_iff {counted : PagePreProcessor ℝ} {N : Nat}
    (corpus : Corpus jieba stopWords documents counted N)
    (nonempty : ∀ document ∈ documents, document.kept jieba stopWords ≠ []) :
    WellWeighted counted N documents ↔ Spread jieba stopWords documents := by
  let := realNumbers
  have all : describedDocuments documents = documents.length := describedDocuments_eq nonempty
  have described {document : Document} (member : document ∈ documents) :
      0 < describedDocuments documents := by
    rw [all]
    exact List.length_pos_of_mem member
  have positive {document : Document} (member : document ∈ documents) :
      0 < counted.normaliser N document ↔ ∃ word ∈ document.kept jieba stopWords,
        documentFrequency jieba documents word + 1 ≠ documents.length := by
    rw [corpus.normaliser_eq member, sumOfSquares_real, squares_products_pos_iff (described member),
      all]
  have weight (document : Document) (word : Bytes) :
      (tfIdfWeight jieba stopWords documents document word : ℝ) =
        tfIdf jieba documents document word / Real.sqrt (squares
          ((document.keptWords jieba stopWords).map (tfIdf jieba documents document))) := by
    rw [tfIdfWeight, sumOfSquares_real]
    rfl
  constructor
  · intro well
    have missing : ∀ document ∈ documents, ∀ word ∈ document.kept jieba stopWords,
        documentFrequency jieba documents word + 1 ≤ documents.length := by
      intro document member word kept
      obtain ⟨posting, listed, same⟩ :=
        (corpus.stored_iff word _).mpr ⟨document, member, kept, rfl⟩
      have nonneg := (well.bounded word posting listed).1
      have normaliser := well.positive document member
      rw [corpus.normaliser_eq member, sumOfSquares_real] at normaliser
      rw [same, weight, div_sqrt_squares_nonneg_iff normaliser,
        tfIdf_nonneg_iff kept (described member), all] at nonneg
      exact nonneg
    refine ⟨missing, fun document member => ?_⟩
    obtain ⟨word, kept, apart⟩ := (positive member).mp (well.positive document member)
    have most := missing document member word kept
    exact ⟨word, kept, by omega⟩
  · intro spread
    have normaliser : ∀ document ∈ documents, 0 < counted.normaliser N document := by
      intro document member
      obtain ⟨word, kept, rare⟩ := spread.rare document member
      exact (positive member).mpr ⟨word, kept, by omega⟩
    refine ⟨normaliser, fun word posting listed => ?_⟩
    obtain ⟨document, member, kept, same⟩ := (corpus.stored_iff word _).mp ⟨posting, listed, rfl⟩
    have scaled := normaliser document member
    rw [corpus.normaliser_eq member, sumOfSquares_real] at scaled
    rw [← same, weight, div_sqrt_squares_nonneg_iff scaled,
      tfIdf_nonneg_iff kept (described member), all]
    exact ⟨spread.missing document member word kept,
      div_sqrt_squares_le_one (tfIdf_mem_products kept)⟩

end Index

section Runs

variable (jieba : Bytes → List Bytes) {stopFile : Bytes} {stopWords : List Bytes}
  {docs : List DocElement} {documents : List Document}

/-- The counts and the table of documents with different ids. -/
theorem exists_counted (stops : readStopWords stopFile = .ok stopWords)
    (reads : List.Forall₂ DocElement.Reads docs documents)
    (distinct : (documents.map Document.id).Nodup) :
    letI := realNumbers
    ∃ counted N, countDocuments jieba stopWords docs (create : PagePreProcessor ℝ) 0 =
        .ok (counted, N) ∧
      (create : PagePreProcessor ℝ).invertProcess jieba stopFile (some docs) =
        .ok (counted.weighDocuments N) ∧
      Corpus jieba stopWords documents counted N := by
  let := realNumbers
  obtain ⟨counted, N, ended, corpus⟩ :=
    countDocuments_corpus reads (by rwa [List.nil_append])
      (corpus_create : Corpus jieba stopWords [] (create : PagePreProcessor ℝ) 0)
  rw [List.nil_append] at corpus
  refine ⟨counted, N, ended, ?_, corpus⟩
  rw [invertProcess, stops, ok_bind]
  dsimp only
  rw [ended, ok_bind]
  rfl

/-- For documents with different ids that all have kept words: `invertProcess` divides by a positive
normaliser throughout and stores weights between zero and one exactly when every kept word is
missing from a document, and every document has one that is missing from two. -/
theorem invertProcess_wellWeighted_iff (stops : readStopWords stopFile = .ok stopWords)
    (reads : List.Forall₂ DocElement.Reads docs documents)
    (distinct : (documents.map Document.id).Nodup)
    (nonempty : ∀ document ∈ documents, document.kept jieba stopWords ≠ []) :
    letI := realNumbers
    ∃ counted N, countDocuments jieba stopWords docs (create : PagePreProcessor ℝ) 0 =
        .ok (counted, N) ∧
      (create : PagePreProcessor ℝ).invertProcess jieba stopFile (some docs) =
        .ok (counted.weighDocuments N) ∧
      (WellWeighted counted N documents ↔ Spread jieba stopWords documents) := by
  obtain ⟨counted, N, ended, processed, corpus⟩ := exists_counted jieba stops reads distinct
  exact ⟨counted, N, ended, processed, corpus.wellWeighted_iff nonempty⟩

end Runs

/-- A segmenter that cuts a text into its bytes. -/
def cutBytes (text : Bytes) : List Bytes := text.map fun byte => [byte]

/-- Three documents of one word each have well defined weights. -/
theorem invertProcess_wellWeighted_sample :
    letI := realNumbers
    let docs : List DocElement := [⟨some (some [49]), some (some [44])⟩,
      ⟨some (some [50]), some (some [63])⟩, ⟨some (some [51]), some (some [33])⟩]
    let documents : List Document := [⟨1, some [44]⟩, ⟨2, some [63]⟩, ⟨3, some [33]⟩]
    Spread cutBytes [] documents ∧
      ∃ counted N, countDocuments cutBytes [] docs (create : PagePreProcessor ℝ) 0 =
          .ok (counted, N) ∧
        (create : PagePreProcessor ℝ).invertProcess cutBytes [] (some docs) =
          .ok (counted.weighDocuments N) ∧
        WellWeighted counted N documents := by
  let := realNumbers
  intro docs documents
  have spread : Spread cutBytes [] documents := ⟨by decide, by decide⟩
  have stops : readStopWords [] = .ok [] := by decide
  have reads : List.Forall₂ DocElement.Reads docs documents :=
    .cons ⟨[49], rfl, by decide, rfl⟩ (.cons ⟨[50], rfl, by decide, rfl⟩
      (.cons ⟨[51], rfl, by decide, rfl⟩ .nil))
  obtain ⟨counted, N, ended, processed, weighted⟩ :=
    invertProcess_wellWeighted_iff cutBytes stops reads (by decide) (by decide)
  exact ⟨spread, counted, N, ended, processed, weighted.mpr spread⟩

/-- Two documents of one word each: both normalisers are zero. -/
theorem invertProcess_dividesZero :
    letI := realNumbers
    let docs : List DocElement :=
      [⟨some (some [49]), some (some [44])⟩, ⟨some (some [50]), some (some [63])⟩]
    let documents : List Document := [⟨1, some [44]⟩, ⟨2, some [63]⟩]
    (documents.map Document.id).Nodup ∧
    (∀ document ∈ documents, document.kept cutBytes [] ≠ []) ∧
    ∃ counted N, countDocuments cutBytes [] docs (create : PagePreProcessor ℝ) 0 =
        .ok (counted, N) ∧
      (create : PagePreProcessor ℝ).invertProcess cutBytes [] (some docs) =
        .ok (counted.weighDocuments N) ∧
      ¬ WellWeighted counted N documents ∧
      ∀ document ∈ documents, ¬ 0 < counted.normaliser N document := by
  let := realNumbers
  have reads : List.Forall₂ DocElement.Reads
      [⟨some (some [49]), some (some [44])⟩, ⟨some (some [50]), some (some [63])⟩]
      [⟨1, some [44]⟩, ⟨2, some [63]⟩] :=
    .cons ⟨[49], rfl, by decide, rfl⟩ (.cons ⟨[50], rfl, by decide, rfl⟩ .nil)
  obtain ⟨counted, N, ended, processed, corpus⟩ :=
    exists_counted cutBytes (show readStopWords [] = .ok [] by decide) reads (by decide)
  have zero : ∀ document ∈ [⟨1, some [44]⟩, ⟨2, some [63]⟩],
      ¬ 0 < counted.normaliser N document := by
    intro document member positive
    rw [corpus.normaliser_eq member, sumOfSquares_real, squares_products_pos_iff (by decide)]
      at positive
    revert document
    decide
  refine ⟨by decide, by decide, counted, N, ended, processed, fun well => ?_, zero⟩
  exact zero _ List.mem_cons_self (well.positive _ List.mem_cons_self)

end PagePreProcessor

end SearchEngine
