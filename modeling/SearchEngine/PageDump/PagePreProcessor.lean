/-
This file models `PagePreProcessor::invertProcess`, which builds the inverted
index from the pages and the words the segmenter cuts their descriptions into.

A first pass over the documents counts words: how many documents contain a word,
which words a document has, and how often and where a word occurs in a document.
A second pass over the documents joins these maps into the weights. The XML
parser is represented by the elements it returns, and the segmenter is a
parameter. Positions are counted in a `size_t` and stored in an `int`. The counts
of documents and of occurrences are `int` as well, and natural numbers here: they
are the same as long as each is less than 2^31.
-/

import SearchEngine.Searcher.WebPageSearcher

namespace SearchEngine

open Containers

/-! ### Words -/

/-- `std::isalnum` -/
def isalnum (byte : UInt8) : Bool :=
  Text.isDigit byte || (65 ≤ byte && byte ≤ 90) || (97 ≤ byte && byte ≤ 122)

/-- The order of `std::string`. -/
def bytesLess (first second : Bytes) : Bool := first.map UInt8.toNat < second.map UInt8.toNat

/-- The test for words that are not indexed; the first byte of an empty word is `'\0'`. -/
def skipped (stopWords : List Bytes) (word : Bytes) : Bool :=
  stopWords.contains word || isalnum (word.headD 0) || Text.isSpace (word.headD 0)

/-- The loop over the lines of the file of stop words, which drops the last byte of each. -/
def readStopWordsLoop : List Bytes → List Bytes → Except Fault (List Bytes)
  | [], stopWords => .ok stopWords
  | tmpStr :: lines, stopWords =>
    if tmpStr = [] then .error .emptyContainer
    else readStopWordsLoop lines (stopWords ++ [tmpStr.dropLast])

/-- The stop words of a file. -/
def readStopWords (file : Bytes) : Except Fault (List Bytes) :=
  readStopWordsLoop (Text.lines newline file) []

/-! ### Documents and members -/

/-- A document element: what `GetText` returns for its child `docid`, where it has one, and for the
`description` behind that. -/
structure DocElement where
  docid : Option (Option Bytes)
  description : Option (Option Bytes)

/-- `PagePreProcessor` -/
structure PagePreProcessor (Weight : Type) where
  invertIndexTable : InvertIndexTable Weight
  wordsFreq : AList fun _ : Bytes => Nat
  docWords : AList fun _ : Int => List Bytes
  docFreq : AList fun _ : Bytes => AList fun _ : Int => Nat × Int

namespace PagePreProcessor

variable {Weight : Type}

/-- `PagePreProcessor::PagePreProcessor` -/
def create : PagePreProcessor Weight where
  invertIndexTable := ∅
  wordsFreq := ∅
  docWords := ∅
  docFreq := ∅

/-! ### The counting pass -/

section Counting

variable (jieba : Bytes → List Bytes) (stopWords : List Bytes)

/-- The body of the loop over the words of a document. -/
def countWord (id : Int) (curPos : Nat) (word : Bytes) (processor : PagePreProcessor Weight) :
    PagePreProcessor Weight :=
  if skipped stopWords word then processor
  else
    let (docWords, words) := subscript processor.docWords id
    let processor :=
      if word ∈ words then { processor with docWords }
      else { processor with
        wordsFreq := processor.wordsFreq.insert word (value processor.wordsFreq word + 1)
        docWords := docWords.insert id (place bytesLess word words) }
    let freqs := value processor.docFreq word
    let (freq, _) := value freqs id
    { processor with
      docFreq := processor.docFreq.insert word (freqs.insert id (freq + 1, toInt curPos)) }

/-- The loop over the words of a document, from the position `curPos` on. -/
def countWords (id : Int) :
    Nat → List Bytes → PagePreProcessor Weight → PagePreProcessor Weight
  | _, [], processor => processor
  | curPos, word :: cutWords, processor =>
    countWords id (curPos + word.length) cutWords (countWord stopWords id curPos word processor)

/-- The body of the loop over the documents, with the number of documents so far. -/
def countDocument (processor : PagePreProcessor Weight) (docCnt : Nat) (doc : DocElement) :
    Except Fault (PagePreProcessor Weight × Nat) :=
  match doc.docid with
  | none => .ok (processor, docCnt)
  | some docid => do
    let id ← stoi (← orFault .nullPointer docid)
    match ← orFault .nullPointer doc.description with
    | none => return (processor, docCnt)
    | some content =>
      if content.length ≠ 0 then
        return (countWords stopWords id 0 (jieba content) processor, docCnt + 1)
      else return (processor, docCnt + 1)

/-- The loop over the documents. -/
def countDocuments :
    List DocElement → PagePreProcessor Weight → Nat → Except Fault (PagePreProcessor Weight × Nat)
  | [], processor, docCnt => .ok (processor, docCnt)
  | doc :: docs, processor, docCnt => do
    let (processor, docCnt) ← countDocument jieba stopWords processor docCnt doc
    countDocuments docs processor docCnt

end Counting

/-! ### The weighting pass -/

section Weighting

variable [Arithmetic Weight]

open Arithmetic

/-- The order of `pair<int, pair<double, int>>`. -/
def postingLess (first second : Posting Weight) : Bool :=
  first.id < second.id || !(second.id < first.id) &&
    (less first.weight second.weight || !(less second.weight first.weight) &&
      first.position < second.position)

/-- `TF * IDF` of a word. Its keys are there, so the subscripts of the maps insert nothing. -/
def weigh (processor : PagePreProcessor Weight) (N : Nat) (curId : Int) (word : Bytes) : Weight :=
  let TF := (value (value processor.docFreq word) curId).1
  let DF := value processor.wordsFreq word
  let IDF : Weight := log2 (ofInt N / ofInt (DF + 1))
  ofInt TF * IDF

/-- The loop over the words of a document: `curW` and `sumW`. -/
def weighWords (processor : PagePreProcessor Weight) (N : Nat) (curId : Int) :
    List Bytes → (AList fun _ : Bytes => Weight × Int) → Weight →
      (AList fun _ : Bytes => Weight × Int) × Weight
  | [], curW, sumW => (curW, sumW)
  | word :: words, curW, sumW =>
    let weight := processor.weigh N curId word
    let position := (value (value processor.docFreq word) curId).2
    weighWords processor N curId words (curW.insert word (weight, position))
      (sumW + weight * weight)

/-- The loop over `curW`, which adds the postings of a document. -/
def addPostings (curId : Int) (sumW : Weight) :
    List (Sigma fun _ : Bytes => Weight × Int) → InvertIndexTable Weight → InvertIndexTable Weight
  | [], table => table
  | ⟨word, weight, position⟩ :: curW, table =>
    let (table, postings) := subscript table word
    addPostings curId sumW curW
      (table.insert word (place postingLess ⟨curId, weight / sqrt sumW, position⟩ postings))

/-- The body of the loop of the weighting pass. -/
def weighDocument (N : Nat) (processor : PagePreProcessor Weight)
    (document : Sigma fun _ : Int => List Bytes) : PagePreProcessor Weight :=
  let (curW, sumW) := processor.weighWords N document.1 document.2 ∅ (ofInt 0)
  { processor with
    invertIndexTable := addPostings document.1 sumW curW.entries processor.invertIndexTable }

/-- The weighting pass, over the documents in the order of their ids. -/
def weighDocuments (processor : PagePreProcessor Weight) (N : Nat) : PagePreProcessor Weight :=
  let documents := processor.docWords.entries.insertionSort fun first second => first.1 ≤ second.1
  documents.foldl (weighDocument N) processor

/-- `PagePreProcessor::invertProcess`, on the contents of the file of stop words and the elements of
the page file, where this can be parsed. -/
def invertProcess (jieba : Bytes → List Bytes) (stopFile : Bytes) (xml : Option (List DocElement))
    (processor : PagePreProcessor Weight) : Except Fault (PagePreProcessor Weight) := do
  let stopWords ← readStopWords stopFile
  match xml with
  | none => return processor
  | some docs =>
    let (processor, docCnt) ← countDocuments jieba stopWords docs processor 0
    return processor.weighDocuments docCnt

end Weighting

end PagePreProcessor

end SearchEngine
