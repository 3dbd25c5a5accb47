/-
This file models the dictionary from its construction to a query: the index
`DictProducer::createIndex` builds, the two files `DictProducer::store` writes,
the decoders `Dictionary::initDict` and `Dictionary::initIndex`, and
`Dictionary::doQuery`.

The index maps a character to a set of positions. A position is a `size_t` where
it is counted and an `int` where it is stored, and the model makes this
conversion explicit. A dictionary query looks characters up through the subscript
of the index, so the index is part of the state that is passed on.
-/

import SearchEngine.Recommender.MinEditDist
import SearchEngine.Library.Containers
import SearchEngine.Library.PriorityQueue

namespace SearchEngine

open Containers

/-! ### Data -/

/-- `map<string, set<int>>`, with every set of positions in iteration order. -/
abbrev Index := AList fun _ : Bytes => List Int

/-- `Dictionary` -/
structure Dictionary where
  dict : List (Bytes × Int)
  index : Index

/-- `CandidateResult` -/
structure CandidateResult where
  word : Bytes
  fre : Int
  dis : Nat
  deriving DecidableEq

/-- `CandidateResult::operator<` -/
def CandidateResult.less (result rhs : CandidateResult) : Bool :=
  if result.dis ≠ rhs.dis then result.dis > rhs.dis else result.fre < rhs.fre

/-- The ordered list as the priority queue of candidates. -/
def orderedQueue : PriorityQueue CandidateResult.less :=
  PriorityQueue.ordered
    (fun first second => by
      simp only [CandidateResult.less]
      split_ifs <;> simp <;> omega)
    (fun first second third => by
      simp only [CandidateResult.less]
      split_ifs <;> simp <;> omega)

/-- `index[key].insert(position)` -/
def insertPosition (index : Index) (key : Bytes) (position : Int) : Index :=
  let (index, positions) := subscript index key
  index.insert key (place (fun first second => decide (first < second)) position positions)

/-! ### `DictProducer` -/

namespace DictProducer

/-- The loop of `DictProducer::createIndex` over the characters of one word, which runs at most
once for each byte. -/
def createIndexInner (i : Int) : Nat → Bytes → Index → Except Fault Index
  | 0, _, index => .ok index
  | rounds + 1, word, index =>
    if word = [] then .ok index
    else do
      let (letter, word) ← Utf8.cut word
      createIndexInner i rounds word (insertPosition index letter i)

/-- The loop of `DictProducer::createIndex` over the words, from position `i` on. -/
def createIndexLoop : Nat → List (Bytes × Int) → Index → Except Fault Index
  | _, [], index => .ok index
  | i, entry :: dict, index => do
    let index ← createIndexInner (toInt i) entry.1.length entry.1 index
    createIndexLoop (i + 1) dict index

/-- `DictProducer::createIndex` -/
def createIndex (dict : List (Bytes × Int)) : Except Fault Index := createIndexLoop 0 dict ∅

/-- A line of `dict.dat`, without its newline. -/
def dictLine (entry : Bytes × Int) : Bytes := entry.1 ++ [space] ++ Text.decimalInt entry.2

/-- A line of `dictIndex.dat`, without its newline. -/
def indexLine (key : Bytes) (positions : List Int) : Bytes :=
  key ++ [space] ++ positions.flatMap fun position => Text.decimalInt position ++ [space]

/-- The entries of a map in the order of their keys. -/
def inKeyOrder (index : Index) : List (Sigma fun _ : Bytes => List Int) :=
  index.entries.insertionSort fun first second =>
    first.1.map UInt8.toNat ≤ second.1.map UInt8.toNat

/-- `DictProducer::store`: the contents of `dict.dat` and of `dictIndex.dat`. -/
def store (dict : List (Bytes × Int)) (index : Index) : Bytes × Bytes :=
  (dict.flatMap fun entry => dictLine entry ++ [newline],
    (inKeyOrder index).flatMap fun entry => indexLine entry.1 entry.2 ++ [newline])

end DictProducer

/-! ### Loading the files -/

namespace Dictionary

/-- The loop of `Dictionary::initDict` over a line, from position `i` on; it returns `word` and
`fre`. -/
def initDictInner : Nat → Bytes → Bytes → Bytes → Bool → Except Fault (Bytes × Bytes)
  | _, [], word, fre, _ => .ok (word, fre)
  | i, byte :: line, word, fre, flag => do
    let i ← increment i
    if byte = space then initDictInner i line word fre true
    else if !flag then initDictInner i line (word ++ [byte]) fre flag
    else initDictInner i line word (fre ++ [byte]) flag

/-- The loop of `Dictionary::initDict` over the lines. -/
def initDictLoop : List Bytes → List (Bytes × Int) → Except Fault (List (Bytes × Int))
  | [], dict => .ok dict
  | line :: lines, dict => do
    let (word, fre) ← initDictInner 0 line [] [] false
    let _fre ← stoi fre
    initDictLoop lines (dict ++ [(word, _fre)])

/-- `Dictionary::initDict` -/
def initDict (file : Bytes) : Except Fault (List (Bytes × Int)) :=
  initDictLoop (Text.lines newline file) []

/-- The loop of `Dictionary::initIndex` over a line, from position `i` on. The space behind a number
is put in front of the next one. -/
def initIndexInner : Nat → Bytes → Bytes → Bytes → Bool → Index → Except Fault Index
  | _, [], _, _, _, index => .ok index
  | i, byte :: line, word, num, flag, index =>
    if !flag && byte = space then do
      let i ← increment i
      initIndexInner i line word num flag index
    else do
      let (num, index) ←
        if flag && byte = space then do
          let _num ← stoi num
          pure ([], insertPosition index word _num)
        else pure (num, index)
      let flag := flag || Text.isDigit byte
      let i ← increment i
      if !flag then initIndexInner i line (word ++ [byte]) num flag index
      else initIndexInner i line word (num ++ [byte]) flag index

/-- The loop of `Dictionary::initIndex` over the lines. -/
def initIndexLoop : List Bytes → Index → Except Fault Index
  | [], index => .ok index
  | line :: lines, index => do
    let index ← initIndexInner 0 line [] [] false index
    initIndexLoop lines index

/-- `Dictionary::initIndex` -/
def initIndex (file : Bytes) : Except Fault Index :=
  initIndexLoop (Text.lines newline file) ∅

/-- The constructor of `Dictionary`, on the contents of its files. -/
def load (files : Bytes × Bytes) : Except Fault Dictionary := do
  let dict ← initDict files.1
  let index ← initIndex files.2
  return ⟨dict, index⟩

/-! ### Candidates -/

/-- The loop of `Dictionary::splitSought`, which runs at most once for each byte. -/
def splitSoughtLoop : Nat → Bytes → List Bytes → Except Fault (List Bytes)
  | 0, _, ret => .ok ret
  | rounds + 1, sought, ret =>
    if sought = [] then .ok ret
    else do
      let (letter, sought) ← Utf8.cut sought
      splitSoughtLoop rounds sought (ret ++ [letter])

/-- `Dictionary::splitSought` -/
def splitSought (sought : Bytes) : Except Fault (List Bytes) :=
  splitSoughtLoop sought.length sought []

/-- `_dict[position]`; a negative position becomes a large one. -/
def entryAt (dict : List (Bytes × Int)) (position : Int) : Except Fault (Bytes × Int) :=
  if 0 ≤ position then orFault .outOfBounds dict[position.toNat]? else .error .outOfBounds

/-- The candidate for a position. -/
def candidateAt (dict : List (Bytes × Int)) (sought : Bytes) (position : Int) :
    Except Fault CandidateResult := do
  let (word, fre) ← entryAt dict position
  let dis ← MinEditDist.editDistance sought word
  return ⟨word, fre, dis⟩

/-- The loop of `Dictionary::doQuery` over the positions of one character; it returns the
candidates that are pushed. -/
def pushPositions (dict : List (Bytes × Int)) (sought : Bytes) :
    List Int → Except Fault (List CandidateResult)
  | [] => .ok []
  | position :: positions => do
    let candidateWord ← candidateAt dict sought position
    let pushed ← pushPositions dict sought positions
    return candidateWord :: pushed

/-- The loop of `Dictionary::doQuery` over the characters; it returns the candidates that are
pushed. The index keeps what was inserted before a fault. -/
def pushCandidates (sought : Bytes) :
    Dictionary → List Bytes → Dictionary × Except Fault (List CandidateResult)
  | dictionary, [] => (dictionary, .ok [])
  | dictionary, letter :: words =>
    let (index, _set) := subscript dictionary.index letter
    let dictionary := { dictionary with index }
    match pushPositions dictionary.dict sought _set with
    | .error fault => (dictionary, .error fault)
    | .ok pushed =>
      let (dictionary, later) := pushCandidates sought dictionary words
      (dictionary, later.map fun later => pushed ++ later)

/-- `Dictionary::doQuery` up to the end of its candidate loop. -/
def candidates (dictionary : Dictionary) (sought : Bytes) :
    Dictionary × Except Fault (List CandidateResult) :=
  match splitSought sought with
  | .error fault => (dictionary, .error fault)
  | .ok words => pushCandidates sought dictionary words

/-! ### Selection -/

section Selection

variable (que : PriorityQueue CandidateResult.less)

/-- The loop of `Dictionary::doQuery` that pops the words it has already returned. -/
def popReturned : que.Queue → List Bytes → Except Fault que.Queue
  | queue, [] => .ok queue
  | queue, word :: ret => do
    let top ← orFault .emptyContainer (que.top queue)
    if word = top.word then popReturned (que.pop queue) ret else popReturned queue ret

/-- The selection loop of `Dictionary::doQuery`. It returns the words in `ret` and, where it ends
in a fault, the fault. -/
def selectLoop : Nat → que.Queue → List Bytes → List Bytes × Option Fault
  | 0, _, ret => (ret, none)
  | cnt + 1, queue, ret =>
    if (que.top queue).isNone then (ret, none)
    else
      match popReturned que queue ret with
      | .error fault => (ret, some fault)
      | .ok queue =>
        match que.top queue with
        | none => (ret, some .emptyContainer)
        | some top => selectLoop cnt (que.pop queue) (ret ++ [top.word])

/-- `Dictionary::doQuery`, with the words in `ret` also where the selection ends in a fault. -/
def select (dictionary : Dictionary) (sought : Bytes) :
    Dictionary × Except Fault (List Bytes × Option Fault) :=
  let (dictionary, pushed) := dictionary.candidates sought
  (dictionary, pushed.map fun pushed => selectLoop que 5 (que.pushAll pushed) [])

/-- `Dictionary::doQuery` -/
def doQuery (dictionary : Dictionary) (sought : Bytes) :
    Dictionary × Except Fault (List Bytes) :=
  let (dictionary, selected) := dictionary.select que sought
  (dictionary, do
    let (ret, ended) ← selected
    match ended with
    | none => return ret
    | some fault => .error fault)

end Selection

end Dictionary

end SearchEngine
