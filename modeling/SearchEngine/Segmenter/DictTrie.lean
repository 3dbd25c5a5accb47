/-
This file models the dictionary of the segmenter: how it is read from its files,
the trie over its words, and the lookups of a segmentation in it.

A lookup lists for every place of a sentence the words that start there. The
main result says that the list of a place has exactly the dictionary words of at
most the given length that the sentence goes on with, and the single rune, known
or not.
-/

import SearchEngine.Library.Arithmetic
import SearchEngine.Library.Trie
import SearchEngine.Segmenter.Unicode

namespace SearchEngine.Cppjieba

open Arithmetic

/-- `MAX_WORD_LENGTH` -/
def maxWordLength : Nat := 512

/-- `DictUnit` -/
structure DictUnit (Number : Type) where
  word : List Rune
  weight : Number
  tag : Bytes

/-- A place of a sentence with the places where words that start there end. -/
structure Dag (Number : Type) where
  runestr : RuneStr
  nexts : List (Nat × Option (DictUnit Number))
  pInfo : Option (DictUnit Number)
  weight : Number

/-- `TrieNode` -/
abbrev TrieNode (Number : Type) := Trie Rune (DictUnit Number)

section Trie

variable {Number : Type}

/-- `Trie::InsertNode` -/
def insertNode (root : TrieNode Number) (key : List Rune) (ptValue : DictUnit Number) :
    TrieNode Number :=
  if key = [] then root else root.insert key ptValue

/-- `DictTrie::CreateTrie` with `Trie::CreateTrie`: every unit is inserted under its word. -/
def createTrie (dictUnits : List (DictUnit Number)) : TrieNode Number :=
  dictUnits.foldl (fun root unit => insertNode root unit.word unit) Trie.empty

/-- The inner loop of `Trie::Find` from rune `j` on, at a node of the trie. -/
def findNexts (maxWordLen i : Nat) : Option (TrieNode Number) → Nat → List RuneStr →
    List (Nat × Option (DictUnit Number))
  | _, _, [] => []
  | ptNode, j, rune :: rest =>
    if j - i + 1 ≤ maxWordLen then
      match ptNode.bind fun node => node.next rune.rune with
      | none => []
      | some child =>
        match child.value with
        | some unit => (j, some unit) :: findNexts maxWordLen i (some child) (j + 1) rest
        | none => findNexts maxWordLen i (some child) (j + 1) rest
    else []

/-- A round of the outer loop of `Trie::Find`. -/
def findDag (zero : Number) (root : TrieNode Number) (maxWordLen i : Nat) (rune : RuneStr)
    (rest : List RuneStr) : Dag Number :=
  let ptNode := root.next rune.rune
  ⟨rune, (i, ptNode.bind Trie.value) :: findNexts maxWordLen i ptNode (i + 1) rest, none, zero⟩

/-- `Trie::Find` from rune `i` on. -/
def findDags (zero : Number) (root : TrieNode Number) (maxWordLen : Nat) :
    Nat → List RuneStr → List (Dag Number)
  | _, [] => []
  | i, rune :: rest =>
    findDag zero root maxWordLen i rune rest :: findDags zero root maxWordLen (i + 1) rest

end Trie

/-- A dictionary that is ready for lookups: under every word stands a unit of this word, and the
empty word has none. -/
structure DictTrie (Number : Type) where
  root : TrieNode Number
  minWeight : Number
  userDictSingleChineseWord : List Rune
  word_of_find : ∀ key unit, root.find key = some unit → unit.word = key
  value_root : root.value = none

/-! ### Loading -/

section Loading

variable {Number : Type} [LogArithmetic Number]

/-- `MakeNodeInfo`: where the word cannot be decoded it is cleared, and the rest stays. -/
def makeNodeInfo (nodeInfo : DictUnit Number) (word : Bytes) (weight : Number) (tag : Bytes) :
    DictUnit Number :=
  match decodeRunesInString word with
  | none => { nodeInfo with word := [] }
  | some runes => ⟨runes.map RuneStr.rune, weight, tag⟩

/-- A new `DictUnit`; its weight is not initialized. -/
def newUnit : DictUnit Number := ⟨[], ofInt 0, []⟩

/-- The loop of `LoadDict` over the lines of the file, which ends the program at a line that has
not three columns. -/
def loadDict (atof : Bytes → Number) : DictUnit Number → List Bytes →
    Option (List (DictUnit Number))
  | _, [] => some []
  | nodeInfo, line :: lines =>
    match Text.lines space line with
    | [word, frequency, tag] =>
      let nodeInfo := makeNodeInfo nodeInfo word (atof frequency) tag
      (loadDict atof nodeInfo lines).map (nodeInfo :: ·)
    | _ => none

/-- `CalcFreqSum` -/
def calcFreqSum (nodeInfos : List (DictUnit Number)) : Number :=
  nodeInfos.foldl (fun sum nodeInfo => sum + nodeInfo.weight) (ofInt 0)

/-- `CalculateWeight`, which ends the program at a sum or a weight that is not positive. -/
def calculateWeight (nodeInfos : List (DictUnit Number)) (sum : Number) :
    Option (List (DictUnit Number)) :=
  if less (ofInt 0) sum ∧ ∀ nodeInfo ∈ nodeInfos, less (ofInt 0) nodeInfo.weight then
    some (nodeInfos.map fun nodeInfo =>
      { nodeInfo with weight := LogArithmetic.log (nodeInfo.weight / sum) })
  else none

/-- The sort of `SetStaticWordWeights`, which only the weights are read of. -/
def sortedWeights (nodeInfos : List (DictUnit Number)) : List Number :=
  (nodeInfos.map DictUnit.weight).mergeSort fun first second => !Arithmetic.less second first

/-- `InserUserDictNode`, up to the insertion into the two containers. -/
def inserUserDictNode (atoi : Bytes → Int) (freqSum userWordDefaultWeight : Number)
    (line : Bytes) : DictUnit Number :=
  match Text.lines space line with
  | [word] => makeNodeInfo newUnit word userWordDefaultWeight []
  | [word, tag] => makeNodeInfo newUnit word userWordDefaultWeight tag
  | [word, frequency, tag] =>
    makeNodeInfo newUnit word
      (LogArithmetic.log (ofInt 1 * ofInt (atoi frequency) / freqSum)) tag
  | _ => newUnit

/-- `LoadUserDict` over the lines of its files. -/
def loadUserDict (atoi : Bytes → Int) (freqSum userWordDefaultWeight : Number)
    (lines : List Bytes) : List (DictUnit Number) :=
  (lines.filter fun line => line ≠ []).map (inserUserDictNode atoi freqSum userWordDefaultWeight)

/-- `user_dict_single_chinese_word_` -/
def singleWords (units : List (DictUnit Number)) : List Rune :=
  units.flatMap fun unit => if unit.word.length = 1 then unit.word else []

end Loading

/-! ### The trie of a list of units -/

section CreateTrie

variable {Number : Type}

theorem find_insertNode (root : TrieNode Number) (unit : DictUnit Number) {key : List Rune}
    (nonempty : key ≠ []) :
    (insertNode root unit.word unit).find key =
      if unit.word = key then some unit else root.find key := by
  rw [insertNode]
  by_cases empty : unit.word = []
  · rw [if_pos empty, empty, if_neg nonempty.symm]
  · rw [if_neg empty, Trie.find_insert]
    simp only [eq_comm]

theorem value_insertNode (root : TrieNode Number) (unit : DictUnit Number) :
    (insertNode root unit.word unit).value = root.value := by
  rw [insertNode]
  split_ifs with empty
  · rfl
  · rw [← Trie.find_nil, Trie.find_insert, if_neg (Ne.symm empty), Trie.find_nil]

/-- Under a word the trie has the last unit of this word. -/
theorem find_createTrie (dictUnits : List (DictUnit Number)) {key : List Rune}
    (nonempty : key ≠ []) :
    (createTrie dictUnits).find key = dictUnits.reverse.find? fun unit => unit.word = key := by
  have general : ∀ root : TrieNode Number,
      (dictUnits.foldl (fun root unit => insertNode root unit.word unit) root).find key =
        (dictUnits.reverse.find? fun unit => unit.word = key).or (root.find key) := by
    induction dictUnits with
    | nil => exact fun root => rfl
    | cons unit dictUnits inductionHypothesis =>
      intro root
      rw [List.foldl_cons, inductionHypothesis, find_insertNode root unit nonempty,
        List.reverse_cons, List.find?_append, Option.or_assoc]
      congr 1
      by_cases same : unit.word = key
      · rw [if_pos same, List.find?_cons_of_pos (by simpa using same), Option.some_or]
      · rw [if_neg same, List.find?_cons_of_neg (by simpa using same), List.find?_nil,
          Option.none_or]
  rw [createTrie, general, Trie.find_empty, Option.or_none]

theorem value_createTrie (dictUnits : List (DictUnit Number)) :
    (createTrie dictUnits).value = none := by
  have general : ∀ root : TrieNode Number,
      (dictUnits.foldl (fun root unit => insertNode root unit.word unit) root).value =
        root.value := by
    induction dictUnits with
    | nil => exact fun root => rfl
    | cons unit dictUnits inductionHypothesis =>
      intro root
      rw [List.foldl_cons, inductionHypothesis, value_insertNode]
  exact general Trie.empty

theorem word_of_find_createTrie (dictUnits : List (DictUnit Number)) (key : List Rune)
    (unit : DictUnit Number) (found : (createTrie dictUnits).find key = some unit) :
    unit.word = key := by
  by_cases nonempty : key = []
  · rw [nonempty, Trie.find_nil, value_createTrie] at found
    cases found
  · rw [find_createTrie dictUnits nonempty] at found
    simpa using List.find?_some found

end CreateTrie

/-! ### The dictionary -/

namespace DictTrie

variable {Number : Type}

/-- The dictionary over units. -/
def ofUnits (dictUnits : List (DictUnit Number)) (minWeight : Number)
    (userDictSingleChineseWord : List Rune) : DictTrie Number where
  root := createTrie dictUnits
  minWeight := minWeight
  userDictSingleChineseWord := userDictSingleChineseWord
  word_of_find := word_of_find_createTrie dictUnits
  value_root := value_createTrie dictUnits

/-- `DictTrie::Init` with `WordWeightMedian`, over the lines of the two files; nothing where a
check or an assertion ends the program. -/
def init [LogArithmetic Number] (atof : Bytes → Number) (atoi : Bytes → Int)
    (dictLines userLines : List Bytes) : Option (DictTrie Number) := do
  let nodeInfos ← loadDict atof newUnit dictLines
  let freqSum := calcFreqSum nodeInfos
  let staticNodeInfos ← calculateWeight nodeInfos freqSum
  let sorted := sortedWeights staticNodeInfos
  let minWeight ← sorted[0]?
  let medianWeight ← sorted[sorted.length / 2]?
  let userNodeInfos := loadUserDict atoi freqSum medianWeight userLines
  return ofUnits (staticNodeInfos ++ userNodeInfos) minWeight (singleWords userNodeInfos)

/-- A dictionary is loaded exactly when its weights and their sum are positive. -/
theorem init_isSome_iff [LogArithmetic Number] {atof : Bytes → Number} {atoi : Bytes → Int}
    {dictLines userLines : List Bytes} :
    (init atof atoi dictLines userLines).isSome = true ↔
      ∃ nodeInfos, loadDict atof newUnit dictLines = some nodeInfos ∧
        less (ofInt 0) (calcFreqSum nodeInfos) = true ∧
        ∀ nodeInfo ∈ nodeInfos, less (ofInt 0) nodeInfo.weight = true := by
  cases loaded : loadDict atof newUnit dictLines with
  | none => simp [init, loaded]
  | some nodeInfos =>
    by_cases positive : less (ofInt 0) (calcFreqSum nodeInfos) = true ∧
        ∀ nodeInfo ∈ nodeInfos, less (ofInt 0) nodeInfo.weight = true
    · obtain ⟨staticNodeInfos, weighed, length⟩ : ∃ staticNodeInfos,
          calculateWeight nodeInfos (calcFreqSum nodeInfos) = some staticNodeInfos ∧
            staticNodeInfos.length = nodeInfos.length :=
        ⟨_, if_pos positive, List.length_map _⟩
      -- the sum of no weights is not positive
      have nonempty : 0 < nodeInfos.length := by
        refine List.length_pos_iff.mpr fun empty => less_irrefl (ofInt 0 : Number) ?_
        rw [empty] at positive
        exact positive.1
      have sorted : (sortedWeights staticNodeInfos).length = nodeInfos.length := by
        rw [sortedWeights, List.length_mergeSort, List.length_map, length]
      have minWeight := List.getElem?_eq_getElem (sorted ▸ nonempty)
      have medianWeight :=
        List.getElem?_eq_getElem (Nat.div_lt_self (sorted ▸ nonempty) (by decide : 1 < 2))
      simp only [init, loaded, weighed, Option.bind_eq_bind, Option.bind_some, minWeight,
        medianWeight]
      exact iff_of_true rfl ⟨nodeInfos, rfl, positive⟩
    · simp [init, loaded, calculateWeight, positive]

/-- `IsUserDictSingleChineseWord` -/
def isUserDictSingleChineseWord (dictTrie : DictTrie Number) (word : Rune) : Bool :=
  word ∈ dictTrie.userDictSingleChineseWord

/-- `DictTrie::Find` -/
def find (dictTrie : DictTrie Number) (zero : Number) (maxWordLen i : Nat)
    (runes : List RuneStr) : List (Dag Number) :=
  findDags zero dictTrie.root maxWordLen i runes

/-- The unit of a stretch of runes. -/
def unitOf (dictTrie : DictTrie Number) (runes : List RuneStr) : Option (DictUnit Number) :=
  dictTrie.root.find (runes.map RuneStr.rune)

theorem word_of_unitOf {dictTrie : DictTrie Number} {runes : List RuneStr}
    {unit : DictUnit Number} (found : dictTrie.unitOf runes = some unit) :
    unit.word = runes.map RuneStr.rune := dictTrie.word_of_find _ _ found

/-- A word a segmentation may use: a single rune, or a word of the dictionary that is not too
long. -/
def Admissible (dictTrie : DictTrie Number) (maxWordLen : Nat) (word : List RuneStr) : Prop :=
  word.length = 1 ∨
    2 ≤ word.length ∧ word.length ≤ maxWordLen ∧ (dictTrie.unitOf word).isSome

theorem Admissible.ne_nil {dictTrie : DictTrie Number} {maxWordLen : Nat} {word : List RuneStr}
    (admissible : dictTrie.Admissible maxWordLen word) : word ≠ [] := by
  rintro rfl
  rcases admissible with single | ⟨long, -, -⟩
  · cases single
  · exact absurd long (by simp)

/-- What the inner loop lists behind a node: the words below the node that the runes go on with. -/
theorem mem_findNexts {maxWordLen i k : Nat} {p : Option (DictUnit Number)}
    (ptNode : Option (TrieNode Number)) (j : Nat) (runes : List RuneStr) :
    (k, p) ∈ findNexts maxWordLen i ptNode j runes ↔
      ∃ count unit, count < runes.length ∧ k = j + count ∧ k - i + 1 ≤ maxWordLen ∧
        p = some unit ∧
        (ptNode.bind fun node => node.find ((runes.take (count + 1)).map RuneStr.rune)) =
          some unit := by
  induction runes generalizing ptNode j with
  | nil => simp [findNexts]
  | cons rune rest inductionHypothesis =>
    rw [findNexts]
    by_cases short : j - i + 1 ≤ maxWordLen
    · rw [if_pos short]
      have below (count : Nat) : (ptNode.bind fun node =>
          node.find (((rune :: rest).take (count + 1)).map RuneStr.rune)) =
          (ptNode.bind fun node => node.next rune.rune).bind fun child =>
            child.find ((rest.take count).map RuneStr.rune) := by
        cases ptNode with
        | none => rfl
        | some node => exact Trie.find_cons _ _ _
      simp only [below]
      cases reached : ptNode.bind fun node => node.next rune.rune with
      | none => simp
      | some child =>
        have later : (k, p) ∈ findNexts maxWordLen i (some child) (j + 1) rest ↔
            ∃ count unit, count + 1 < (rune :: rest).length ∧ k = j + (count + 1) ∧
              k - i + 1 ≤ maxWordLen ∧ p = some unit ∧
              ((some child).bind fun child =>
                child.find ((rest.take (count + 1)).map RuneStr.rune)) = some unit := by
          rw [inductionHypothesis]
          refine exists_congr fun count => exists_congr fun unit => ?_
          rw [List.length_cons, Nat.add_lt_add_iff_right, Nat.add_right_comm, Nat.add_assoc]
        have here : (∃ unit, 0 < (rune :: rest).length ∧ k = j + 0 ∧ k - i + 1 ≤ maxWordLen ∧
            p = some unit ∧ ((some child).bind fun child =>
              child.find ((rest.take 0).map RuneStr.rune)) = some unit) ↔
            ∃ unit, child.value = some unit ∧ (k, p) = (j, some unit) := by
          refine exists_congr fun unit => ?_
          rw [Prod.mk.injEq]
          constructor
          · rintro ⟨-, rfl, -, rfl, found⟩
            exact ⟨found, rfl, rfl⟩
          · rintro ⟨found, rfl, rfl⟩
            exact ⟨Nat.succ_pos _, rfl, short, rfl, found⟩
        rw [← Nat.or_exists_add_one, here, ← later]
        dsimp only
        cases child.value with
        | none => simp
        | some unit => simp
    · rw [if_neg short]
      simp only [List.not_mem_nil, false_iff, not_exists]
      rintro count unit ⟨-, rfl, fits, -⟩
      omega

/-- The list of a place has the single rune and the dictionary words that start there. -/
theorem mem_nexts {zero : Number} {maxWordLen i : Nat} (dictTrie : DictTrie Number)
    (rune : RuneStr) (rest : List RuneStr) {next : Nat × Option (DictUnit Number)} :
    next ∈ (findDag zero dictTrie.root maxWordLen i rune rest).nexts ↔
      next = (i, dictTrie.unitOf [rune]) ∨
        ∃ count unit, 2 ≤ count ∧ count ≤ (rune :: rest).length ∧ count ≤ maxWordLen ∧
          next = (i + count - 1, some unit) ∧
          dictTrie.unitOf ((rune :: rest).take count) = some unit := by
  obtain ⟨k, p⟩ := next
  have single : ((dictTrie.root.next rune.rune).bind Trie.value) = dictTrie.unitOf [rune] := by
    rw [unitOf, List.map_singleton, Trie.find_cons]
    rfl
  rw [findDag]
  dsimp only
  rw [List.mem_cons, single, mem_findNexts]
  refine or_congr Iff.rfl ?_
  constructor
  · rintro ⟨count, unit, inside, rfl, fits, rfl, found⟩
    refine ⟨count + 2, unit, by omega, by rw [List.length_cons]; omega, by omega, ?_, ?_⟩
    · rw [show i + (count + 2) - 1 = i + 1 + count by omega]
    · rw [unitOf, List.take_succ_cons, List.map_cons, Trie.find_cons]
      exact found
  · rintro ⟨count, unit, large, inside, fits, same, found⟩
    obtain ⟨rfl, rfl⟩ := Prod.mk.inj same
    obtain ⟨fewer, rfl⟩ : ∃ fewer, count = fewer + 2 := ⟨count - 2, by omega⟩
    rw [List.length_cons] at inside
    refine ⟨fewer, unit, by omega, by omega, by omega, rfl, ?_⟩
    rw [unitOf, List.take_succ_cons, List.map_cons, Trie.find_cons] at found
    exact found

theorem unitOf_nil (dictTrie : DictTrie Number) : dictTrie.unitOf [] = none := by
  rw [unitOf, List.map_nil, Trie.find_nil, dictTrie.value_root]

end DictTrie

end SearchEngine.Cppjieba
