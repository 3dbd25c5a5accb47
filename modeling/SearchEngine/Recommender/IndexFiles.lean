/-
This file proves that the dictionary and its index survive the files.

Building the index and decoding the index file are both runs of insertions of
positions under characters, so two indexes are compared by the pairs that were
inserted. The decoder of the index file finds the end of a key by its first
digit and carries the space behind a number into the next one. Both are harmless
for keys without digits and spaces, since `stoi` skips blanks.
-/

import SearchEngine.Recommender.Dictionary

namespace SearchEngine

open Containers Utf8

/-! ### Runs of insertions -/

theorem mem_value_insertPosition (index : Index) (key other : Bytes) (position another : Int) :
    another ∈ value (insertPosition index key position) other ↔
      (other, another) = (key, position) ∨ another ∈ value index other := by
  have added : value (insertPosition index key position) other = _ :=
    value_addUnder index key other position
  rw [added, Prod.mk.injEq]
  by_cases same : other = key
  · rw [if_pos same, same, mem_place_of_total (by simp; omega), and_iff_right rfl]
  · rw [if_neg same]
    simp [same]

/-- Insert positions under keys, one after the other. -/
def insertAll (pairs : List (Bytes × Int)) (index : Index) : Index :=
  pairs.foldl (fun index pair => insertPosition index pair.1 pair.2) index

theorem insertAll_append (first second : List (Bytes × Int)) (index : Index) :
    insertAll (first ++ second) index = insertAll second (insertAll first index) :=
  List.foldl_append

theorem mem_value_insertAll (pairs : List (Bytes × Int)) (index : Index) (key : Bytes)
    (position : Int) :
    position ∈ value (insertAll pairs index) key ↔
      (key, position) ∈ pairs ∨ position ∈ value index key := by
  induction pairs generalizing index with
  | nil => simp [insertAll]
  | cons pair pairs inductionHypothesis =>
    rw [insertAll, List.foldl_cons, ← insertAll, inductionHypothesis, mem_value_insertPosition,
      List.mem_cons, ← or_assoc, or_comm (a := (key, position) ∈ pairs)]

theorem mem_insertAll (pairs : List (Bytes × Int)) (index : Index) (key : Bytes) :
    key ∈ insertAll pairs index ↔ (∃ position, (key, position) ∈ pairs) ∨ key ∈ index :=
  mem_addAllUnder pairs index key

theorem value_empty (key : Bytes) : value (∅ : Index) key = [] := rfl

/-! ### The index of a dictionary -/

/-- A word with its frequency, as bytes. -/
def encodeEntry (entry : List Char × Int) : Bytes × Int := (encode entry.1, entry.2)

/-- The characters of the words with the positions of the words, from position `i` on. -/
def indexPairs : Nat → List (List Char × Int) → List (Bytes × Int)
  | _, [] => []
  | i, entry :: words =>
    (entry.1.map fun letter => (String.utf8EncodeChar letter, toInt i)) ++ indexPairs (i + 1) words

theorem mem_indexPairs (i : Nat) (words : List (List Char × Int)) (key : Bytes) (position : Int) :
    (key, position) ∈ indexPairs i words ↔
      ∃ j entry, words[j]? = some entry ∧ (∃ letter ∈ entry.1, key = String.utf8EncodeChar letter) ∧
        position = toInt (i + j) := by
  induction words generalizing i with
  | nil => simp [indexPairs]
  | cons first words inductionHypothesis =>
    have shift (j : Nat) : i + 1 + j = i + (j + 1) := by omega
    rw [indexPairs, List.mem_append, inductionHypothesis]
    constructor
    · rintro (member | ⟨j, entry, found, letters, same⟩)
      · obtain ⟨letter, among, same⟩ := List.mem_map.mp member
        obtain ⟨rfl, rfl⟩ := Prod.mk.inj same
        exact ⟨0, first, rfl, ⟨letter, among, rfl⟩, rfl⟩
      · refine ⟨j + 1, entry, found, letters, ?_⟩
        rw [same, shift]
    · rintro ⟨j, entry, found, ⟨letter, among, rfl⟩, same⟩
      rw [same]
      cases j with
      | zero =>
        obtain rfl := Option.some.inj found
        exact Or.inl (List.mem_map.mpr ⟨letter, among, rfl⟩)
      | succ j =>
        exact Or.inr ⟨j, entry, found, ⟨letter, among, rfl⟩, by rw [shift]⟩

theorem createIndexInner_encode (i : Int) (text : List Char) {rounds : Nat}
    (enough : (encode text).length ≤ rounds) (index : Index) :
    DictProducer.createIndexInner i rounds (encode text) index =
      .ok (insertAll (text.map fun letter => (String.utf8EncodeChar letter, i)) index) := by
  induction text generalizing rounds index with
  | nil =>
    cases rounds with
    | zero => rfl
    | succ rounds => rw [DictProducer.createIndexInner, encode_nil, if_pos rfl]; rfl
  | cons letter text inductionHypothesis =>
    have nonempty := String.utf8EncodeChar_ne_nil (c := letter)
    obtain ⟨fewer, rfl, left⟩ := rounds_of_encode_cons enough
    rw [encode_cons, DictProducer.createIndexInner, if_neg (by simp [nonempty]), cut_utf8EncodeChar,
      ok_bind]
    dsimp only
    rw [inductionHypothesis left]
    rfl

theorem createIndexLoop_encode (i : Nat) (words : List (List Char × Int)) (index : Index) :
    DictProducer.createIndexLoop i (words.map encodeEntry) index =
      .ok (insertAll (indexPairs i words) index) := by
  induction words generalizing i index with
  | nil => rfl
  | cons entry words inductionHypothesis =>
    rw [List.map_cons, DictProducer.createIndexLoop, encodeEntry,
      createIndexInner_encode (toInt i) entry.1 (le_refl _), ok_bind, inductionHypothesis, indexPairs,
      insertAll_append]

/-- An index that has the position of every word under each of its characters, and nothing else. -/
def Indexes (words : List (List Char × Int)) (index : Index) : Prop :=
  ∀ key position, position ∈ value index key ↔ (key, position) ∈ indexPairs 0 words

/-- What `createIndex` builds; every key of it has a position. -/
theorem createIndex_spec (words : List (List Char × Int)) :
    ∃ index, DictProducer.createIndex (words.map encodeEntry) = .ok index ∧ Indexes words index ∧
      ∀ key ∈ index, ∃ position, (key, position) ∈ indexPairs 0 words := by
  refine ⟨_, createIndexLoop_encode 0 words ∅, fun key position => ?_, fun key member => ?_⟩
  · rw [mem_value_insertAll, value_empty]
    simp
  · exact ((mem_insertAll _ ∅ key).mp member).resolve_right (AList.notMem_empty key)

/-! ### Keys in a file -/

/-- A character that can stand in a word of a dictionary file. -/
def FileLetter (letter : Char) : Prop :=
  letter ≠ ' ' ∧ letter ≠ '\n' ∧ ¬ ('0' ≤ letter ∧ letter ≤ '9')

theorem fileLetter_of_large {letter : Char} (large : 0x80 ≤ letter.toNat) : FileLetter letter := by
  refine ⟨?_, ?_, fun digit => ?_⟩
  · rintro rfl
    exact absurd large (by decide)
  · rintro rfl
    exact absurd large (by decide)
  · have small : letter.toNat ≤ '9'.toNat := digit.2
    exact absurd (large.trans small) (by decide)

/-- None of its bytes is a separator or a digit. -/
theorem FileLetter.bytes {letter : Char} (plain : FileLetter letter) {byte : UInt8}
    (member : byte ∈ String.utf8EncodeChar letter) :
    byte ≠ space ∧ byte ≠ newline ∧ Text.isDigit byte = false := by
  by_cases ascii : byte.toNat < 0x80
  · have value := utf8EncodeChar_of_ascii member ascii
    obtain ⟨noSpace, noNewline, noDigit⟩ := plain
    refine ⟨?_, ?_, ?_⟩
    · rintro rfl
      exact noSpace (Char.toNat_inj.mp value.symm)
    · rintro rfl
      exact noNewline (Char.toNat_inj.mp value.symm)
    · rw [Bool.eq_false_iff, Text.isDigit, ne_eq, Bool.and_eq_true, decide_eq_true_eq,
        decide_eq_true_eq, UInt8.le_iff_toNat_le, UInt8.le_iff_toNat_le, value]
      exact noDigit
  · have large : 0x80 ≤ byte.toNat := Nat.le_of_not_lt ascii
    refine ⟨?_, ?_, ?_⟩
    · rintro rfl
      exact absurd large (by decide)
    · rintro rfl
      exact absurd large (by decide)
    · rw [Bool.eq_false_iff, Text.isDigit, ne_eq, Bool.and_eq_true, decide_eq_true_eq,
        decide_eq_true_eq, UInt8.le_iff_toNat_le, UInt8.le_iff_toNat_le]
      rintro ⟨-, below⟩
      exact absurd (large.trans below) (by decide)

/-! ### The dictionary file -/

/-- A word and its frequency as the dictionary files can hold them. -/
structure FileEntry (entry : List Char × Int) : Prop where
  letters : ∀ letter ∈ entry.1, FileLetter letter
  positive : 0 < entry.2
  small : entry.2 < 2 ^ 31

theorem FileEntry.bytes {entry : List Char × Int} (plain : FileEntry entry) {byte : UInt8}
    (member : byte ∈ encode entry.1) :
    byte ≠ space ∧ byte ≠ newline ∧ Text.isDigit byte = false := by
  obtain ⟨letter, among, inside⟩ := List.mem_flatMap.mp member
  exact (plain.letters letter among).bytes inside

theorem initDictInner_word {word : Bytes} (unbroken : space ∉ word) {i : Nat}
    (short : i + word.length < 2 ^ 31) (rest start fre : Bytes) :
    Dictionary.initDictInner i (word ++ rest) start fre false =
      Dictionary.initDictInner (i + word.length) rest (start ++ word) fre false := by
  induction word generalizing i start with
  | nil => rw [List.nil_append, List.append_nil]; rfl
  | cons byte word inductionHypothesis =>
    rw [List.length_cons] at short
    have different : byte ≠ space := fun same => unbroken (same ▸ List.mem_cons_self)
    rw [List.cons_append, Dictionary.initDictInner, increment_eq_ok (by omega), ok_bind,
      if_neg different, if_pos (by rfl),
      inductionHypothesis (fun member => unbroken (List.mem_cons_of_mem _ member)) (by omega),
      List.append_assoc, List.singleton_append, List.length_cons, Nat.add_right_comm, Nat.add_assoc]

theorem initDictInner_number {number : Bytes} (unbroken : space ∉ number) {i : Nat}
    (short : i + number.length < 2 ^ 31) (word fre : Bytes) :
    Dictionary.initDictInner i number word fre true = .ok (word, fre ++ number) := by
  induction number generalizing i fre with
  | nil => rw [Dictionary.initDictInner, List.append_nil]
  | cons byte number inductionHypothesis =>
    rw [List.length_cons] at short
    have different : byte ≠ space := fun same => unbroken (same ▸ List.mem_cons_self)
    rw [Dictionary.initDictInner, increment_eq_ok (by omega), ok_bind, if_neg different,
      if_neg (by decide),
      inductionHypothesis (fun member => unbroken (List.mem_cons_of_mem _ member)) (by omega),
      List.append_assoc, List.singleton_append]

/-- The decoder of the dictionary file takes a line apart. -/
theorem initDictInner_dictLine {entry : List Char × Int} (plain : FileEntry entry)
    (short : (DictProducer.dictLine (encodeEntry entry)).length < 2 ^ 31) :
    Dictionary.initDictInner 0 (DictProducer.dictLine (encodeEntry entry)) [] [] false =
      .ok (encode entry.1, Text.decimalInt entry.2) := by
  have word : space ∉ encode entry.1 := fun member => (plain.bytes member).1 rfl
  rw [DictProducer.dictLine, encodeEntry, List.append_assoc] at short ⊢
  rw [List.length_append, List.length_append, List.length_singleton] at short
  dsimp only at short
  rw [initDictInner_word word (by omega), List.nil_append, List.singleton_append,
    Dictionary.initDictInner, increment_eq_ok (by omega), ok_bind, if_pos rfl,
    initDictInner_number (space_notMem_decimalInt plain.positive.le) (by omega), List.nil_append]

theorem initDictLoop_dictLines {words : List (List Char × Int)}
    (plain : ∀ entry ∈ words, FileEntry entry)
    (short : ∀ entry ∈ words, (DictProducer.dictLine (encodeEntry entry)).length < 2 ^ 31)
    (dict : List (Bytes × Int)) :
    Dictionary.initDictLoop (words.map fun entry => DictProducer.dictLine (encodeEntry entry))
      dict = .ok (dict ++ words.map encodeEntry) := by
  induction words generalizing dict with
  | nil => simp [Dictionary.initDictLoop]
  | cons entry words inductionHypothesis =>
    have first := plain entry List.mem_cons_self
    have number : stoi ([] ++ Text.decimalInt entry.2) = .ok entry.2 :=
      stoi_decimalInt first.positive.le first.small (by simp)
    rw [List.nil_append] at number
    rw [List.map_cons, Dictionary.initDictLoop,
      initDictInner_dictLine first (short entry List.mem_cons_self), ok_bind]
    dsimp only
    rw [number, ok_bind, inductionHypothesis
      (fun other member => plain other (List.mem_cons_of_mem _ member))
      (fun other member => short other (List.mem_cons_of_mem _ member)), List.append_assoc,
      List.map_cons]
    rfl

/-- The lines of the dictionary file. -/
theorem lines_dictFile {words : List (List Char × Int)} (plain : ∀ entry ∈ words, FileEntry entry)
    (index : Index) :
    Text.lines newline (DictProducer.store (words.map encodeEntry) index).1 =
      words.map fun entry => DictProducer.dictLine (encodeEntry entry) := by
  have unbroken : ∀ line ∈ words.map fun entry => DictProducer.dictLine (encodeEntry entry),
      newline ∉ line := by
    intro line member
    obtain ⟨entry, among, rfl⟩ := List.mem_map.mp member
    have first := plain entry among
    simp only [DictProducer.dictLine, encodeEntry, List.mem_append, List.mem_singleton, not_or]
    exact ⟨⟨fun inside => (first.bytes inside).2.1 rfl, by decide⟩,
      newline_notMem_decimalInt entry.2⟩
  have file : (DictProducer.store (words.map encodeEntry) index).1 =
      (words.map fun entry => DictProducer.dictLine (encodeEntry entry)).flatMap
        fun line => line ++ [newline] := by
    rw [DictProducer.store]
    simp only [List.flatMap_map]
  rw [file, Text.lines_flatMap unbroken]

/-- The two files have no line that an `int` cannot count through. -/
structure ShortLines (files : Bytes × Bytes) : Prop where
  dict : ∀ line ∈ Text.lines newline files.1, line.length < 2 ^ 31
  index : ∀ line ∈ Text.lines newline files.2, line.length < 2 ^ 31

/-- `initDict` loads the dictionary that `store` wrote. -/
theorem initDict_store {words : List (List Char × Int)} (plain : ∀ entry ∈ words, FileEntry entry)
    {index : Index} (short : ∀ entry ∈ words,
      (DictProducer.dictLine (encodeEntry entry)).length < 2 ^ 31) :
    Dictionary.initDict (DictProducer.store (words.map encodeEntry) index).1 =
      .ok (words.map encodeEntry) := by
  rw [Dictionary.initDict, lines_dictFile plain, initDictLoop_dictLines plain short, List.nil_append]

/-! ### The index file -/

/-- A key of an index file: neither spaces nor digits. -/
def FileKey (key : Bytes) : Prop :=
  ∀ byte ∈ key, byte ≠ space ∧ byte ≠ newline ∧ Text.isDigit byte = false

/-- Positions that an `int` holds without a sign. -/
def FilePositions (positions : List Int) : Prop :=
  ∀ position ∈ positions, 0 ≤ position ∧ position < 2 ^ 31

theorem initIndexInner_key {key : Bytes} (plain : FileKey key) {i : Nat}
    (short : i + key.length < 2 ^ 31) (rest word num : Bytes) (index : Index) :
    Dictionary.initIndexInner i (key ++ rest) word num false index =
      Dictionary.initIndexInner (i + key.length) rest (word ++ key) num false index := by
  induction key generalizing i word with
  | nil => rw [List.nil_append, List.append_nil]; rfl
  | cons byte key inductionHypothesis =>
    rw [List.length_cons] at short
    obtain ⟨noSpace, -, noDigit⟩ := plain byte List.mem_cons_self
    rw [List.cons_append, Dictionary.initIndexInner]
    simp only [noSpace, decide_false, Bool.and_false, Bool.false_eq_true, if_false, pure_eq_ok,
      ok_bind, noDigit, Bool.or_false, Bool.not_false, if_true]
    rw [increment_eq_ok (by omega), ok_bind,
      inductionHypothesis (fun other member => plain other (List.mem_cons_of_mem _ member))
        (by omega),
      List.append_assoc, List.singleton_append, List.length_cons, Nat.add_right_comm, Nat.add_assoc]

/-- A digit ends the key. -/
theorem initIndexInner_flag {digit : UInt8} (isDigit : Text.isDigit digit = true) (i : Nat)
    (rest word num : Bytes) (index : Index) :
    Dictionary.initIndexInner i (digit :: rest) word num false index =
      Dictionary.initIndexInner i (digit :: rest) word num true index := by
  have noSpace : digit ≠ space := by
    rintro rfl
    exact absurd isDigit (by decide)
  rw [Dictionary.initIndexInner, Dictionary.initIndexInner]
  simp [noSpace, isDigit]

theorem initIndexInner_digits {digits : Bytes} (unbroken : space ∉ digits) {i : Nat}
    (short : i + digits.length < 2 ^ 31) (rest word num : Bytes) (index : Index) :
    Dictionary.initIndexInner i (digits ++ rest) word num true index =
      Dictionary.initIndexInner (i + digits.length) rest word (num ++ digits) true index := by
  induction digits generalizing i num with
  | nil => rw [List.nil_append, List.append_nil]; rfl
  | cons byte digits inductionHypothesis =>
    rw [List.length_cons] at short
    have different : byte ≠ space := fun same => unbroken (same ▸ List.mem_cons_self)
    rw [List.cons_append, Dictionary.initIndexInner]
    simp only [different, decide_false, Bool.and_false, Bool.false_eq_true, if_false, pure_eq_ok,
      ok_bind, Bool.true_or, Bool.not_true]
    rw [increment_eq_ok (by omega), ok_bind,
      inductionHypothesis (fun member => unbroken (List.mem_cons_of_mem _ member)) (by omega),
      List.append_assoc, List.singleton_append, List.length_cons, Nat.add_right_comm, Nat.add_assoc]

/-- The space behind a number inserts it, and stays in front of the next number. -/
theorem initIndexInner_space {i : Nat} (short : i + 1 < 2 ^ 31) (rest word num : Bytes)
    (index : Index) :
    Dictionary.initIndexInner i (space :: rest) word num true index =
      (stoi num >>= fun number =>
        Dictionary.initIndexInner (i + 1) rest word [space] true
          (insertPosition index word number)) := by
  rw [Dictionary.initIndexInner]
  simp only [Bool.not_true, Bool.false_and, Bool.false_eq_true, if_false, decide_true,
    Bool.and_self, if_true, Bool.true_or, pure_eq_ok, ok_bind, increment_eq_ok short]
  cases stoi num <;> rfl

/-- The numbers of a line, once the key has ended. -/
theorem initIndexInner_numbers {positions : List Int} (plain : FilePositions positions)
    (word : Bytes) {i : Nat}
    (short : i + (positions.flatMap fun position => Text.decimalInt position ++ [space]).length <
      2 ^ 31) {blanks : Bytes} (blank : ∀ byte ∈ blanks, byte = space) (index : Index) :
    Dictionary.initIndexInner i
      (positions.flatMap fun position => Text.decimalInt position ++ [space]) word blanks true
      index = .ok (insertAll (positions.map fun position => (word, position)) index) := by
  induction positions generalizing i blanks index with
  | nil => rfl
  | cons position positions inductionHypothesis =>
    obtain ⟨nonneg, small⟩ := plain position List.mem_cons_self
    have later : FilePositions positions :=
      fun other member => plain other (List.mem_cons_of_mem _ member)
    rw [List.flatMap_cons, List.append_assoc] at short ⊢
    rw [List.length_append, List.length_append, List.length_singleton] at short
    rw [initIndexInner_digits (space_notMem_decimalInt nonneg) (by omega), List.singleton_append,
      initIndexInner_space (by omega), stoi_decimalInt nonneg small blank, ok_bind,
      inductionHypothesis later (by omega) (by simp), List.map_cons]
    rfl

/-- The decoder of the index file inserts the positions of a line under its key. -/
theorem initIndexInner_indexLine {key : Bytes} (plain : FileKey key) {positions : List Int}
    (inside : FilePositions positions)
    (short : (DictProducer.indexLine key positions).length < 2 ^ 31) (index : Index) :
    Dictionary.initIndexInner 0 (DictProducer.indexLine key positions) [] [] false index =
      .ok (insertAll (positions.map fun position => (key, position)) index) := by
  rw [DictProducer.indexLine, List.append_assoc] at short ⊢
  rw [List.length_append, List.length_append, List.length_singleton] at short
  rw [initIndexInner_key plain (by omega), List.nil_append, List.singleton_append,
    Dictionary.initIndexInner, if_pos (by rfl), increment_eq_ok (by omega), ok_bind]
  cases positions with
  | nil => rfl
  | cons position positions =>
    obtain ⟨nonneg, -⟩ := inside position List.mem_cons_self
    have nonempty : Text.decimalInt position ≠ [] := by
      rw [decimalInt_of_nonneg nonneg]
      exact Text.decimal_ne_nil _
    obtain ⟨digit, digits, split⟩ := List.exists_cons_of_ne_nil nonempty
    have isDigit : Text.isDigit digit = true :=
      isDigit_of_mem_decimalInt nonneg (by rw [split]; exact List.mem_cons_self)
    have numbers := @initIndexInner_numbers _ inside key (0 + key.length + 1) (by omega) []
      (List.forall_mem_nil _) index
    rw [List.flatMap_cons, split, List.cons_append, List.cons_append] at numbers ⊢
    rw [initIndexInner_flag isDigit]
    exact numbers

/-- The pairs in the lines of the index file. -/
def filePairs (entries : List (Sigma fun _ : Bytes => List Int)) : List (Bytes × Int) :=
  entries.flatMap fun entry => entry.2.map fun position => (entry.1, position)

theorem initIndexLoop_indexLines {entries : List (Sigma fun _ : Bytes => List Int)}
    (plain : ∀ entry ∈ entries, FileKey entry.1 ∧ FilePositions entry.2)
    (short : ∀ entry ∈ entries, (DictProducer.indexLine entry.1 entry.2).length < 2 ^ 31)
    (index : Index) :
    Dictionary.initIndexLoop (entries.map fun entry => DictProducer.indexLine entry.1 entry.2)
      index = .ok (insertAll (filePairs entries) index) := by
  induction entries generalizing index with
  | nil => rfl
  | cons entry entries inductionHypothesis =>
    obtain ⟨key, positions⟩ := plain entry List.mem_cons_self
    have pairs : filePairs (entry :: entries) =
        (entry.2.map fun position => (entry.1, position)) ++ filePairs entries :=
      List.flatMap_cons
    rw [List.map_cons, Dictionary.initIndexLoop,
      initIndexInner_indexLine key positions (short entry List.mem_cons_self), ok_bind,
      inductionHypothesis (fun other member => plain other (List.mem_cons_of_mem _ member))
        (fun other member => short other (List.mem_cons_of_mem _ member)), pairs, insertAll_append]

theorem mem_filePairs_inKeyOrder (index : Index) (key : Bytes) (position : Int) :
    (key, position) ∈ filePairs (DictProducer.inKeyOrder index) ↔ position ∈ value index key := by
  have order : (DictProducer.inKeyOrder index).Perm index.entries := List.perm_insertionSort _ _
  rw [filePairs, List.mem_flatMap, value]
  constructor
  · rintro ⟨entry, member, among⟩
    obtain ⟨other, inside, same⟩ := List.mem_map.mp among
    obtain ⟨rfl, rfl⟩ := Prod.mk.inj same
    rw [AList.mem_lookup_iff.mpr (order.mem_iff.mp member)]
    exact inside
  · intro inside
    cases found : index.lookup key with
    | none =>
      rw [found] at inside
      exact absurd inside List.not_mem_nil
    | some positions =>
      rw [found] at inside
      exact ⟨⟨key, positions⟩, order.mem_iff.mpr (AList.mem_lookup_iff.mp found),
        List.mem_map_of_mem inside⟩

/-- The lines of the index file. -/
theorem lines_indexFile {index : Index} (keys : ∀ key ∈ index, FileKey key)
    (dict : List (Bytes × Int)) :
    Text.lines newline (DictProducer.store dict index).2 =
      (DictProducer.inKeyOrder index).map fun entry =>
        DictProducer.indexLine entry.1 entry.2 := by
  have order : (DictProducer.inKeyOrder index).Perm index.entries := List.perm_insertionSort _ _
  have unbroken : ∀ line ∈ (DictProducer.inKeyOrder index).map fun entry =>
      DictProducer.indexLine entry.1 entry.2, newline ∉ line := by
    intro line member
    obtain ⟨entry, among, rfl⟩ := List.mem_map.mp member
    have key := keys entry.1
      (AList.mem_keys.mpr (List.mem_keys_of_mem (order.mem_iff.mp among)))
    simp only [DictProducer.indexLine, List.mem_append, List.mem_singleton, List.mem_flatMap,
      not_or, not_exists, not_and]
    exact ⟨⟨fun inside => (key _ inside).2.1 rfl, by decide⟩, fun position _ =>
      ⟨newline_notMem_decimalInt position, by decide⟩⟩
  have file : (DictProducer.store dict index).2 =
      ((DictProducer.inKeyOrder index).map fun entry =>
        DictProducer.indexLine entry.1 entry.2).flatMap fun line => line ++ [newline] := by
    rw [DictProducer.store]
    simp only [List.flatMap_map]
  rw [file, Text.lines_flatMap unbroken]

/-- The keys of an index are characters of the words. -/
theorem fileKey_of_mem {words : List (List Char × Int)} (plain : ∀ entry ∈ words, FileEntry entry)
    {index : Index} (keys : ∀ key ∈ index, ∃ position, (key, position) ∈ indexPairs 0 words)
    {key : Bytes} (member : key ∈ index) : FileKey key := by
  intro byte inside
  obtain ⟨position, pair⟩ := keys key member
  obtain ⟨j, word, found, ⟨letter, letters, rfl⟩, -⟩ := (mem_indexPairs _ _ _ _).mp pair
  exact ((plain word (List.mem_of_getElem? found)).letters letter letters).bytes inside

/-- The index file of a dictionary of at most 2^31 words loads the index it was written from. -/
theorem initIndex_store {words : List (List Char × Int)} (plain : ∀ entry ∈ words, FileEntry entry)
    (size : words.length ≤ 2 ^ 31) {index : Index} (indexes : Indexes words index)
    (keys : ∀ key ∈ index, ∃ position, (key, position) ∈ indexPairs 0 words)
    (short : ShortLines (DictProducer.store (words.map encodeEntry) index)) :
    ∃ loaded, Dictionary.initIndex (DictProducer.store (words.map encodeEntry) index).2 =
      .ok loaded ∧ Indexes words loaded := by
  have order : (DictProducer.inKeyOrder index).Perm index.entries := List.perm_insertionSort _ _
  have lines : ∀ entry ∈ DictProducer.inKeyOrder index,
      FileKey entry.1 ∧ FilePositions entry.2 := by
    intro entry member
    have among := order.mem_iff.mp member
    refine ⟨fileKey_of_mem plain keys (AList.mem_keys.mpr (List.mem_keys_of_mem among)),
      fun position inside => ?_⟩
    have present : position ∈ value index entry.1 := by
      rw [value, AList.mem_lookup_iff.mpr among]
      exact inside
    obtain ⟨j, word, found, -, same⟩ := (mem_indexPairs _ _ _ _).mp ((indexes _ _).mp present)
    obtain ⟨below, -⟩ := List.getElem?_eq_some_iff.mp found
    rw [Nat.zero_add, toInt_of_lt (by omega)] at same
    omega
  refine ⟨insertAll (filePairs (DictProducer.inKeyOrder index)) ∅, ?_, fun key position => ?_⟩
  · have shortLines := short.index
    rw [lines_indexFile (fun key => fileKey_of_mem plain keys), List.forall_mem_map] at shortLines
    rw [Dictionary.initIndex, lines_indexFile (fun key => fileKey_of_mem plain keys),
      initIndexLoop_indexLines lines shortLines]
  · rw [mem_value_insertAll, mem_filePairs_inKeyOrder, value_empty, indexes]
    simp

/-- A dictionary of at most 2^31 words is loaded from the files that were written from it, if none
of their lines is too long. -/
theorem load_store {words : List (List Char × Int)} (plain : ∀ entry ∈ words, FileEntry entry)
    (size : words.length ≤ 2 ^ 31) :
    ∃ index, DictProducer.createIndex (words.map encodeEntry) = .ok index ∧
      (ShortLines (DictProducer.store (words.map encodeEntry) index) →
        ∃ loaded, Dictionary.load (DictProducer.store (words.map encodeEntry) index) =
          .ok ⟨words.map encodeEntry, loaded⟩ ∧ Indexes words loaded) := by
  obtain ⟨index, created, indexes, keys⟩ := createIndex_spec words
  refine ⟨index, created, fun short => ?_⟩
  obtain ⟨loaded, ended, loadedIndexes⟩ := initIndex_store plain size indexes keys short
  have shortLines := short.dict
  rw [lines_dictFile plain, List.forall_mem_map] at shortLines
  refine ⟨loaded, ?_, loadedIndexes⟩
  rw [Dictionary.load, initDict_store plain shortLines, ok_bind, ended, ok_bind, pure_eq_ok]

end SearchEngine
