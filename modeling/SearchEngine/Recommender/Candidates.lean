/-
This file determines the candidates of a dictionary query.

An index has the positions of the words under their characters. The loop of the
query looks every character up and pushes the words at the positions it finds,
so the candidates are the words that share a character with the query. The
lookups insert empty sets into the index, which later lookups do not see.
-/

import SearchEngine.Recommender.IndexFiles
import SearchEngine.Recommender.Lookups

namespace SearchEngine

open Containers Utf8

/-! ### Characters -/

theorem splitSoughtLoop_encode (text : List Char) {rounds : Nat}
    (enough : (encode text).length ≤ rounds) (ret : List Bytes) :
    Dictionary.splitSoughtLoop rounds (encode text) ret =
      .ok (ret ++ text.map String.utf8EncodeChar) := by
  induction text generalizing rounds ret with
  | nil =>
    rw [List.map_nil, List.append_nil]
    cases rounds with
    | zero => rfl
    | succ rounds => rw [Dictionary.splitSoughtLoop, encode_nil, if_pos rfl]
  | cons letter text inductionHypothesis =>
    have nonempty := String.utf8EncodeChar_ne_nil (c := letter)
    obtain ⟨fewer, rfl, left⟩ := rounds_of_encode_cons enough
    rw [encode_cons, Dictionary.splitSoughtLoop, if_neg (by simp [nonempty]), cut_utf8EncodeChar,
      ok_bind]
    dsimp only
    rw [inductionHypothesis left, List.append_assoc, List.map_cons]
    rfl

/-- `splitSought` cuts a valid string into its characters. -/
theorem splitSought_encode (text : List Char) :
    Dictionary.splitSought (encode text) = .ok (text.map String.utf8EncodeChar) :=
  splitSoughtLoop_encode text (le_refl _) []

/-! ### What a query pushes -/

/-- One candidate is pushed for each position. -/
theorem map_pushPositions {dict : List (Bytes × Int)} {sought : Bytes} {positions : List Int}
    {pushed : List CandidateResult}
    (pushes : Dictionary.pushPositions dict sought positions = .ok pushed) :
    positions.map (Dictionary.candidateAt dict sought) = pushed.map .ok := by
  induction positions generalizing pushed with
  | nil =>
    obtain rfl := Except.ok.inj pushes
    rfl
  | cons position positions inductionHypothesis =>
    obtain ⟨candidate, found, pushes⟩ := bind_eq_ok.mp pushes
    obtain ⟨later, laterPushes, pushes⟩ := bind_eq_ok.mp pushes
    obtain rfl := Except.ok.inj pushes
    rw [List.map_cons, List.map_cons, found, inductionHypothesis laterPushes]

/-- One candidate is pushed for each position under each character. -/
theorem map_pushCandidates {dictionary : Dictionary} {sought : Bytes} {letters : List Bytes}
    {pushed : List CandidateResult}
    (pushes : (Dictionary.pushCandidates sought dictionary letters).2 = .ok pushed) :
    (letters.flatMap (value dictionary.index)).map
      (Dictionary.candidateAt dictionary.dict sought) = pushed.map .ok := by
  induction letters generalizing dictionary pushed with
  | nil =>
    obtain rfl := Except.ok.inj pushes
    rfl
  | cons letter letters inductionHypothesis =>
    rw [Dictionary.pushCandidates] at pushes
    dsimp only at pushes
    cases first : Dictionary.pushPositions dictionary.dict sought
        (subscript dictionary.index letter).2 with
    | error fault => rw [first] at pushes; cases pushes
    | ok front =>
      rw [first] at pushes
      obtain ⟨later, laterPushes, rfl⟩ := map_eq_ok.mp pushes
      have rest := inductionHypothesis laterPushes
      dsimp only at rest
      rw [value_subscript] at rest
      rw [subscript_snd] at first
      rw [List.flatMap_cons, List.map_append, map_pushPositions first, rest, List.map_append]

theorem candidateAt_eq_ok_iff {dict : List (Bytes × Int)} {sought : Bytes} {position : Int}
    {candidate : CandidateResult} :
    Dictionary.candidateAt dict sought position = .ok candidate ↔
      Dictionary.entryAt dict position = .ok (candidate.word, candidate.fre) ∧
        MinEditDist.editDistance sought candidate.word = .ok candidate.dis := by
  rw [Dictionary.candidateAt]
  constructor
  · intro found
    obtain ⟨⟨word, fre⟩, read, found⟩ := bind_eq_ok.mp found
    obtain ⟨dis, measured, found⟩ := bind_eq_ok.mp found
    obtain rfl := Except.ok.inj found
    exact ⟨read, measured⟩
  · rintro ⟨read, measured⟩
    rw [read, ok_bind]
    dsimp only
    rw [measured, ok_bind]
    rfl

/-! ### Candidates -/

/-- The candidate for a word. -/
def candidateOf (sought : List Char) (entry : List Char × Int) : CandidateResult :=
  ⟨encode entry.1, entry.2, EditDistance.distance sought entry.1⟩

theorem candidateAt_encode {words : List (List Char × Int)} (sought : List Char) {j : Nat}
    {entry : List Char × Int} (found : words[j]? = some entry) :
    Dictionary.candidateAt (words.map encodeEntry) (encode sought) (j : Int) =
      .ok (candidateOf sought entry) := by
  have stored : Dictionary.entryAt (words.map encodeEntry) (j : Int) = .ok (encodeEntry entry) := by
    rw [Dictionary.entryAt, if_pos (Int.natCast_nonneg j), Int.toNat_natCast, List.getElem?_map,
      found]
    rfl
  rw [Dictionary.candidateAt, stored, ok_bind]
  dsimp only [encodeEntry]
  rw [MinEditDist.editDistance_encode, ok_bind]
  rfl

/-- Positions of words. -/
def Positions (words : List (List Char × Int)) (positions : List Int) : Prop :=
  ∀ position ∈ positions, ∃ (j : Nat) (entry : List Char × Int),
    words[j]? = some entry ∧ position = j

/-- The loop over positions pushes the words there. -/
theorem pushPositions_spec {words : List (List Char × Int)} (sought : List Char)
    {positions : List Int} (inside : Positions words positions) :
    ∃ pushed, Dictionary.pushPositions (words.map encodeEntry) (encode sought) positions =
        .ok pushed ∧
      ∀ candidate, candidate ∈ pushed ↔ ∃ (j : Nat) (entry : List Char × Int),
        (j : Int) ∈ positions ∧ words[j]? = some entry ∧ candidate = candidateOf sought entry := by
  induction positions with
  | nil => exact ⟨[], rfl, by simp⟩
  | cons position positions inductionHypothesis =>
    obtain ⟨pushed, ended, members⟩ :=
      inductionHypothesis fun other member => inside other (List.mem_cons_of_mem _ member)
    obtain ⟨j, entry, found, rfl⟩ := inside position List.mem_cons_self
    refine ⟨candidateOf sought entry :: pushed, ?_, fun candidate => ?_⟩
    · rw [Dictionary.pushPositions, candidateAt_encode sought found, ok_bind, ended, ok_bind,
        pure_eq_ok]
    · rw [List.mem_cons, members]
      constructor
      · rintro (rfl | ⟨k, other, member, otherFound, same⟩)
        · exact ⟨j, entry, List.mem_cons_self, found, rfl⟩
        · exact ⟨k, other, List.mem_cons_of_mem _ member, otherFound, same⟩
      · rintro ⟨k, other, member, otherFound, same⟩
        rcases List.mem_cons.mp member with first | later
        · obtain rfl := Int.natCast_inj.mp first
          obtain rfl := Option.some.inj (found.symm.trans otherFound)
          exact Or.inl same
        · exact Or.inr ⟨k, other, later, otherFound, same⟩

/-- An index over at most 2^31 words has the word at position `j` under each of its characters. -/
theorem Indexes.mem_value_iff {words : List (List Char × Int)} {index : Index}
    (indexes : Indexes words index) (size : words.length ≤ 2 ^ 31) (letter : Char)
    (position : Int) :
    position ∈ value index (String.utf8EncodeChar letter) ↔
      ∃ (j : Nat) (entry : List Char × Int), words[j]? = some entry ∧ letter ∈ entry.1 ∧
        position = j := by
  rw [indexes, mem_indexPairs]
  have small {j : Nat} {entry : List Char × Int} (found : words[j]? = some entry) :
      toInt (0 + j) = j := by
    obtain ⟨below, -⟩ := List.getElem?_eq_some_iff.mp found
    rw [Nat.zero_add, toInt_of_lt (by omega)]
  constructor
  · rintro ⟨j, entry, found, ⟨other, member, same⟩, position_eq⟩
    rw [small found] at position_eq
    rw [utf8EncodeChar_injective same]
    exact ⟨j, entry, found, member, position_eq⟩
  · rintro ⟨j, entry, found, member, position_eq⟩
    refine ⟨j, entry, found, ⟨letter, member, rfl⟩, ?_⟩
    rw [small found]
    exact position_eq

/-- The loop over characters pushes the words that contain one of them. -/
theorem pushCandidates_spec {words : List (List Char × Int)} (size : words.length ≤ 2 ^ 31)
    (sought letters : List Char) {dictionary : Dictionary}
    (dict : dictionary.dict = words.map encodeEntry) (indexes : Indexes words dictionary.index) :
    ∃ next pushed, Dictionary.pushCandidates (encode sought) dictionary
        (letters.map String.utf8EncodeChar) = (next, .ok pushed) ∧
      next.ReadsAs dictionary ∧
      ∀ candidate, candidate ∈ pushed ↔ ∃ entry ∈ words, (∃ letter ∈ letters, letter ∈ entry.1) ∧
        candidate = candidateOf sought entry := by
  induction letters generalizing dictionary with
  | nil => exact ⟨dictionary, [], rfl, ⟨rfl, rfl⟩, by simp⟩
  | cons letter letters inductionHypothesis =>
    have reads := dictionary.readsAs_subscript (String.utf8EncodeChar letter)
    have laterIndexes : Indexes words
        (subscript dictionary.index (String.utf8EncodeChar letter)).1 := by
      intro key position
      rw [value_subscript]
      exact indexes key position
    obtain ⟨next, later, laterEnded, nextReads, laterMembers⟩ := inductionHypothesis
      (show ({ dictionary with index := (subscript dictionary.index
        (String.utf8EncodeChar letter)).1 } : Dictionary).dict = _ from dict) laterIndexes
    have inside : Positions words (value dictionary.index (String.utf8EncodeChar letter)) := by
      intro position member
      obtain ⟨j, entry, found, -, same⟩ := (indexes.mem_value_iff size letter position).mp member
      exact ⟨j, entry, found, same⟩
    obtain ⟨pushed, ended, members⟩ := pushPositions_spec sought inside
    refine ⟨next, pushed ++ later, ?_, nextReads.trans reads, fun candidate => ?_⟩
    · rw [List.map_cons, Dictionary.pushCandidates]
      dsimp only
      rw [subscript_snd, dict, ended]
      dsimp only
      rw [← dict, laterEnded]
      rfl
    · rw [List.mem_append, members, laterMembers]
      constructor
      · rintro (⟨j, entry, member, found, same⟩ | ⟨entry, member, ⟨other, among, shared⟩, same⟩)
        · obtain ⟨k, other, otherFound, shared, position⟩ :=
            (indexes.mem_value_iff size letter j).mp member
          obtain rfl := Int.natCast_inj.mp position
          obtain rfl := Option.some.inj (found.symm.trans otherFound)
          exact ⟨entry, List.mem_of_getElem? found, ⟨letter, List.mem_cons_self, shared⟩, same⟩
        · exact ⟨entry, member, ⟨other, List.mem_cons_of_mem _ among, shared⟩, same⟩
      · rintro ⟨entry, member, ⟨other, among, shared⟩, same⟩
        rcases List.mem_cons.mp among with rfl | further
        · obtain ⟨j, found⟩ := List.getElem?_of_mem member
          exact Or.inl ⟨j, entry, (indexes.mem_value_iff size other j).mpr
            ⟨j, entry, found, shared, rfl⟩, found, same⟩
        · exact Or.inr ⟨entry, member, ⟨other, further, shared⟩, same⟩

/-- The candidates of a query are the words that share a character with it. -/
theorem candidates_spec {words : List (List Char × Int)} (size : words.length ≤ 2 ^ 31)
    (sought : List Char) {dictionary : Dictionary}
    (dict : dictionary.dict = words.map encodeEntry) (indexes : Indexes words dictionary.index) :
    ∃ next pushed, dictionary.candidates (encode sought) = (next, .ok pushed) ∧
      next.ReadsAs dictionary ∧
      ∀ candidate, candidate ∈ pushed ↔ ∃ entry ∈ words, (∃ letter ∈ sought, letter ∈ entry.1) ∧
        candidate = candidateOf sought entry := by
  obtain ⟨next, pushed, ended, reads, members⟩ :=
    pushCandidates_spec size sought sought dict indexes
  refine ⟨next, pushed, ?_, reads, members⟩
  rw [Dictionary.candidates, splitSought_encode]
  exact ended

/-! ### The pipeline -/

/-- From the words through the files to a query: the candidates are exactly the words that share a
character with the query, with their frequencies, and no position is outside the dictionary. -/
theorem pipeline_candidates {words : List (List Char × Int)}
    (plain : ∀ entry ∈ words, FileEntry entry) (size : words.length ≤ 2 ^ 31) :
    ∃ index, DictProducer.createIndex (words.map encodeEntry) = .ok index ∧
      (ShortLines (DictProducer.store (words.map encodeEntry) index) →
        ∃ dictionary,
          Dictionary.load (DictProducer.store (words.map encodeEntry) index) = .ok dictionary ∧
          ∀ sought : List Char, ∃ next pushed,
            dictionary.candidates (encode sought) = (next, .ok pushed) ∧
            ∀ word fre, (∃ candidate ∈ pushed, candidate.word = word ∧ candidate.fre = fre) ↔
              ∃ entry ∈ words, encodeEntry entry = (word, fre) ∧
                ∃ letter ∈ sought, letter ∈ entry.1) := by
  obtain ⟨index, created, loads⟩ := load_store plain size
  refine ⟨index, created, fun short => ?_⟩
  obtain ⟨loaded, ended, indexes⟩ := loads short
  refine ⟨_, ended, fun sought => ?_⟩
  obtain ⟨next, pushed, queried, -, members⟩ := candidates_spec size sought
    (show (⟨words.map encodeEntry, loaded⟩ : Dictionary).dict = _ from rfl) indexes
  refine ⟨next, pushed, queried, fun word fre => ?_⟩
  constructor
  · rintro ⟨candidate, member, rfl, rfl⟩
    obtain ⟨entry, among, shared, rfl⟩ := (members candidate).mp member
    exact ⟨entry, among, rfl, shared⟩
  · rintro ⟨entry, among, same, shared⟩
    obtain ⟨rfl, rfl⟩ := Prod.mk.inj same
    exact ⟨candidateOf sought entry, (members _).mpr ⟨entry, among, shared, rfl⟩, rfl, rfl⟩

/-- A dictionary of two words with the character `b`, and one without it. -/
def sampleWords : List (List Char × Int) := [(['a', 'b'], 3), (['c'], 2), (['b'], 1)]

theorem fileEntry_sampleWords : ∀ entry ∈ sampleWords, FileEntry entry := by
  intro entry member
  rcases List.mem_cons.mp member with rfl | member
  · exact ⟨by simp [FileLetter], by norm_num, by norm_num⟩
  · rcases List.mem_pair.mp member with rfl | rfl
    · exact ⟨by simp [FileLetter], by norm_num, by norm_num⟩
    · exact ⟨by simp [FileLetter], by norm_num, by norm_num⟩

theorem pipeline_candidates_sample :
    ∃ index dictionary, DictProducer.createIndex (sampleWords.map encodeEntry) = .ok index ∧
      Dictionary.load (DictProducer.store (sampleWords.map encodeEntry) index) = .ok dictionary ∧
      ∀ sought : List Char, ∃ next pushed,
        dictionary.candidates (encode sought) = (next, .ok pushed) ∧
        ∀ word fre, (∃ candidate ∈ pushed, candidate.word = word ∧ candidate.fre = fre) ↔
          ∃ entry ∈ sampleWords, encodeEntry entry = (word, fre) ∧
            ∃ letter ∈ sought, letter ∈ entry.1 := by
  obtain ⟨index, created, loads⟩ := pipeline_candidates fileEntry_sampleWords (by decide)
  have short : ∀ built, DictProducer.createIndex (sampleWords.map encodeEntry) = .ok built →
      ShortLines (DictProducer.store (sampleWords.map encodeEntry) built) := by
    intro built creates
    obtain rfl := Except.ok.inj creates
    exact ⟨by decide +kernel, by decide +kernel⟩
  obtain ⟨dictionary, loaded⟩ := loads (short index created)
  exact ⟨index, dictionary, created, loaded⟩

/-! ### A position that an `int` does not hold -/

/-- One of the 2^16 characters from U+10000 on. -/
def supplementary (number : Nat) : Char := Char.ofNat (2 ^ 16 + number % 2 ^ 16)

theorem toNat_supplementary (number : Nat) :
    (supplementary number).toNat = 2 ^ 16 + number % 2 ^ 16 := by
  have isChar : (2 ^ 16 + number % 2 ^ 16).isValidChar := by
    rw [Nat.isValidChar]
    omega
  rw [supplementary, Char.toNat_ofNat, if_pos isChar]

theorem supplementary_ne_b (number : Nat) : supplementary number ≠ 'b' := by
  intro same
  have value := congrArg Char.toNat same
  rw [toNat_supplementary, show 'b'.toNat = 98 from rfl] at value
  omega

/-- The two characters that a number below 2^32 stands for. -/
def supplementaryPair (number : Nat) : List Char :=
  [supplementary (number / 2 ^ 16), supplementary number]

theorem supplementaryPair_inj {first second : Nat} (small : first < 2 ^ 32)
    (otherSmall : second < 2 ^ 32) (same : supplementaryPair first = supplementaryPair second) :
    first = second := by
  rw [supplementaryPair, supplementaryPair, List.cons.injEq, List.cons.injEq] at same
  have high := congrArg Char.toNat same.1
  have low := congrArg Char.toNat same.2.1
  rw [toNat_supplementary, toNat_supplementary] at high low
  omega

/-- As many words of two characters as asked for, and then the word `b`. -/
def wordsBeforeB (count : Nat) : List (List Char × Int) :=
  (List.range count).map (fun i => (supplementaryPair i, 1)) ++ [(['b'], 1)]

theorem mem_wordsBeforeB {count : Nat} {entry : List Char × Int}
    (member : entry ∈ wordsBeforeB count) :
    (∃ i < count, entry = (supplementaryPair i, 1)) ∨ entry = (['b'], 1) := by
  rcases List.mem_append.mp member with many | last
  · obtain ⟨i, below, rfl⟩ := List.mem_map.mp many
    exact Or.inl ⟨i, List.mem_range.mp below, rfl⟩
  · exact Or.inr (List.mem_singleton.mp last)

theorem letter_wordsBeforeB {count : Nat} {entry : List Char × Int}
    (member : entry ∈ wordsBeforeB count) {letter : Char} (inside : letter ∈ entry.1) :
    letter = 'b' ∨ 0x80 ≤ letter.toNat := by
  rcases mem_wordsBeforeB member with ⟨i, -, rfl⟩ | rfl
  · refine Or.inr ?_
    rcases List.mem_pair.mp inside with rfl | rfl
    · rw [toNat_supplementary]
      omega
    · rw [toNat_supplementary]
      omega
  · exact Or.inl (List.mem_singleton.mp inside)

theorem fileEntry_wordsBeforeB (count : Nat) : ∀ entry ∈ wordsBeforeB count, FileEntry entry := by
  intro entry member
  have one : entry.2 = 1 := by
    rcases mem_wordsBeforeB member with ⟨i, -, rfl⟩ | rfl <;> rfl
  refine ⟨fun letter inside => ?_, by rw [one]; norm_num, by rw [one]; norm_num⟩
  rcases letter_wordsBeforeB member inside with rfl | large
  · simp [FileLetter]
  · exact fileLetter_of_large large

theorem length_wordsBeforeB {count : Nat} {entry : List Char × Int}
    (member : entry ∈ wordsBeforeB count) : 0 < entry.1.length ∧ entry.1.length ≤ 2 := by
  rcases mem_wordsBeforeB member with ⟨i, -, rfl⟩ | rfl
  · exact ⟨Nat.two_pos, le_rfl⟩
  · exact ⟨Nat.one_pos, by decide⟩

theorem nodup_wordsBeforeB {count : Nat} (small : count ≤ 2 ^ 32) :
    ((wordsBeforeB count).map Prod.fst).Nodup := by
  rw [wordsBeforeB, List.map_append, List.map_map]
  refine List.Nodup.append (List.Nodup.map_on (fun first among second other same => ?_)
    List.nodup_range) (List.nodup_singleton _) ?_
  · rw [List.mem_range] at among other
    exact supplementaryPair_inj (by omega) (by omega) same
  · intro word many last
    obtain ⟨i, -, rfl⟩ := List.mem_map.mp many
    have letters : supplementaryPair i = ['b'] := List.mem_singleton.mp last
    exact supplementary_ne_b _ (List.cons.inj letters).1

/-- The character `b` is in the last word only. -/
theorem mem_indexPairs_wordsBeforeB (count : Nat) (position : Int) :
    (String.utf8EncodeChar 'b', position) ∈ indexPairs 0 (wordsBeforeB count) ↔
      position = toInt count := by
  have length : ((List.range count).map
      (fun i => (supplementaryPair i, (1 : Int)))).length = count := by simp
  rw [mem_indexPairs]
  constructor
  · rintro ⟨j, entry, found, ⟨letter, member, same⟩, position_eq⟩
    obtain rfl := utf8EncodeChar_injective same
    rcases Nat.lt_or_ge j count with early | late
    · rw [wordsBeforeB, List.getElem?_append_left (by omega), List.getElem?_map,
        List.getElem?_range early] at found
      obtain rfl := Option.some.inj found
      rcases List.mem_pair.mp member with isFirst | isSecond
      · exact absurd isFirst.symm (supplementary_ne_b _)
      · exact absurd isSecond.symm (supplementary_ne_b _)
    · obtain ⟨below, -⟩ := List.getElem?_eq_some_iff.mp found
      rw [wordsBeforeB, List.length_append, length, List.length_singleton] at below
      have last : 0 + j = count := by omega
      rw [position_eq, last]
  · intro same
    refine ⟨count, (['b'], 1), ?_, ⟨'b', List.mem_singleton_self _, rfl⟩, by rw [same, Nat.zero_add]⟩
    rw [wordsBeforeB, List.getElem?_append_right (by omega), length, Nat.sub_self]
    rfl

/-- No line of the dictionary file is long. -/
theorem length_dictLine_wordsBeforeB {count : Nat} {entry : List Char × Int}
    (member : entry ∈ wordsBeforeB count) :
    (DictProducer.dictLine (encodeEntry entry)).length ≤ 10 := by
  have character (letter : Char) : (String.utf8EncodeChar letter).length ≤ 4 := by
    rw [String.length_utf8EncodeChar]
    exact letter.utf8Size_le_four
  rcases mem_wordsBeforeB member with ⟨i, -, rfl⟩ | rfl
  · have first := character (supplementary (i / 2 ^ 16))
    have second := character (supplementary i)
    rw [DictProducer.dictLine, encodeEntry, supplementaryPair, encode_cons, encode_cons, encode_nil,
      List.append_nil, List.length_append, List.length_append, List.length_append,
      show ([space] : Bytes).length = 1 from rfl, show (Text.decimalInt 1).length = 1 from rfl]
    omega
  · decide

theorem stoi_decimal_of_large {number : Nat} (large : 2 ^ 31 ≤ number) :
    stoi (Text.decimal number) = .error .outOfRange := by
  have scanned := Text.scanInt_decimal (List.forall_mem_nil _) number
  rw [List.nil_append] at scanned
  have outside : ¬ (-2 ^ 31 ≤ (number : Int) ∧ (number : Int) < 2 ^ 31) := by omega
  rw [stoi, scanned, orFault_some, ok_bind, if_neg outside]

/-- The decoder takes the sign of a negative position for a part of the key. -/
theorem initIndexInner_negative (positions : List Int) (index : Index) :
    Dictionary.initIndexInner 0
      (DictProducer.indexLine (String.utf8EncodeChar 'b') (-2147483648 :: positions)) [] [] false
      index = .error .outOfRange := by
  have key : FileKey (String.utf8EncodeChar 'b') := by
    intro byte member
    exact (show FileLetter 'b' by simp [FileLetter]).bytes member
  have sign : FileKey [45] := by
    intro byte member
    rw [List.mem_singleton] at member
    rw [member]
    decide
  have number : Text.decimalInt (-2147483648) = [45] ++ Text.decimal 2147483648 := rfl
  obtain ⟨digit, digits, split⟩ := List.exists_cons_of_ne_nil (Text.decimal_ne_nil 2147483648)
  have isDigit : Text.isDigit digit = true :=
    Text.isDigit_of_mem_decimal (show digit ∈ Text.decimal 2147483648 by
      rw [split]; exact List.mem_cons_self)
  have unbroken : space ∉ Text.decimal 2147483648 :=
    fun member => absurd (Text.isDigit_of_mem_decimal member) (by decide)
  have length : (Text.decimal 2147483648).length = 10 := by decide +kernel
  have keyLength : (String.utf8EncodeChar 'b').length = 1 := rfl
  rw [DictProducer.indexLine, List.append_assoc, initIndexInner_key key (by rw [keyLength]; norm_num),
    List.nil_append, List.singleton_append, Dictionary.initIndexInner, if_pos (by rfl),
    increment_eq_ok (by rw [keyLength]; norm_num), ok_bind, List.flatMap_cons, number,
    List.append_assoc, List.append_assoc,
    initIndexInner_key sign (by rw [keyLength, List.length_singleton]; norm_num)]
  have flagged (rest : Bytes) := initIndexInner_flag isDigit
    (0 + (String.utf8EncodeChar 'b').length + 1 + ([45] : Bytes).length) (digits ++ rest)
    (String.utf8EncodeChar 'b' ++ [45]) [] index
  simp only [← List.cons_append, ← split] at flagged
  rw [flagged, initIndexInner_digits unbroken
      (by rw [keyLength, List.length_singleton, length]; norm_num), List.nil_append,
    List.singleton_append,
    initIndexInner_space (by rw [keyLength, List.length_singleton, length]; norm_num),
    stoi_decimal_of_large (by norm_num), error_bind]

/-- A character behind ASCII comes behind `b` in the order of the keys. -/
theorem not_le_of_large {letter : Char} (large : 0x80 ≤ letter.toNat) {key : Bytes}
    (spelled : key = String.utf8EncodeChar letter) :
    ¬ key.map UInt8.toNat ≤ (String.utf8EncodeChar 'b').map UInt8.toNat := by
  obtain ⟨byte, bytes, split⟩ := List.exists_cons_of_ne_nil (String.utf8EncodeChar_ne_nil (c := letter))
  have lead : 0x80 ≤ byte.toNat := by
    by_contra ascii
    have value := utf8EncodeChar_of_ascii (show byte ∈ String.utf8EncodeChar letter by
      rw [split]; exact List.mem_cons_self) (Nat.lt_of_not_le ascii)
    omega
  rw [spelled, split, not_le]
  exact List.Lex.rel (show (98 : UInt8).toNat < byte.toNat from lt_of_lt_of_le (by decide) lead)

/-- The line of the character `b` is the first one of the index file. -/
theorem inKeyOrder_wordsBeforeB {count : Nat} {index : Index}
    (indexes : Indexes (wordsBeforeB count) index)
    (keys : ∀ key ∈ index, ∃ position, (key, position) ∈ indexPairs 0 (wordsBeforeB count)) :
    ∃ positions rest, DictProducer.inKeyOrder index =
      ⟨String.utf8EncodeChar 'b', toInt count :: positions⟩ :: rest := by
  have order : (DictProducer.inKeyOrder index).Perm index.entries := List.perm_insertionSort _ _
  have total : Std.Total fun first second : Sigma fun _ : Bytes => List Int =>
      first.1.map UInt8.toNat ≤ second.1.map UInt8.toNat := ⟨fun _ _ => le_total _ _⟩
  have trans : IsTrans _ fun first second : Sigma fun _ : Bytes => List Int =>
      first.1.map UInt8.toNat ≤ second.1.map UInt8.toNat := ⟨fun _ _ _ => le_trans⟩
  have sorted : (DictProducer.inKeyOrder index).Pairwise fun first second =>
      first.1.map UInt8.toNat ≤ second.1.map UInt8.toNat := List.pairwise_insertionSort _ _
  have positions (position : Int) : position ∈ value index (String.utf8EncodeChar 'b') ↔
      position = toInt count := by
    rw [indexes, mem_indexPairs_wordsBeforeB]
  -- the set of positions of `b`
  obtain ⟨set, found⟩ : ∃ set, index.lookup (String.utf8EncodeChar 'b') = some set := by
    refine Option.ne_none_iff_exists'.mp fun missing => ?_
    have member := (positions (toInt count)).mpr rfl
    rw [value, missing] at member
    exact absurd member List.not_mem_nil
  have value_eq : value index (String.utf8EncodeChar 'b') = set := by
    rw [value, found]
    rfl
  rw [value_eq] at positions
  obtain ⟨first, more, rfl⟩ := List.exists_cons_of_ne_nil
    (List.ne_nil_of_mem ((positions _).mpr rfl))
  rw [(positions first).mp List.mem_cons_self] at found
  -- every other key is a character of four bytes
  have listed := order.mem_iff.mpr (AList.mem_lookup_iff.mp found)
  cases sort : DictProducer.inKeyOrder index with
  | nil =>
    rw [sort] at listed
    exact absurd listed List.not_mem_nil
  | cons entry rest =>
    have among : entry ∈ index.entries :=
      order.mem_iff.mp (by rw [sort]; exact List.mem_cons_self)
    have isB : entry.1 = String.utf8EncodeChar 'b' := by
      rw [sort] at listed sorted
      rcases List.mem_cons.mp listed with same | later
      · rw [← same]
      · have before := List.rel_of_pairwise_cons sorted later
        obtain ⟨position, pair⟩ := keys entry.1 (AList.mem_keys.mpr (List.mem_keys_of_mem among))
        obtain ⟨j, word, isWord, ⟨letter, letters, same⟩, -⟩ := (mem_indexPairs _ _ _ _).mp pair
        rcases letter_wordsBeforeB (List.mem_of_getElem? isWord) letters with rfl | large
        · exact same
        · exact absurd before (not_le_of_large large same)
    have unique : index.lookup entry.1 = some entry.2 := AList.mem_lookup_iff.mpr among
    rw [isB, found] at unique
    exact ⟨more, rest, congrArg (· :: rest) (Sigma.ext isB (by rw [← Option.some.inj unique]))⟩

/-- The files of a dictionary of 2^31 + 1 words cannot be loaded: the last position is stored as a
negative `int`. -/
theorem pipeline_negative_position :
    ∃ words : List (List Char × Int), (words.map Prod.fst).Nodup ∧
      (∀ entry ∈ words, 0 < entry.1.length ∧ entry.1.length ≤ 2 ∧ FileEntry entry) ∧
      ∃ index, DictProducer.createIndex (words.map encodeEntry) = .ok index ∧
        Dictionary.load (DictProducer.store (words.map encodeEntry) index) =
          .error .outOfRange := by
  obtain ⟨count, isLarge⟩ : ∃ count, count = 2 ^ 31 := ⟨_, rfl⟩
  obtain ⟨index, created, indexes, keys⟩ := createIndex_spec (wordsBeforeB count)
  have plain := fileEntry_wordsBeforeB count
  refine ⟨wordsBeforeB count, nodup_wordsBeforeB (by omega), fun entry member =>
    ⟨(length_wordsBeforeB member).1, (length_wordsBeforeB member).2, plain entry member⟩, index,
    created, ?_⟩
  have short : ∀ entry ∈ wordsBeforeB count,
      (DictProducer.dictLine (encodeEntry entry)).length < 2 ^ 31 := fun entry member =>
    (length_dictLine_wordsBeforeB member).trans_lt (by norm_num)
  obtain ⟨positions, rest, lines⟩ := inKeyOrder_wordsBeforeB indexes keys
  rw [isLarge, toInt_two_pow] at lines
  rw [Dictionary.load, initDict_store plain short, ok_bind, Dictionary.initIndex,
    lines_indexFile (fun key => fileKey_of_mem plain keys), lines, List.map_cons,
    Dictionary.initIndexLoop, initIndexInner_negative, error_bind, error_bind]

end SearchEngine
