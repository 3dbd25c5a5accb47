/-
This file proves that the word chain of the dictionary is correct.

`getSolitaireKeys` takes the last character of its key as bytes, and a word is
chained where it begins with these bytes. A character is not the beginning of
another one's encoding, so this means that the first character of the word is the
last one of the key. The comparison does not ask how long the word is: it reads
the NUL behind a word that ends within the character, which differs from the
byte of the character.
-/

import SearchEngine.Recommender.CharacterWalk

namespace SearchEngine

open Utf8 Widths

/-! ### Characters as beginnings -/

/-- A string of characters begins with the bytes of a character exactly when this is its first
character. -/
theorem utf8EncodeChar_isPrefix_iff {letter : Char} {text : List Char} :
    String.utf8EncodeChar letter <+: encode text ↔ text.head? = some letter := by
  constructor
  · rintro ⟨rest, same⟩
    cases text with
    | nil => exact absurd same (by simp [String.utf8EncodeChar_ne_nil])
    | cons first text =>
      have read := cut_utf8EncodeChar letter rest
      rw [same, encode_cons, cut_utf8EncodeChar] at read
      have bytes := (Prod.mk.inj (Except.ok.inj read)).1
      rw [List.head?_cons, utf8EncodeChar_injective bytes]
  · intro first
    obtain ⟨rest, rfl⟩ := List.head?_eq_some_iff.mp first
    exact List.prefix_append _ _

/-- Only NUL has a byte that is zero. -/
theorem zero_notMem_utf8EncodeChar {letter : Char} (notNul : letter.toNat ≠ 0) :
    (0 : UInt8) ∉ String.utf8EncodeChar letter :=
  fun member => notNul (utf8EncodeChar_of_ascii member (by decide)).symm

namespace Dictionary

/-! ### The comparison -/

/-- The comparison with bytes other than NUL stays inside the word and its NUL, and tells whether the
word begins with them. -/
theorem startsWithLoop_eq {cur_key key_last_ch : Bytes} (noNul : (0 : UInt8) ∉ key_last_ch)
    {idx : Nat} (inside : idx ≤ cur_key.length) :
    startsWithLoop cur_key key_last_ch idx = .ok (decide (key_last_ch <+: cur_key.drop idx)) := by
  induction key_last_ch generalizing idx with
  | nil => simp [startsWithLoop]
  | cons byte key_last_ch inductionHypothesis =>
    rw [List.mem_cons, not_or] at noNul
    rw [startsWithLoop, MinEditDist.charAt]
    rcases Nat.lt_or_eq_of_le inside with before | rfl
    · have different : idx ≠ cur_key.length := by omega
      rw [if_neg different, List.getElem?_eq_getElem before, orFault_some, ok_bind,
        List.drop_eq_getElem_cons before]
      split_ifs with differs
      · have misses : ¬ byte :: key_last_ch <+: cur_key[idx] :: cur_key.drop (idx + 1) :=
          fun begins => differs (List.cons_prefix_cons.mp begins).1
        rw [decide_eq_false misses]
        rfl
      · rw [inductionHypothesis noNul.2 before]
        exact congrArg Except.ok (decide_eq_decide.mpr
          (List.cons_prefix_cons.trans (and_iff_right (not_not.mp differs))).symm)
    · have misses : ¬ byte :: key_last_ch <+: cur_key.drop cur_key.length := by
        rw [List.drop_length, List.prefix_nil]
        exact List.cons_ne_nil _ _
      rw [if_pos rfl, ok_bind, if_pos (Ne.symm noNul.1), decide_eq_false misses]
      rfl

/-- The loop over the words collects those that begin with the bytes, until there are five. -/
theorem solitaireLoop_eq {key_last_ch : Bytes} (noNul : (0 : UInt8) ∉ key_last_ch)
    (dict : List (Bytes × Int)) {i : Nat} (small : i + dict.length < 2 ^ 31) {keys : List Bytes}
    (few : keys.length < 5) :
    solitaireLoop key_last_ch i dict keys =
      .ok ((keys ++ (dict.map Prod.fst).filter fun word => key_last_ch <+: word).take 5) := by
  induction dict generalizing i keys with
  | nil =>
    rw [solitaireLoop, List.map_nil, List.filter_nil, List.append_nil, List.take_of_length_le few.le]
  | cons entry dict inductionHypothesis =>
    rw [List.length_cons] at small
    have compared := startsWithLoop_eq noNul (Nat.zero_le entry.1.length)
    rw [List.drop_zero] at compared
    rw [solitaireLoop, compared, ok_bind, List.map_cons, increment_eq_ok (by omega)]
    by_cases begins : key_last_ch <+: entry.1
    · rw [List.filter_cons_of_pos (by simpa using begins), decide_eq_true begins]
      dsimp only
      rw [if_pos rfl]
      split_ifs with full
      · rw [List.append_cons keys entry.1 (List.filter _ _), List.take_append_of_le_length full,
          List.take_of_length_le]
        · rfl
        · rw [List.length_append, List.length_singleton]
          omega
      · rw [ok_bind, inductionHypothesis (by omega) (by omega),
          List.append_cons keys entry.1 (List.filter _ _)]
    · rw [List.filter_cons_of_neg (by simpa using begins), decide_eq_false begins]
      dsimp only
      rw [if_neg Bool.false_ne_true, if_neg (by omega), ok_bind,
        inductionHypothesis (by omega) few]

/-- Where no word begins with the bytes, the counter of the loop does not get through a dictionary of
2^31 words. -/
theorem solitaireLoop_overflows {key_last_ch : Bytes} (noNul : (0 : UInt8) ∉ key_last_ch)
    {dict : List (Bytes × Int)} (misses : ∀ entry ∈ dict, ¬ key_last_ch <+: entry.1) {i : Nat}
    (small : i < 2 ^ 31) (large : 2 ^ 31 ≤ i + dict.length) :
    solitaireLoop key_last_ch i dict [] = .error .integerOverflow := by
  induction dict generalizing i with
  | nil => exact absurd large (by rw [List.length_nil]; omega)
  | cons entry dict inductionHypothesis =>
    rw [List.length_cons] at large
    have compared := startsWithLoop_eq noNul (Nat.zero_le entry.1.length)
    rw [List.drop_zero, decide_eq_false (misses entry List.mem_cons_self)] at compared
    rw [solitaireLoop, compared, ok_bind]
    dsimp only
    rw [if_neg Bool.false_ne_true, if_neg (by rw [List.length_nil]; omega), increment]
    split_ifs with next
    · rw [ok_bind, inductionHypothesis
        (fun other member => misses other (List.mem_cons_of_mem _ member)) next (by omega)]
    · rw [error_bind]

/-! ### Word chains -/

/-- The last character of a key. -/
def lastChunk (key : Bytes) : Bytes := (chunks Utf8.nBytesCode key).getLast?.getD []

/-- What `getSolitaireKeys` reads of a key whose characters are whole is its last character. -/
theorem lastCharacter_exact {key : Bytes} (exact : Exact Utf8.nBytesCode key)
    (short : key.length < 2 ^ 31) : lastCharacter key = .ok (lastChunk key) := by
  have fewer := length_chunks_le Utf8.nBytesCode key
  rw [lastCharacter, length_eq, if_pos exact, ok_bind, toInt_of_lt (by omega),
    lastCharLoop_eq _ key (List.drop_zero ..) le_rfl exact, lastChunk, List.getLast?_eq_getElem?]
  rcases Nat.eq_zero_or_pos (chunks Utf8.nBytesCode key).length with none | some
  · rw [List.length_eq_zero_iff.mp none]
    rfl
  · have number : (((chunks Utf8.nBytesCode key).length : Int) - 1 - (0 : Nat)).toNat =
        (chunks Utf8.nBytesCode key).length - 1 := by omega
    rw [if_pos (by omega), number]

theorem lastCharacter_encode {key : List Char} (nonempty : key ≠ [])
    (short : (encode key).length < 2 ^ 31) :
    lastCharacter (encode key) = .ok (String.utf8EncodeChar (key.getLast nonempty)) := by
  rw [lastCharacter_exact (exact_encode key) short, lastChunk, chunks_encode, List.getLast?_map,
    List.getLast?_eq_some_getLast nonempty]
  rfl

/-- For a key without NUL and a dictionary that an `int` can count through, the word chain is the
words, in the order of the dictionary, whose first character is the last one of the key, and of these
the first five. -/
theorem getSolitaireKeys_encode (words : List (List Char × Int)) (index : Index) {key : List Char}
    (nonempty : key ≠ []) (noNul : ∀ letter ∈ key, letter.toNat ≠ 0)
    (short : (encode key).length < 2 ^ 31) (small : words.length < 2 ^ 31) :
    (⟨words.map encodeEntry, index⟩ : Dictionary).getSolitaireKeys (encode key) [] =
      .ok (((words.filter fun entry => entry.1.head? = key.getLast?).map
        fun entry => encode entry.1).take 5) := by
  have notNul := noNul _ (List.getLast_mem nonempty)
  have chained : ((words.map encodeEntry).map Prod.fst).filter
      (fun word => String.utf8EncodeChar (key.getLast nonempty) <+: word) =
      (words.filter fun entry => entry.1.head? = key.getLast?).map fun entry => encode entry.1 := by
    have firsts : (words.map encodeEntry).map Prod.fst = words.map fun entry => encode entry.1 := by
      rw [List.map_map]
      rfl
    rw [firsts, List.filter_map]
    refine congrArg (List.map _) (List.filter_congr fun entry _ => ?_)
    rw [Function.comp_apply, decide_eq_decide, utf8EncodeChar_isPrefix_iff,
      List.getLast?_eq_some_getLast nonempty]
  rw [getSolitaireKeys_eq, lastCharacter_encode nonempty short, ok_bind,
    solitaireLoop_eq (zero_notMem_utf8EncodeChar notNul) _ (by simpa using small) (by simp),
    List.nil_append, chained]

/-- The key `ab`, over three words of which two begin with `b`. -/
theorem getSolitaireKeys_sample :
    (⟨[(['b', 'a'], 1), (['a'], 2), (['b'], 3)].map encodeEntry, ∅⟩ : Dictionary).getSolitaireKeys
        (encode ['a', 'b']) [] =
      .ok ((([(['b', 'a'], 1), (['a'], 2), (['b'], 3)].filter
        fun entry : List Char × Int => entry.1.head? = ['a', 'b'].getLast?).map
          fun entry => encode entry.1).take 5) :=
  getSolitaireKeys_encode [(['b', 'a'], 1), (['a'], 2), (['b'], 3)] ∅ (by decide)
    (by simp) (show 2 < 2 ^ 31 by norm_num) (show 3 < 2 ^ 31 by norm_num)

/-- In a dictionary of 2^31 words `a`, the counter overflows for the key `b`. And for a key of
2^31 + 1 letters `a` its number of characters becomes negative: its last character is not found, and
the word `b` is chained. -/
theorem getSolitaireKeys_overflows :
    (∃ words : List (List Char × Int), (∀ entry ∈ words, entry.1 ≠ []) ∧
      ∀ index, (⟨words.map encodeEntry, index⟩ : Dictionary).getSolitaireKeys (encode ['b']) [] =
        .error .integerOverflow) ∧
    ∃ key : List Char, key ≠ [] ∧ (∀ letter ∈ key, letter.toNat ≠ 0) ∧
      key.getLast? ≠ ['b'].head? ∧
      ∀ index, (⟨[(['b'], 1)].map encodeEntry, index⟩ : Dictionary).getSolitaireKeys (encode key) []
        = .ok [encode ['b']] := by
  constructor
  · obtain ⟨count, isLarge⟩ : ∃ count, count = 2 ^ 31 := ⟨_, rfl⟩
    refine ⟨List.replicate count (['a'], 1), fun entry member => ?_, fun index => ?_⟩
    · rw [List.eq_of_mem_replicate member]
      exact List.cons_ne_nil _ _
    · rw [getSolitaireKeys_eq, lastCharacter_encode (List.cons_ne_nil 'b' [])
        (show 1 < 2 ^ 31 by norm_num), ok_bind]
      refine solitaireLoop_overflows (zero_notMem_utf8EncodeChar (by decide))
        (fun entry member => ?_) (by norm_num)
        (by rw [List.length_map, List.length_replicate]; omega)
      obtain ⟨word, among, rfl⟩ := List.mem_map.mp member
      rw [List.eq_of_mem_replicate among]
      decide
  · obtain ⟨count, isLarge⟩ : ∃ count, count = 2 ^ 31 := ⟨_, rfl⟩
    refine ⟨List.replicate (count + 1) 'a', List.cons_ne_nil _ _, fun letter member => ?_, ?_,
      fun index => ?_⟩
    · rw [List.eq_of_mem_replicate member]
      decide
    · rw [List.getLast?_replicate, if_neg (by omega)]
      decide
    · have exact := exact_encode (List.replicate (count + 1) 'a')
      have counted : length (encode (List.replicate (count + 1) 'a')) = .ok (count + 1) := by
        rw [length_eq, if_pos exact, chunks_encode, List.length_map, List.length_replicate]
      have negative : ¬ ((0 : Nat) : Int) ≤ toInt (count + 1) - 1 := by
        rw [toInt_of_le (by omega) (by omega)]
        omega
      rw [getSolitaireKeys_eq, lastCharacter, counted, ok_bind,
        lastCharLoop_eq _ _ (List.drop_zero ..) le_rfl exact, if_neg negative, ok_bind,
        solitaireLoop_eq List.not_mem_nil _ (show 0 + 1 < 2 ^ 31 by norm_num) (by simp)]
      rfl

end Dictionary

end SearchEngine
