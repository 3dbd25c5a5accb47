/-
This file compares the ways in which the recommender cuts a string into
characters.

`Dictionary::length`, `MinEditDist::length`, the cursors of `editDistance` and the
search for the last character of a key step by the length that a first byte
announces; `splitSought` decodes. `Dictionary::length` ends only where the announced
lengths add up to the length of the string, since it compares its cursor with
`!=`: otherwise the cursor passes the end, and the next read is outside. On valid
strings all of them find the same characters.
-/

import SearchEngine.Library.Widths
import SearchEngine.Recommender.Candidates
import SearchEngine.Recommender.DictionaryKeys
import SearchEngine.Searcher.WebPageSearcher

namespace SearchEngine

open Utf8 Widths

/-! ### The two functions for the length of a character -/

namespace MinEditDist

/-- The loop counts the ones behind the first bit, unless all bits are ones. -/
theorem nBytesCodeLoop_cases (ch : UInt8) (bit len : Nat) :
    nBytesCodeLoop ch bit len = .ok (leadingOnes ch bit len) ∨
      ∀ place, 0 < place → place ≤ bit → ch.toNat.testBit place = true := by
  induction bit generalizing len with
  | zero => exact Or.inr fun place positive small => absurd positive (by omega)
  | succ bit inductionHypothesis =>
    rw [nBytesCodeLoop, leadingOnes]
    split_ifs with set
    · refine (inductionHypothesis (len + 1)).imp id fun all place positive small => ?_
      rcases Nat.lt_or_eq_of_le small with smaller | rfl
      · exact all place positive (by omega)
      · exact set
    · exact Or.inl rfl

/-- The functions agree on every byte but the two whose bits behind the first are all ones. -/
theorem nBytesCode_eq {ch : UInt8} (notFe : ch ≠ 0xfe) (notFf : ch ≠ 0xff) :
    nBytesCode ch = .ok (Utf8.nBytesCode ch) := by
  rw [nBytesCode, Utf8.nBytesCode]
  split_ifs with multi
  · rcases nBytesCodeLoop_cases ch 6 1 with same | ones
    · exact same
    · have large : 0xfe ≤ ch.toNat := by
        have one := ones 1 (by omega) (by omega)
        have two := ones 2 (by omega) (by omega)
        have three := ones 3 (by omega) (by omega)
        have four := ones 4 (by omega) (by omega)
        have five := ones 5 (by omega) (by omega)
        have six := ones 6 (by omega) (by omega)
        simp only [Nat.testBit_eq_decide_div_mod_eq, decide_eq_true_eq] at *
        omega
      have bounded := ch.toNat_lt
      have isLast : ch.toNat = 0xfe ∨ ch.toNat = 0xff := by omega
      rcases isLast with same | same
      · exact absurd (UInt8.toNat_inj.mp same) notFe
      · exact absurd (UInt8.toNat_inj.mp same) notFf
  · rfl

end MinEditDist

/-! ### Counting characters -/

theorem getElem?_of_drop {str rest : Bytes} {idx : Nat} (behind : str.drop idx = rest) :
    str[idx]? = rest.head? := by
  rw [← behind, List.head?_drop]

theorem drop_of_drop_cons {str rest : Bytes} {first : UInt8} {idx : Nat}
    (behind : str.drop idx = first :: rest) (count : Nat) (positive : 0 < count) :
    str.drop (idx + count) = rest.drop (count - 1) := by
  obtain ⟨fewer, rfl⟩ : ∃ fewer, count = fewer + 1 := ⟨count - 1, by omega⟩
  rw [← List.drop_drop, behind, List.drop_succ_cons, Nat.add_sub_cancel]

/-- The bytes that a string counts as first bytes of characters are none of the two that
`MinEditDist::nBytesCode` does not return for. -/
def Counted (str : Bytes) : Prop := ∀ lead ∈ leads Utf8.nBytesCode str, lead ≠ 0xfe ∧ lead ≠ 0xff

instance (str : Bytes) : Decidable (Counted str) := inferInstanceAs (Decidable (∀ _ ∈ _, _))

/-- `MinEditDist::length` counts the characters, the last one also where it is cut short. -/
theorem MinEditDist.lengthLoop_eq {str : Bytes} (rest : Bytes) {idx rounds : Nat}
    (behind : str.drop idx = rest) (enough : rest.length ≤ rounds) (counted : Counted rest)
    (len : Nat) :
    lengthLoop str rounds idx len = .ok (len + (chunks Utf8.nBytesCode rest).length) := by
  induction rest using Widths.induction Utf8.nBytesCode generalizing idx rounds len with
  | nil =>
    cases rounds with
    | zero => rfl
    | succ rounds =>
      rw [lengthLoop, getElem?_of_drop behind]
      rfl
  | cons first rest inductionHypothesis =>
    rw [List.length_cons] at enough
    obtain ⟨fewer, rfl⟩ : ∃ fewer, rounds = fewer + 1 := ⟨rounds - 1, by omega⟩
    rw [Counted, leads_cons, List.forall_mem_cons] at counted
    have next := drop_of_drop_cons behind _ (nBytesCode_pos first)
    have fits : (rest.drop (Utf8.nBytesCode first - 1)).length ≤ fewer := by
      rw [List.length_drop]
      omega
    rw [lengthLoop, getElem?_of_drop behind, List.head?_cons]
    dsimp only
    rw [nBytesCode_eq counted.1.1 counted.1.2, ok_bind,
      inductionHypothesis next fits counted.2, chunks_cons, List.length_cons, Nat.add_assoc,
      Nat.add_comm 1]

/-- `Dictionary::length` counts the characters where none is cut short, and reads outside the
string otherwise. -/
theorem Dictionary.lengthLoop_eq {str : Bytes} (rest : Bytes) {idx rounds : Nat}
    (behind : str.drop idx = rest) (inside : idx ≤ str.length) (enough : rest.length < rounds)
    (ilen : Nat) :
    lengthLoop str rounds idx ilen =
      if Exact Utf8.nBytesCode rest then .ok (ilen + (chunks Utf8.nBytesCode rest).length)
      else .error .outOfBounds := by
  have length : str.length = idx + rest.length := by
    rw [← behind, List.length_drop]
    omega
  induction rest using Widths.induction Utf8.nBytesCode generalizing idx rounds ilen with
  | nil =>
    obtain ⟨fewer, rfl⟩ : ∃ fewer, rounds = fewer + 1 := ⟨rounds - 1, by omega⟩
    rw [lengthLoop, if_pos (by simpa using length.symm)]
    rfl
  | cons first rest inductionHypothesis =>
    obtain ⟨fewer, rfl⟩ : ∃ fewer, rounds = fewer + 1 := ⟨rounds - 1, by omega⟩
    rw [List.length_cons] at length enough
    have next := drop_of_drop_cons behind _ (nBytesCode_pos first)
    rw [lengthLoop, if_neg (by omega), getElem?_of_drop behind, List.head?_cons, orFault_some,
      ok_bind]
    have positive := nBytesCode_pos first
    rcases Nat.lt_or_ge (rest.length + 1) (Utf8.nBytesCode first) with short | whole
    · -- the cursor passes the end
      have cutShort : ¬ Exact Utf8.nBytesCode (first :: rest) := fun exact =>
        absurd ((exact_cons nBytesCode_pos).mp exact).1 (by omega)
      obtain ⟨left, rfl⟩ : ∃ left, fewer = left + 1 := ⟨fewer - 1, by omega⟩
      rw [if_neg cutShort, lengthLoop, if_neg (by omega), List.getElem?_eq_none (by omega),
        orFault_none, error_bind]
    · have behindLength : (rest.drop (Utf8.nBytesCode first - 1)).length =
          rest.length - (Utf8.nBytesCode first - 1) := List.length_drop
      have exact_iff : Exact Utf8.nBytesCode (first :: rest) ↔
          Exact Utf8.nBytesCode (rest.drop (Utf8.nBytesCode first - 1)) :=
        (exact_cons nBytesCode_pos).trans (and_iff_right whole)
      rw [inductionHypothesis next (by omega) (by omega) (ilen + 1) (by omega)]
      simp only [exact_iff, chunks_cons, List.length_cons, Nat.add_assoc, Nat.add_comm 1]

theorem MinEditDist.length_eq {str : Bytes} (counted : Counted str) :
    length str = .ok (chunks Utf8.nBytesCode str).length := by
  rw [length, lengthLoop_eq str (List.drop_zero ..) le_rfl counted, Nat.zero_add]

theorem Dictionary.length_eq (str : Bytes) :
    length str = if Exact Utf8.nBytesCode str then .ok (chunks Utf8.nBytesCode str).length
      else .error .outOfBounds := by
  rw [length, lengthLoop_eq str (List.drop_zero ..) (Nat.zero_le _) (Nat.lt_succ_self _),
    Nat.zero_add]

/-! ### The last character of a key -/

namespace Dictionary

theorem pushBytes_eq {key : Bytes} {count i : Nat} (inside : i + count ≤ key.length)
    (key_last_ch : Bytes) :
    pushBytes key count i key_last_ch = .ok (key_last_ch ++ (key.drop i).take count) := by
  induction count generalizing i key_last_ch with
  | zero => rw [List.take_zero, List.append_nil]; rfl
  | succ count inductionHypothesis =>
    have here : i < key.length := by omega
    have read : MinEditDist.charAt key i = .ok key[i] := by
      rw [MinEditDist.charAt, if_neg (by omega), List.getElem?_eq_getElem here, orFault_some]
    rw [pushBytes, read, ok_bind, inductionHypothesis (by omega), List.append_assoc,
      List.drop_eq_getElem_cons here, List.take_succ_cons, List.singleton_append]

/-- The search stops at the character with the number it looks for. -/
theorem lastCharLoop_eq {key : Bytes} (keyLen : Int) (rest : Bytes) {i rounds : Nat}
    (behind : key.drop i = rest) (enough : rest.length ≤ rounds)
    (exact : Exact Utf8.nBytesCode rest) (idx_ch_key : Nat) :
    lastCharLoop key keyLen rounds i idx_ch_key =
      .ok (if idx_ch_key ≤ keyLen - 1 then
        (chunks Utf8.nBytesCode rest)[(keyLen - 1 - idx_ch_key).toNat]?.getD [] else []) := by
  induction rest using Widths.induction Utf8.nBytesCode generalizing i rounds idx_ch_key with
  | nil =>
    have nothing : (if (idx_ch_key : Int) ≤ keyLen - 1 then
        (chunks Utf8.nBytesCode [])[(keyLen - 1 - idx_ch_key).toNat]?.getD [] else []) = [] := by
      rw [chunks_nil, List.getElem?_nil, Option.getD_none, ite_self]
    rw [nothing]
    cases rounds with
    | zero => rfl
    | succ rounds =>
      rw [lastCharLoop, getElem?_of_drop behind]
      rfl
  | cons first rest inductionHypothesis =>
    rw [List.length_cons] at enough
    obtain ⟨fewer, rfl⟩ : ∃ fewer, rounds = fewer + 1 := ⟨rounds - 1, by omega⟩
    have positive := nBytesCode_pos first
    obtain ⟨whole, exactBehind⟩ := (exact_cons nBytesCode_pos).mp exact
    have length : (key.drop i).length = rest.length + 1 := by rw [behind, List.length_cons]
    rw [List.length_drop] at length
    rw [lastCharLoop, getElem?_of_drop behind, List.head?_cons]
    dsimp only
    split_ifs with found notLarger notLarger
    · obtain ⟨size, sameSize⟩ : ∃ size, Utf8.nBytesCode first = size + 1 :=
        ⟨Utf8.nBytesCode first - 1, by omega⟩
      rw [pushBytes_eq (by omega), behind, chunks_cons, found, sub_self, Int.toNat_zero, sameSize,
        List.take_succ_cons]
      rfl
    · exact absurd found.le notLarger
    · obtain ⟨number, sameNumber⟩ : ∃ number, (keyLen - 1 - idx_ch_key).toNat = number + 1 :=
        ⟨(keyLen - 1 - idx_ch_key).toNat - 1, by omega⟩
      have later : (keyLen - 1 - ((idx_ch_key + 1 : Nat) : Int)).toNat = number := by omega
      have fits : (rest.drop (Utf8.nBytesCode first - 1)).length ≤ fewer := by
        rw [List.length_drop]
        omega
      rw [inductionHypothesis (drop_of_drop_cons behind _ positive) fits exactBehind,
        if_pos (by omega), later, chunks_cons, sameNumber, List.getElem?_cons_succ]
    · have fits : (rest.drop (Utf8.nBytesCode first - 1)).length ≤ fewer := by
        rw [List.length_drop]
        omega
      rw [inductionHypothesis (drop_of_drop_cons behind _ positive) fits exactBehind,
        if_neg (by omega)]

/-- What `getSolitaireKeys` reads of its key. -/
def lastCharacter (key : Bytes) : Except Fault Bytes := do
  let keyLen ← length key
  lastCharLoop key (toInt keyLen) key.length 0 0

theorem getSolitaireKeys_eq (dictionary : Dictionary) (key : Bytes) (keys : List Bytes) :
    dictionary.getSolitaireKeys key keys =
      lastCharacter key >>= fun key_last_ch => solitaireLoop key_last_ch 0 dictionary.dict keys := by
  rw [getSolitaireKeys, lastCharacter]
  cases length key <;> rfl

/-! ### When the counters agree -/

/-- Both counters end with the same number, and `getSolitaireKeys` has read its key inside and goes
on to the words of the dictionary. -/
structure CountsCharacters (str : Bytes) : Prop where
  count : ∃ count, length str = .ok count ∧ MinEditDist.length str = .ok count
  last : ∃ key_last_ch, ∀ (dictionary : Dictionary) (keys : List Bytes),
    dictionary.getSolitaireKeys str keys = solitaireLoop key_last_ch 0 dictionary.dict keys

/-- This is so exactly when no character is cut short by the end of the string. -/
theorem countsCharacters_iff {str : Bytes} (counted : Counted str) :
    CountsCharacters str ↔ Exact Utf8.nBytesCode str := by
  constructor
  · rintro ⟨⟨count, ends, -⟩, -⟩
    by_contra cutShort
    rw [length_eq, if_neg cutShort] at ends
    cases ends
  · intro exact
    have ends := (length_eq str).trans (if_pos exact)
    refine ⟨⟨_, ends, MinEditDist.length_eq counted⟩, ?_⟩
    obtain ⟨key_last_ch, found⟩ : ∃ key_last_ch, lastCharacter str = .ok key_last_ch := by
      rw [lastCharacter, ends, ok_bind, lastCharLoop_eq _ str (List.drop_zero ..) le_rfl exact]
      exact ⟨_, rfl⟩
    refine ⟨key_last_ch, fun dictionary keys => ?_⟩
    rw [getSolitaireKeys_eq, found, ok_bind]

/-- An `a` and a character of three bytes. -/
theorem countsCharacters_mixed :
    CountsCharacters [0x61, 0xe4, 0xbd, 0xa0] ↔ Exact Utf8.nBytesCode [0x61, 0xe4, 0xbd, 0xa0] :=
  countsCharacters_iff (by decide +kernel)

/-- The first byte of a character of three bytes alone: the counter reads outside the string. -/
theorem cutShort_outOfBounds :
    Counted [0xe4] ∧ length [0xe4] = .error .outOfBounds ∧ MinEditDist.length [0xe4] = .ok 1 ∧
      ¬ CountsCharacters [0xe4] := by
  have outside : length [0xe4] = .error .outOfBounds := by rw [length_eq]; decide +kernel
  refine ⟨by decide +kernel, outside, rfl, ?_⟩
  rintro ⟨⟨count, ends, -⟩, -⟩
  rw [outside] at ends
  cases ends

end Dictionary

/-! ### The cursors of `editDistance` -/

namespace MinEditDist

/-- The substrings a cursor of `editDistance` comes to, from `idx` on. -/
def cursorLoop (str : Bytes) : Nat → Nat → Except Fault (List Bytes)
  | 0, _ => .ok []
  | rounds + 1, idx => do
    let (nBytes, sub) ← character str idx
    let subs ← cursorLoop str rounds (idx + nBytes)
    return sub :: subs

/-- The inner loop, on the substrings of `rhs`. -/
def rowLoopOver (sublhs : Bytes) (dist_i : Nat) : List Bytes → Nat → Table → Except Fault Table
  | [], _, editDist => .ok editDist
  | subrhs :: subs, dist_j, editDist => do
    let value ← cellValue editDist sublhs subrhs dist_i dist_j
    let editDist ← editDist.write dist_i dist_j value
    rowLoopOver sublhs dist_i subs (dist_j + 1) editDist

/-- The outer loop, on the substrings of `lhs` and `rhs`. -/
def tableLoopOver (rhsSubs : List Bytes) : List Bytes → Nat → Table → Except Fault Table
  | [], _, editDist => .ok editDist
  | sublhs :: subs, dist_i, editDist => do
    let editDist ← rowLoopOver sublhs dist_i rhsSubs 1 editDist
    tableLoopOver rhsSubs subs (dist_i + 1) editDist

/-- `editDistance`, on the substrings of `lhs` and `rhs`. -/
def distanceOver (lhsSubs rhsSubs : List Bytes) : Except Fault Nat := do
  let editDist : Table := ⟨lhsSubs.length + 1, rhsSubs.length + 1, fun _ _ => 0⟩
  let editDist ← columnLoop (lhsSubs.length + 1) 0 editDist
  let editDist ← rowLoop (rhsSubs.length + 1) 0 editDist
  let editDist ← tableLoopOver rhsSubs lhsSubs 1 editDist
  editDist.read lhsSubs.length rhsSubs.length

theorem cursorLoop_succ_eq_ok {str : Bytes} {rounds idx : Nat} {subs : List Bytes}
    (walked : cursorLoop str (rounds + 1) idx = .ok subs) :
    ∃ nBytes sub later, character str idx = .ok (nBytes, sub) ∧
      cursorLoop str rounds (idx + nBytes) = .ok later ∧ subs = sub :: later := by
  obtain ⟨⟨nBytes, sub⟩, read, walked⟩ := bind_eq_ok.mp walked
  obtain ⟨later, rest, walked⟩ := bind_eq_ok.mp walked
  exact ⟨nBytes, sub, later, read, rest, (Except.ok.inj walked).symm⟩

theorem innerLoop_eq {rhs : Bytes} {rounds rhs_idx : Nat} {subs : List Bytes}
    (walked : cursorLoop rhs rounds rhs_idx = .ok subs) (sublhs : Bytes) (dist_i dist_j : Nat)
    (editDist : Table) :
    innerLoop rhs sublhs dist_i rounds dist_j rhs_idx editDist =
      rowLoopOver sublhs dist_i subs dist_j editDist := by
  induction rounds generalizing rhs_idx subs dist_j editDist with
  | zero =>
    obtain rfl := Except.ok.inj walked
    rfl
  | succ rounds inductionHypothesis =>
    obtain ⟨nBytes, sub, later, read, rest, rfl⟩ := cursorLoop_succ_eq_ok walked
    rw [innerLoop, read, ok_bind, rowLoopOver]
    simp only [inductionHypothesis rest]

theorem outerLoop_eq {lhs rhs : Bytes} {rounds rhs_len lhs_idx : Nat} {subs rhsSubs : List Bytes}
    (walked : cursorLoop lhs rounds lhs_idx = .ok subs)
    (rhsWalked : cursorLoop rhs rhs_len 0 = .ok rhsSubs) (dist_i : Nat) (editDist : Table) :
    outerLoop lhs rhs rhs_len rounds dist_i lhs_idx editDist =
      tableLoopOver rhsSubs subs dist_i editDist := by
  induction rounds generalizing lhs_idx subs dist_i editDist with
  | zero =>
    obtain rfl := Except.ok.inj walked
    rfl
  | succ rounds inductionHypothesis =>
    obtain ⟨nBytes, sub, later, read, rest, rfl⟩ := cursorLoop_succ_eq_ok walked
    rw [outerLoop, read, ok_bind, tableLoopOver]
    simp only [innerLoop_eq rhsWalked, inductionHypothesis rest]

/-- `editDistance` depends on its strings only through the substrings its cursors come to. -/
theorem editDistance_eq {lhs rhs : Bytes} {lhsSubs rhsSubs : List Bytes}
    (lhsLength : length lhs = .ok lhsSubs.length) (rhsLength : length rhs = .ok rhsSubs.length)
    (lhsWalked : cursorLoop lhs lhsSubs.length 0 = .ok lhsSubs)
    (rhsWalked : cursorLoop rhs rhsSubs.length 0 = .ok rhsSubs) :
    editDistance lhs rhs = distanceOver lhsSubs rhsSubs := by
  rw [editDistance, lhsLength, ok_bind, rhsLength, ok_bind, distanceOver]
  simp only [outerLoop_eq lhsWalked rhsWalked]

/-- On a valid string a cursor comes to the characters. -/
theorem cursorLoop_encode (before after : List Char) :
    cursorLoop (encode (before ++ after)) after.length (encode before).length =
      .ok (after.map String.utf8EncodeChar) := by
  induction after generalizing before with
  | nil => rfl
  | cons letter after inductionHypothesis =>
    have cursor : (encode before).length + (String.utf8EncodeChar letter).length =
        (encode (before ++ [letter])).length := by
      rw [encode_append, List.length_append, encode_cons, encode_nil, List.append_nil]
    have text : before ++ letter :: after = before ++ [letter] ++ after := by simp
    rw [List.length_cons, cursorLoop, character_encode, ok_bind]
    dsimp only
    rw [cursor, text, inductionHypothesis (before ++ [letter]), ok_bind]
    rfl

end MinEditDist

/-! ### All splitters -/

/-- On a valid string `splitSought`, the cursors of `editDistance` and the steps by `nBytesCode` find
the same pieces: their concatenation is the string, and both counters return their number. -/
theorem splitters_agree (letters : List Char) :
    ∃ characters, Dictionary.splitSought (encode letters) = .ok characters ∧
      MinEditDist.cursorLoop (encode letters) characters.length 0 = .ok characters ∧
      (∀ others : List Char, MinEditDist.editDistance (encode letters) (encode others) =
        MinEditDist.distanceOver characters (chunks Utf8.nBytesCode (encode others))) ∧
      chunks Utf8.nBytesCode (encode letters) = characters ∧
      chunks WebPageSearcher.nBytesCode (encode letters) = characters ∧
      characters.flatten = encode letters ∧
      MinEditDist.length (encode letters) = .ok characters.length ∧
      Dictionary.length (encode letters) = .ok characters.length := by
  have cursor (text : List Char) : MinEditDist.cursorLoop (encode text)
      (text.map String.utf8EncodeChar).length 0 = .ok (text.map String.utf8EncodeChar) := by
    rw [List.length_map]
    exact MinEditDist.cursorLoop_encode [] text
  have count (text : List Char) : MinEditDist.length (encode text) =
      .ok (text.map String.utf8EncodeChar).length := by
    rw [List.length_map, MinEditDist.length_encode]
  refine ⟨letters.map String.utf8EncodeChar, splitSought_encode letters,
    cursor letters, fun others => ?_, chunks_encode letters, chunks_encode letters, rfl,
    count letters, ?_⟩
  · rw [chunks_encode]
    exact MinEditDist.editDistance_eq (count letters) (count others) (cursor letters)
      (cursor others)
  · rw [Dictionary.length_eq, if_pos (exact_encode letters), chunks_encode]

end SearchEngine
