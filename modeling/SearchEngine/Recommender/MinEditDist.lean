/-
This file models `MinEditDist::editDistance` and proves what it computes on valid
UTF-8.

The two loops walk a byte cursor over each string and fill a table of the
distances of prefixes. The table has bounds, and an access outside them is a
fault. The invariant of the loops says that the cells in front of the cursor hold
the distances of the corresponding prefixes, counted in characters. The lengths and
the distances are `int` in the program and natural numbers here: they are the same
for strings of fewer than 2^31 characters.
-/

import SearchEngine.Utf8
import SearchEngine.Library.EditDistance

namespace SearchEngine.MinEditDist

open Utf8

/-! ### The program -/

/-- The loop of `MinEditDist::nBytesCode`; it ends without a `return` when all bits are ones. -/
def nBytesCodeLoop (ch : UInt8) : Nat → Nat → Except Fault Nat
  | 0, _ => .error .missingReturn
  | bit + 1, len =>
    if ch.toNat.testBit (bit + 1) then nBytesCodeLoop ch bit (len + 1) else .ok len

/-- `MinEditDist::nBytesCode` -/
def nBytesCode (ch : UInt8) : Except Fault Nat :=
  if ch.toNat.testBit 7 then nBytesCodeLoop ch 6 1 else .ok 1

/-- The loop of `MinEditDist::length`, which runs at most once for each byte. -/
def lengthLoop (str : Bytes) : Nat → Nat → Nat → Except Fault Nat
  | 0, _, len => .ok len
  | rounds + 1, idx, len =>
    match str[idx]? with
    | none => .ok len
    | some ch => do
      let bytes ← nBytesCode ch
      lengthLoop str rounds (idx + bytes) (len + 1)

/-- `MinEditDist::length` -/
def length (str : Bytes) : Except Fault Nat := lengthLoop str str.length 0 0

/-- `MinEditDist::triple_min` -/
def tripleMin (a b c : Nat) : Nat :=
  if a < b then (if a < c then a else c) else if b < c then b else c

/-- `int editDist[rows][cols]` -/
structure Table where
  rows : Nat
  cols : Nat
  cells : Nat → Nat → Nat

/-- A cell that is read. -/
def Table.read (table : Table) (i j : Nat) : Except Fault Nat :=
  if i < table.rows ∧ j < table.cols then .ok (table.cells i j) else .error .outOfBounds

/-- The table after a store. -/
def Table.set (table : Table) (i j value : Nat) : Table :=
  { table with cells := fun a b => if a = i ∧ b = j then value else table.cells a b }

/-- A cell that is stored. -/
def Table.write (table : Table) (i j value : Nat) : Except Fault Table :=
  if i < table.rows ∧ j < table.cols then .ok (table.set i j value) else .error .outOfBounds

/-- `editDist[idx][0] = idx`, from `idx` on. -/
def columnLoop : Nat → Nat → Table → Except Fault Table
  | 0, _, editDist => .ok editDist
  | rounds + 1, idx, editDist => do
    let editDist ← editDist.write idx 0 idx
    columnLoop rounds (idx + 1) editDist

/-- `editDist[0][idx] = idx`, from `idx` on. -/
def rowLoop : Nat → Nat → Table → Except Fault Table
  | 0, _, editDist => .ok editDist
  | rounds + 1, idx, editDist => do
    let editDist ← editDist.write 0 idx idx
    rowLoop rounds (idx + 1) editDist

/-- `str[idx]`; the byte behind the last one is NUL. -/
def charAt (str : Bytes) (idx : Nat) : Except Fault UInt8 :=
  if idx = str.length then .ok 0 else orFault .outOfBounds str[idx]?

/-- `str.substr(idx, n)` -/
def substr (str : Bytes) (idx n : Nat) : Except Fault Bytes :=
  if idx ≤ str.length then .ok ((str.drop idx).take n) else .error .outOfRange

/-- `nBytes` and the substring of that length. -/
def character (str : Bytes) (idx : Nat) : Except Fault (Nat × Bytes) := do
  let ch ← charAt str idx
  let nBytes ← nBytesCode ch
  let sub ← substr str idx nBytes
  return (nBytes, sub)

/-- The value for `editDist[dist_i][dist_j]`. -/
def cellValue (editDist : Table) (sublhs subrhs : Bytes) (dist_i dist_j : Nat) :
    Except Fault Nat :=
  if sublhs = subrhs then editDist.read (dist_i - 1) (dist_j - 1)
  else do
    let a ← editDist.read dist_i (dist_j - 1)
    let b ← editDist.read (dist_i - 1) dist_j
    let c ← editDist.read (dist_i - 1) (dist_j - 1)
    return tripleMin (a + 1) (b + 1) (c + 1)

/-- The inner loop, from `dist_j` and `rhs_idx` on. -/
def innerLoop (rhs sublhs : Bytes) (dist_i : Nat) :
    Nat → Nat → Nat → Table → Except Fault Table
  | 0, _, _, editDist => .ok editDist
  | rounds + 1, dist_j, rhs_idx, editDist => do
    let (nBytes, subrhs) ← character rhs rhs_idx
    let value ← cellValue editDist sublhs subrhs dist_i dist_j
    let editDist ← editDist.write dist_i dist_j value
    innerLoop rhs sublhs dist_i rounds (dist_j + 1) (rhs_idx + nBytes) editDist

/-- The outer loop, from `dist_i` and `lhs_idx` on. -/
def outerLoop (lhs rhs : Bytes) (rhs_len : Nat) :
    Nat → Nat → Nat → Table → Except Fault Table
  | 0, _, _, editDist => .ok editDist
  | rounds + 1, dist_i, lhs_idx, editDist => do
    let (nBytes, sublhs) ← character lhs lhs_idx
    let editDist ← innerLoop rhs sublhs dist_i rhs_len 1 0 editDist
    outerLoop lhs rhs rhs_len rounds (dist_i + 1) (lhs_idx + nBytes) editDist

/-- `MinEditDist::editDistance` -/
def editDistance (lhs rhs : Bytes) : Except Fault Nat := do
  let lhs_len ← length lhs
  let rhs_len ← length rhs
  let editDist : Table := ⟨lhs_len + 1, rhs_len + 1, fun _ _ => 0⟩
  let editDist ← columnLoop (lhs_len + 1) 0 editDist
  let editDist ← rowLoop (rhs_len + 1) 0 editDist
  let editDist ← outerLoop lhs rhs rhs_len lhs_len 1 0 editDist
  editDist.read lhs_len rhs_len

/-! ### Characters under the cursor -/

theorem tripleMin_eq (a b c : Nat) : tripleMin (a + 1) (b + 1) (c + 1) = min a (min b c) + 1 := by
  rw [tripleMin]
  split_ifs <;> omega

/-- The first byte of a character tells its length. -/
theorem nBytesCode_utf8EncodeChar (letter : Char) :
    ∃ lead trail, String.utf8EncodeChar letter = lead :: trail ∧
      nBytesCode lead = .ok (String.utf8EncodeChar letter).length := by
  have valid : letter.toNat < 0x110000 := by
    have range : letter.toNat < 0xd800 ∨ 0xdfff < letter.toNat ∧ letter.toNat < 0x110000 :=
      letter.valid
    omega
  rw [String.utf8EncodeChar, show letter.val.toNat = letter.toNat from rfl]
  split_ifs with one two three
  all_goals
    refine ⟨_, _, rfl, ?_⟩
    simp only [nBytesCode, nBytesCodeLoop, Nat.testBit_eq_decide_div_mod_eq, decide_eq_true_eq,
      List.length_cons, List.length_nil, UInt8.toNat_ofNat']
    norm_num
    split_ifs <;> first | rfl | omega

/-- The cursor in front of a character reads the character. -/
theorem character_encode (before : List Char) (letter : Char) (after : List Char) :
    character (encode (before ++ letter :: after)) (encode before).length =
      .ok ((String.utf8EncodeChar letter).length, String.utf8EncodeChar letter) := by
  obtain ⟨lead, trail, split, bytes⟩ := nBytesCode_utf8EncodeChar letter
  have str : encode (before ++ letter :: after) =
      encode before ++ (String.utf8EncodeChar letter ++ encode after) := by
    rw [encode_append, encode_cons]
  have inside : (encode before).length ≠
      (encode before ++ (String.utf8EncodeChar letter ++ encode after)).length := by
    simp [split]
  have lead_eq : charAt (encode (before ++ letter :: after)) (encode before).length = .ok lead := by
    rw [str, charAt, if_neg inside, List.getElem?_append_right (le_refl _), Nat.sub_self, split]
    rfl
  have sub_eq : substr (encode (before ++ letter :: after)) (encode before).length
      (String.utf8EncodeChar letter).length = .ok (String.utf8EncodeChar letter) := by
    rw [str, substr, if_pos (by simp), List.drop_left, List.take_left]
  rw [character, lead_eq, ok_bind, bytes, ok_bind, sub_eq, ok_bind, pure_eq_ok]

/-- The loop counts the characters behind the cursor. -/
theorem lengthLoop_encode (before after : List Char) {rounds : Nat}
    (enough : (encode after).length ≤ rounds) (len : Nat) :
    lengthLoop (encode (before ++ after)) rounds (encode before).length len =
      .ok (len + after.length) := by
  induction after generalizing before rounds len with
  | nil =>
    have ended : (encode (before ++ []))[(encode before).length]? = none := by
      rw [List.append_nil, List.getElem?_eq_none (le_refl _)]
    cases rounds with
    | zero => rfl
    | succ rounds => rw [lengthLoop, ended]; rfl
  | cons letter after inductionHypothesis =>
    obtain ⟨lead, trail, split, bytes⟩ := nBytesCode_utf8EncodeChar letter
    have size : (encode (letter :: after)).length =
        (String.utf8EncodeChar letter).length + (encode after).length := by
      rw [encode_cons, List.length_append]
    have positive : 0 < (String.utf8EncodeChar letter).length := by simp [split]
    obtain ⟨fewer, rfl⟩ : ∃ fewer, rounds = fewer + 1 := ⟨rounds - 1, by omega⟩
    have reads : (encode (before ++ letter :: after))[(encode before).length]? = some lead := by
      rw [encode_append, List.getElem?_append_right (le_refl _), Nat.sub_self, encode_cons, split]
      rfl
    have cursor : (encode before).length + (String.utf8EncodeChar letter).length =
        (encode (before ++ [letter])).length := by
      rw [encode_append, List.length_append, encode_cons, encode_nil, List.append_nil]
    have text : before ++ letter :: after = before ++ [letter] ++ after := by simp
    rw [lengthLoop, reads]
    dsimp only
    rw [bytes, ok_bind, cursor, text, inductionHypothesis (before ++ [letter]) (by omega),
      List.length_cons, Nat.add_assoc, Nat.add_comm 1]

/-- `MinEditDist::length` counts the characters. -/
theorem length_encode (text : List Char) : length (encode text) = .ok text.length := by
  have counted := lengthLoop_encode [] text (le_refl _) 0
  rw [Nat.zero_add] at counted
  exact counted

/-! ### The table -/

theorem read_eq_ok {table : Table} {i j : Nat} (row : i < table.rows) (col : j < table.cols) :
    table.read i j = .ok (table.cells i j) := by
  rw [Table.read, if_pos ⟨row, col⟩]

theorem write_eq_ok {table : Table} {i j : Nat} (row : i < table.rows) (col : j < table.cols)
    (value : Nat) : table.write i j value = .ok (table.set i j value) := by
  rw [Table.write, if_pos ⟨row, col⟩]

@[simp] theorem cells_set (table : Table) (i j value a b : Nat) :
    (table.set i j value).cells a b = if a = i ∧ b = j then value else table.cells a b := rfl

theorem columnLoop_spec (rounds idx : Nat) (table : Table)
    (rows : idx + rounds ≤ table.rows) (cols : 0 < table.cols) :
    columnLoop rounds idx table = .ok { table with
      cells := fun a b => if b = 0 ∧ idx ≤ a ∧ a < idx + rounds then a else table.cells a b } := by
  induction rounds generalizing idx table with
  | zero =>
    rw [columnLoop]
    refine congrArg Except.ok (congrArg (Table.mk _ _) ?_)
    funext a b
    rw [if_neg (by omega)]
  | succ rounds inductionHypothesis =>
    rw [columnLoop, write_eq_ok (by omega) cols, ok_bind,
      inductionHypothesis (idx + 1) (table.set idx 0 idx)
        (show idx + 1 + rounds ≤ table.rows by omega) cols]
    refine congrArg Except.ok (congrArg (Table.mk _ _) ?_)
    funext a b
    rw [cells_set]
    split_ifs <;> omega

theorem rowLoop_spec (rounds idx : Nat) (table : Table)
    (rows : 0 < table.rows) (cols : idx + rounds ≤ table.cols) :
    rowLoop rounds idx table = .ok { table with
      cells := fun a b => if a = 0 ∧ idx ≤ b ∧ b < idx + rounds then b else table.cells a b } := by
  induction rounds generalizing idx table with
  | zero =>
    rw [rowLoop]
    refine congrArg Except.ok (congrArg (Table.mk _ _) ?_)
    funext a b
    rw [if_neg (by omega)]
  | succ rounds inductionHypothesis =>
    rw [rowLoop, write_eq_ok rows (by omega), ok_bind,
      inductionHypothesis (idx + 1) (table.set 0 idx idx) rows
        (show idx + 1 + rounds ≤ table.cols by omega)]
    refine congrArg Except.ok (congrArg (Table.mk _ _) ?_)
    funext a b
    rw [cells_set]
    split_ifs <;> omega

/-- The distance of two prefixes. -/
def prefixDistance (first second : List Char) (i j : Nat) : Nat :=
  EditDistance.distance (first.take i) (second.take j)

/-- The rows above the given one hold the distances of the prefixes, and so does the first
column. -/
structure Filled (first second : List Char) (i : Nat) (table : Table) : Prop where
  rows : table.rows = first.length + 1
  cols : table.cols = second.length + 1
  column : ∀ a ≤ first.length, table.cells a 0 = a
  above : ∀ a < i, a ≤ first.length → ∀ b ≤ second.length,
    table.cells a b = prefixDistance first second a b

theorem prefixDistance_zero_left (first second : List Char) {j : Nat} (inside : j ≤ second.length) :
    prefixDistance first second 0 j = j := by
  rw [prefixDistance, List.take_zero, EditDistance.distance_nil_left, List.length_take,
    Nat.min_eq_left inside]

theorem prefixDistance_zero_right (first second : List Char) {i : Nat} (inside : i ≤ first.length) :
    prefixDistance first second i 0 = i := by
  rw [prefixDistance, List.take_zero, EditDistance.distance_nil_right, List.length_take,
    Nat.min_eq_left inside]

theorem take_length_succ {before after : List Char} {letter : Char} :
    (before ++ letter :: after).take (before.length + 1) = before ++ [letter] := by
  rw [List.take_length_add_append]
  rfl

/-- The value for the cell behind two prefixes. -/
theorem cellValue_eq {before after reached rest : List Char} {letter other : Char} {table : Table}
    (filled : Filled (before ++ letter :: after) (reached ++ other :: rest) (before.length + 1)
      table)
    (left : table.cells (before.length + 1) reached.length =
      prefixDistance (before ++ letter :: after) (reached ++ other :: rest) (before.length + 1)
        reached.length) :
    cellValue table (String.utf8EncodeChar letter) (String.utf8EncodeChar other)
      (before.length + 1) (reached.length + 1) =
      .ok (prefixDistance (before ++ letter :: after) (reached ++ other :: rest)
        (before.length + 1) (reached.length + 1)) := by
  have rows : table.rows = before.length + after.length + 2 := by
    rw [filled.rows, List.length_append, List.length_cons]
    omega
  have cols : table.cols = reached.length + rest.length + 2 := by
    rw [filled.cols, List.length_append, List.length_cons]
    omega
  have corner := filled.above before.length (by omega) (by simp) reached.length (by simp)
  have above := filled.above before.length (by omega) (by simp) (reached.length + 1) (by simp)
  rw [cellValue, Nat.add_sub_cancel, Nat.add_sub_cancel, read_eq_ok (by omega) (by omega),
    read_eq_ok (by omega) (by omega), read_eq_ok (by omega) (by omega), corner, above, left]
  simp only [ok_bind, tripleMin_eq, pure_eq_ok, prefixDistance, take_length_succ, List.take_left,
    EditDistance.distance_append_singleton, utf8EncodeChar_injective.eq_iff]
  split_ifs <;> rfl

/-- The inner loop fills a row. -/
theorem innerLoop_fills {before after : List Char} {letter : Char} (rest reached : List Char)
    (table : Table)
    (filled : Filled (before ++ letter :: after) (reached ++ rest) (before.length + 1) table)
    (left : ∀ b ≤ reached.length, table.cells (before.length + 1) b =
      prefixDistance (before ++ letter :: after) (reached ++ rest) (before.length + 1) b) :
    ∃ next, innerLoop (encode (reached ++ rest)) (String.utf8EncodeChar letter)
      (before.length + 1) rest.length (reached.length + 1) (encode reached).length table =
        .ok next ∧
      Filled (before ++ letter :: after) (reached ++ rest) (before.length + 1 + 1) next := by
  induction rest generalizing reached table with
  | nil =>
    refine ⟨table, rfl, filled.rows, filled.cols, filled.column, fun a below inside b within => ?_⟩
    rcases Nat.lt_succ_iff_lt_or_eq.mp below with earlier | rfl
    · exact filled.above a earlier inside b within
    · exact left b (by simpa using within)
  | cons other rest inductionHypothesis =>
    have row : before.length + 1 < table.rows := by
      rw [filled.rows, List.length_append, List.length_cons]
      omega
    have col : reached.length + 1 < table.cols := by
      rw [filled.cols, List.length_append, List.length_cons]
      omega
    have cursor : (encode reached).length + (String.utf8EncodeChar other).length =
        (encode (reached ++ [other])).length := by
      rw [encode_append, List.length_append, encode_cons, encode_nil, List.append_nil]
    have text : reached ++ other :: rest = reached ++ [other] ++ rest := by simp
    rw [List.length_cons, innerLoop, character_encode, ok_bind]
    dsimp only
    rw [cellValue_eq filled (left reached.length (le_refl _)), ok_bind, write_eq_ok row col,
      ok_bind, cursor]
    rw [text] at filled left ⊢
    have further := inductionHypothesis (reached ++ [other]) (table.set (before.length + 1)
      (reached.length + 1) (prefixDistance (before ++ letter :: after) (reached ++ [other] ++ rest)
        (before.length + 1) (reached.length + 1)))
    rw [List.length_append, List.length_singleton] at further
    refine further ⟨filled.rows, filled.cols, fun a inside => ?_, fun a below inside b within => ?_⟩
      fun b within => ?_
    · rw [cells_set, if_neg (by omega)]
      exact filled.column a inside
    · rw [cells_set, if_neg (by omega)]
      exact filled.above a below inside b within
    · rw [cells_set]
      split_ifs with new
      · rw [new.2]
      · exact left b (by omega)

/-- The outer loop fills the table. -/
theorem outerLoop_fills (second rest reached : List Char) (table : Table)
    (filled : Filled (reached ++ rest) second (reached.length + 1) table) :
    ∃ next, outerLoop (encode (reached ++ rest)) (encode second) second.length rest.length
      (reached.length + 1) (encode reached).length table = .ok next ∧
      Filled (reached ++ rest) second ((reached ++ rest).length + 1) next := by
  induction rest generalizing reached table with
  | nil =>
    rw [List.append_nil] at filled ⊢
    exact ⟨table, rfl, filled⟩
  | cons letter rest inductionHypothesis =>
    have cursor : (encode reached).length + (String.utf8EncodeChar letter).length =
        (encode (reached ++ [letter])).length := by
      rw [encode_append, List.length_append, encode_cons, encode_nil, List.append_nil]
    have first (b : Nat) (within : b ≤ ([] : List Char).length) :
        table.cells (reached.length + 1) b =
          prefixDistance (reached ++ letter :: rest) second (reached.length + 1) b := by
      have inside : reached.length + 1 ≤ (reached ++ letter :: rest).length := by simp
      rw [Nat.le_zero.mp within, prefixDistance_zero_right _ _ inside, filled.column _ inside]
    obtain ⟨middle, ended, next⟩ := innerLoop_fills second [] table filled first
    rw [List.nil_append] at ended next
    have text : reached ++ letter :: rest = reached ++ [letter] ++ rest := by simp
    have further := inductionHypothesis (reached ++ [letter]) middle
    rw [List.length_append, List.length_singleton, ← text] at further
    obtain ⟨last, lastEnded, full⟩ := further next
    refine ⟨last, ?_, full⟩
    rw [List.length_cons, outerLoop, character_encode, ok_bind]
    dsimp only
    have inner : innerLoop (encode second) (String.utf8EncodeChar letter) (reached.length + 1)
        second.length 1 0 table = .ok middle := ended
    rw [inner, ok_bind, cursor]
    exact lastEnded

/-- On valid UTF-8 the program computes the edit distance over characters. -/
theorem editDistance_encode (first second : List Char) :
    editDistance (encode first) (encode second) = .ok (EditDistance.distance first second) := by
  have start : ∃ table, (do
      let editDist ← columnLoop (first.length + 1) 0
        ⟨first.length + 1, second.length + 1, fun _ _ => 0⟩
      rowLoop (second.length + 1) 0 editDist) = .ok table ∧ Filled first second 1 table := by
    rw [columnLoop_spec _ _ _ (by simp) (by simp), ok_bind, rowLoop_spec _ _ _ (by simp) (by simp)]
    refine ⟨_, rfl, rfl, rfl, fun a inside => ?_, fun a below inside b within => ?_⟩
    · dsimp only
      split_ifs <;> omega
    · have top : a = 0 := by omega
      rw [top, prefixDistance_zero_left _ _ within]
      dsimp only
      rw [if_pos (by omega)]
  obtain ⟨table, started, filled⟩ := start
  obtain ⟨column, columnEnded, started⟩ := bind_eq_ok.mp started
  obtain ⟨last, ended, full⟩ := outerLoop_fills second first [] table filled
  have outer : outerLoop (encode first) (encode second) second.length first.length 1 0 table =
    .ok last := ended
  have corner := full.above first.length (by simp) (by simp) second.length (le_refl _)
  rw [editDistance, length_encode, ok_bind, length_encode, ok_bind]
  dsimp only
  rw [columnEnded, ok_bind, started, ok_bind, outer, ok_bind,
    read_eq_ok (by rw [full.rows]; simp) (by rw [full.cols]; simp), corner]
  simp [prefixDistance]

/-- For valid strings the program returns, without an access out of range, the least number of
characters to insert, delete or substitute. -/
theorem editDistance_isLeast (lhs rhs : List Char) :
    ∃ dis, editDistance (encode lhs) (encode rhs) = .ok dis ∧
      IsLeast {count | EditDistance.EditedIn count lhs rhs} dis :=
  ⟨_, editDistance_encode lhs rhs, EditDistance.distance_isLeast lhs rhs⟩

end SearchEngine.MinEditDist
