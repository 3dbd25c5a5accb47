/-
This file models the filter that cuts a sentence at the separators.

A separator is a range of its own, and what stands between two of them is a
range. The ranges tile the sentence, whatever the separators are.
-/

import SearchEngine.Segmenter.Unicode

namespace SearchEngine.Cppjieba

open Segments

/-- `SPECIAL_SEPARATORS`: space, tabulator, newline, and the Chinese comma and full stop. -/
def specialSeparators : Bytes := [32, 9, 10, 0xef, 0xbc, 0x8c, 0xe3, 0x80, 0x82]

/-- `symbols_`, as the constructor of `SegmentBase` sets it. -/
def specialSymbols : List Rune :=
  ((decodeRunesInString specialSeparators).getD []).map RuneStr.rune

example : specialSymbols = [0x20, 0x09, 0x0a, 0xff0c, 0x3002] := by decide

namespace PreFilter

/-- The loop of `Next` over the runes from the cursor on: the end of the range, which is where the
cursor is left. -/
def nextLoop (symbols : List Rune) (begin cursor : Nat) : List RuneStr → Nat
  | [] => cursor
  | rune :: rest =>
    if rune.rune ∈ symbols then if begin = cursor then cursor + 1 else cursor
    else nextLoop symbols begin (cursor + 1) rest

/-- The ranges `Next` returns while `HasNext`, from the cursor on. -/
def ranges (symbols : List Rune) (sentence : List RuneStr) : Nat → Nat → List (Nat × Nat)
  | 0, _ => []
  | rounds + 1, cursor =>
    if cursor = sentence.length then []
    else
      let stop := nextLoop symbols cursor cursor (sentence.drop cursor)
      (cursor, stop) :: ranges symbols sentence rounds stop

variable {symbols : List Rune}

theorem nextLoop_le (symbols : List Rune) (begin cursor : Nat) (rest : List RuneStr) :
    cursor ≤ nextLoop symbols begin cursor rest ∧
      nextLoop symbols begin cursor rest ≤ cursor + rest.length := by
  induction rest generalizing cursor with
  | nil => exact ⟨le_rfl, le_rfl⟩
  | cons rune rest inductionHypothesis =>
    obtain ⟨lower, upper⟩ := inductionHypothesis (cursor + 1)
    rw [nextLoop, List.length_cons]
    split_ifs <;> omega

/-- A range has at least its first rune. -/
theorem lt_nextLoop (symbols : List Rune) (begin : Nat) {rest : List RuneStr}
    (nonempty : rest ≠ []) :
    begin < nextLoop symbols begin begin rest := by
  obtain ⟨rune, rest, rfl⟩ := List.exists_cons_of_ne_nil nonempty
  have behind := (nextLoop_le symbols begin (begin + 1) rest).1
  rw [nextLoop, if_pos rfl]
  split_ifs <;> omega

theorem ranges_tiles (sentence : List RuneStr) {rounds cursor : Nat}
    (inside : cursor ≤ sentence.length) (enough : sentence.length - cursor ≤ rounds) :
    Tiles cursor sentence.length (ranges symbols sentence rounds cursor) := by
  induction rounds generalizing cursor with
  | zero => exact tiles_nil.mpr (by omega)
  | succ rounds inductionHypothesis =>
    rw [ranges]
    split_ifs with atEnd
    · exact tiles_nil.mpr atEnd
    · have left : sentence.drop cursor ≠ [] := by
        intro empty
        have consumed := congrArg List.length empty
        rw [List.length_drop, List.length_nil] at consumed
        omega
      have progress := lt_nextLoop symbols cursor left
      have bound := (nextLoop_le symbols cursor cursor (sentence.drop cursor)).2
      rw [List.length_drop] at bound
      exact tiles_cons.mpr ⟨rfl, progress, inductionHypothesis (by omega) (by omega)⟩

/-- The ranges of a sentence. -/
def all (symbols : List Rune) (sentence : List RuneStr) : List (Nat × Nat) :=
  ranges symbols sentence sentence.length 0

/-- The ranges of a sentence tile it. -/
theorem all_tiles (symbols : List Rune) (sentence : List RuneStr) :
    Tiles 0 sentence.length (all symbols sentence) :=
  ranges_tiles sentence (Nat.zero_le _) (by omega)

/-! ### Separators stand alone -/

/-- In front of the end of a range no separator is passed, unless it is the only rune. -/
theorem nextLoop_free (begin cursor : Nat) (rest : List RuneStr) {rune : RuneStr}
    {passed : Nat} (before : cursor + passed < nextLoop symbols begin cursor rest)
    (listed : rest[passed]? = some rune) (separator : rune.rune ∈ symbols) :
    begin = cursor + passed ∧ nextLoop symbols begin cursor rest = begin + 1 := by
  induction rest generalizing cursor passed with
  | nil => cases listed
  | cons first rest inductionHypothesis =>
    rw [nextLoop] at before ⊢
    by_cases stops : first.rune ∈ symbols
    · rw [if_pos stops] at before ⊢
      split_ifs at before ⊢ with here
      · exact ⟨by omega, by omega⟩
      · omega
    · rw [if_neg stops] at before ⊢
      cases passed with
      | zero =>
        cases listed
        exact absurd separator stops
      | succ passed =>
        obtain ⟨same, stop⟩ := @inductionHypothesis (cursor + 1) passed
          (by omega) listed
        exact ⟨by omega, stop⟩

/-- A range with a separator in it has nothing else. -/
theorem ranges_separate (sentence : List RuneStr) {rounds cursor : Nat} {range : Nat × Nat}
    (member : range ∈ ranges symbols sentence rounds cursor) {index : Nat} {rune : RuneStr}
    (lower : range.1 ≤ index) (upper : index < range.2) (listed : sentence[index]? = some rune)
    (separator : rune.rune ∈ symbols) : range = (index, index + 1) := by
  induction rounds generalizing cursor with
  | zero => cases member
  | succ rounds inductionHypothesis =>
    rw [ranges] at member
    split_ifs at member with atEnd
    · cases member
    · rcases List.mem_cons.mp member with rfl | later
      · dsimp only at lower upper
        have passed : (sentence.drop cursor)[index - cursor]? = some rune := by
          rw [List.getElem?_drop, Nat.add_sub_cancel' lower]
          exact listed
        obtain ⟨same, stop⟩ :=
          nextLoop_free cursor cursor (sentence.drop cursor) (by omega) passed separator
        rw [stop, show cursor = index by omega]
      · exact inductionHypothesis later

end PreFilter

end SearchEngine.Cppjieba
