/-
This file develops the text formats that line-oriented files are written in.

`lines` is what a `getline` loop reads from a text, `decimal` and `decimalInt`
are how a number is printed, and `scanInt` is how a number is read back: blanks
are skipped, a sign is read, and then the longest run of digits. The content is
that lines and numbers that were written are read back. `cut` finds a pattern in
a text.
-/

import Mathlib

namespace Text

/-! ### Lines -/

section Lines

variable {Symbol : Type*} [DecidableEq Symbol]

/-- The lines of a text whose current line has already received `line`. -/
def linesFrom (separator : Symbol) (line : List Symbol) : List Symbol → List (List Symbol)
  | [] => if line = [] then [] else [line]
  | symbol :: rest =>
    if symbol = separator then line :: linesFrom separator [] rest
    else linesFrom separator (line ++ [symbol]) rest

/-- The lines of a text: it is cut at every separator, and what follows the last separator is
a line when it is not empty. -/
def lines (separator : Symbol) (text : List Symbol) : List (List Symbol) :=
  linesFrom separator [] text

variable {separator : Symbol}

theorem linesFrom_append {line : List Symbol} (unbroken : separator ∉ line)
    (start rest : List Symbol) :
    linesFrom separator start (line ++ separator :: rest) =
      (start ++ line) :: lines separator rest := by
  induction line generalizing start with
  | nil => simp [linesFrom, lines]
  | cons symbol line inductionHypothesis =>
    have different : symbol ≠ separator := fun same => unbroken (by simp [same])
    have tail := inductionHypothesis (fun member => unbroken (List.mem_cons_of_mem _ member))
      (start ++ [symbol])
    rw [List.cons_append, linesFrom, if_neg different, tail, List.append_assoc,
      List.singleton_append]

/-- Lines that are each ended by a separator are read back. -/
theorem lines_flatMap {texts : List (List Symbol)} (unbroken : ∀ line ∈ texts, separator ∉ line) :
    lines separator (texts.flatMap fun line => line ++ [separator]) = texts := by
  induction texts with
  | nil => simp [lines, linesFrom]
  | cons line rest inductionHypothesis =>
    rw [List.flatMap_cons, List.append_assoc, List.singleton_append, lines,
      linesFrom_append (unbroken line List.mem_cons_self),
      inductionHypothesis fun other member => unbroken other (List.mem_cons_of_mem _ member),
      List.nil_append]

end Lines

/-! ### Decimal numbers -/

/-- `'0'` to `'9'` -/
def isDigit (byte : UInt8) : Bool := 48 ≤ byte && byte ≤ 57

/-- The blanks `isspace` accepts in the "C" locale. -/
def isSpace (byte : UInt8) : Bool := byte == 32 || (9 ≤ byte && byte ≤ 13)

/-- A natural number in decimal. -/
def decimal (number : Nat) : List UInt8 :=
  (Nat.toDigits 10 number).map fun digit => UInt8.ofNat digit.toNat

/-- An integer in decimal, with a `'-'` when it is negative. -/
def decimalInt (number : Int) : List UInt8 :=
  if number < 0 then 45 :: decimal number.natAbs else decimal number.natAbs

/-- The value of a run of digits. -/
def digitsValue (digits : List UInt8) : Nat :=
  digits.foldl (fun value digit => 10 * value + (digit.toNat - 48)) 0

/-- Read an integer: skip blanks, read a sign, and take the longest run of digits. -/
def scanInt (text : List UInt8) : Option Int :=
  match text.dropWhile isSpace with
  | 45 :: rest => (magnitude rest).map fun value : Nat => -(value : Int)
  | 43 :: rest => (magnitude rest).map fun value : Nat => (value : Int)
  | rest => (magnitude rest).map fun value : Nat => (value : Int)
where
  /-- The value of the digits a text starts with, if there is one. -/
  magnitude (text : List UInt8) : Option Nat :=
    match text.takeWhile isDigit with
    | [] => none
    | digits => some (digitsValue digits)

theorem toNat_toDigits {number : Nat} {digit : Char} (member : digit ∈ Nat.toDigits 10 number) :
    48 ≤ digit.toNat ∧ digit.toNat ≤ 57 :=
  Char.isDigit_iff_toNat.mp (Nat.isDigit_of_mem_toDigits (by decide) (by decide) member)

theorem decimal_ne_nil (number : Nat) : decimal number ≠ [] := by
  rw [decimal, ne_eq, List.map_eq_nil_iff]
  exact Nat.toDigits_ne_nil

theorem isDigit_of_mem_decimal {number : Nat} {byte : UInt8} (member : byte ∈ decimal number) :
    isDigit byte = true := by
  obtain ⟨digit, listed, rfl⟩ := List.mem_map.mp member
  have range := toNat_toDigits listed
  rw [isDigit, Bool.and_eq_true, decide_eq_true_eq, decide_eq_true_eq, UInt8.le_iff_toNat_le,
    UInt8.le_iff_toNat_le, UInt8.toNat_ofNat_of_lt' (lt_of_le_of_lt range.2 (by decide))]
  exact range

@[simp] theorem digitsValue_decimal (number : Nat) : digitsValue (decimal number) = number := by
  have digits : ∀ (text : List Char) (value : Nat),
      (∀ digit ∈ text, 48 ≤ digit.toNat ∧ digit.toNat ≤ 57) →
      (text.map fun digit => UInt8.ofNat digit.toNat).foldl
        (fun value digit => 10 * value + (digit.toNat - 48)) value =
      Nat.ofDigitChars 10 text value := by
    intro text
    induction text with
    | nil => simp
    | cons digit rest inductionHypothesis =>
      intro value range
      have small := range digit List.mem_cons_self
      rw [List.map_cons, List.foldl_cons, Nat.ofDigitChars_cons,
        UInt8.toNat_ofNat_of_lt' (lt_of_le_of_lt small.2 (by decide))]
      exact inductionHypothesis _ fun other member => range other (List.mem_cons_of_mem _ member)
  rw [digitsValue, decimal, digits _ 0 fun digit member => toNat_toDigits member,
    Nat.ofDigitChars_ten_toDigits]

theorem decimal_of_lt {number : Nat} (small : number < 10) :
    decimal number = [UInt8.ofNat (48 + number)] := by
  have letter : ∀ digit < 10, UInt8.ofNat (Nat.digitChar digit).toNat = UInt8.ofNat (48 + digit) := by
    decide
  rw [decimal, Nat.toDigits_of_lt_base small, List.map_singleton, letter number small]

theorem decimal_of_le {number : Nat} (large : 10 ≤ number) :
    decimal number = decimal (number / 10) ++ [UInt8.ofNat (48 + number % 10)] := by
  rw [decimal, Nat.toDigits_of_base_le (by decide) large, List.map_append, ← decimal,
    ← decimal_of_lt (Nat.mod_lt number (by decide)), decimal, decimal,
    Nat.toDigits_of_lt_base (Nat.mod_lt number (by decide))]

/-- A positive number does not begin with a zero. -/
theorem decimal_of_pos {number : Nat} (positive : 0 < number) :
    ∃ first digits, decimal number = first :: digits ∧ first ≠ 48 := by
  induction number using Nat.strong_induction_on with
  | h number inductionHypothesis =>
    by_cases small : number < 10
    · refine ⟨_, [], decimal_of_lt small, ?_⟩
      interval_cases number <;> decide
    · obtain ⟨first, digits, same, nonzero⟩ := inductionHypothesis (number / 10) (by omega) (by omega)
      exact ⟨first, _, by rw [decimal_of_le (by omega), same, List.cons_append], nonzero⟩

theorem isDigit_ne_sign {byte : UInt8} (digit : isDigit byte = true) :
    isSpace byte = false ∧ byte ≠ 45 ∧ byte ≠ 43 := by
  rw [isDigit, Bool.and_eq_true, decide_eq_true_eq, decide_eq_true_eq, UInt8.le_iff_toNat_le,
    UInt8.le_iff_toNat_le] at digit
  have range : 48 ≤ byte.toNat ∧ byte.toNat ≤ 57 := digit
  refine ⟨?_, ?_, ?_⟩
  · simp only [isSpace, Bool.or_eq_false_iff, beq_eq_false_iff_ne, ne_eq, Bool.and_eq_false_iff,
      decide_eq_false_iff_not, UInt8.le_iff_toNat_le, ← UInt8.toNat_inj]
    constructor
    · simp; omega
    · right; simp; omega
  · intro same
    rw [same] at range
    exact absurd range (by decide)
  · intro same
    rw [same] at range
    exact absurd range (by decide)

/-- The digits a number is printed with have its magnitude. -/
theorem magnitude_decimal (number : Nat) : scanInt.magnitude (decimal number) = some number := by
  have all : (decimal number).takeWhile isDigit = decimal number :=
    List.takeWhile_eq_self_iff.mpr fun byte member => isDigit_of_mem_decimal member
  cases digits : decimal number with
  | nil => exact absurd digits (decimal_ne_nil number)
  | cons first rest =>
    rw [digits] at all
    rw [scanInt.magnitude, all]
    show some (digitsValue (first :: rest)) = some number
    rw [← digits, digitsValue_decimal]

/-- A printed number is read back, also behind blanks. -/
theorem scanInt_decimal {blanks : List UInt8} (blank : ∀ byte ∈ blanks, isSpace byte = true)
    (number : Nat) : scanInt (blanks ++ decimal number) = some (number : Int) := by
  have skipped : (blanks ++ decimal number).dropWhile isSpace = decimal number := by
    rw [List.dropWhile_append_of_pos blank]
    cases digits : decimal number with
    | nil => rfl
    | cons first rest =>
      have digit : isDigit first = true :=
        isDigit_of_mem_decimal (digits ▸ List.mem_cons_self)
      rw [List.dropWhile_cons_of_neg (by simp [(isDigit_ne_sign digit).1])]
  have value := magnitude_decimal number
  rw [scanInt, skipped]
  cases digits : decimal number with
  | nil => exact absurd digits (decimal_ne_nil number)
  | cons first rest =>
    have digit : isDigit first = true :=
      isDigit_of_mem_decimal (digits ▸ List.mem_cons_self)
    obtain ⟨_, notMinus, notPlus⟩ := isDigit_ne_sign digit
    rw [digits] at value
    split
    · rename_i rest' same
      exact absurd (List.cons.inj same).1 notMinus
    · rename_i rest' same
      exact absurd (List.cons.inj same).1 notPlus
    · rw [value, Option.map_some]

/-! ### Searching -/

section Searching

variable {Symbol : Type*} [DecidableEq Symbol]

/-- Cut a text at the first place where a pattern stands: what is before it, and what is behind
it. -/
def cut (pattern : List Symbol) : List Symbol → Option (List Symbol × List Symbol)
  | [] => none
  | symbol :: rest =>
    if pattern <+: symbol :: rest then some ([], (symbol :: rest).drop pattern.length)
    else (cut pattern rest).map fun (front, back) => (symbol :: front, back)

variable {pattern : List Symbol}

theorem append_of_cut {text front back : List Symbol}
    (found : cut pattern text = some (front, back)) :
    text = front ++ (pattern ++ back) := by
  induction text generalizing front with
  | nil => cases found
  | cons symbol rest inductionHypothesis =>
    rw [cut] at found
    split_ifs at found with here
    · obtain ⟨later, same⟩ := here
      cases found
      rw [← same, List.drop_left, List.nil_append]
    · obtain ⟨⟨before, behind⟩, later, same⟩ := Option.map_eq_some_iff.mp found
      cases same
      rw [List.cons_append, ← inductionHypothesis later]

/-- A text in which the pattern nowhere begins is passed over. -/
theorem cut_append {passed text : List Symbol}
    (absent : ∀ front back, passed = front ++ back → back ≠ [] → ¬ pattern <+: back ++ text) :
    cut pattern (passed ++ text) =
      (cut pattern text).map fun (front, back) => (passed ++ front, back) := by
  induction passed with
  | nil => cases found : cut pattern text <;> simp [found]
  | cons symbol passed inductionHypothesis =>
    have here := absent [] (symbol :: passed) rfl (List.cons_ne_nil _ _)
    rw [List.cons_append] at here ⊢
    rw [cut, if_neg here, inductionHypothesis fun front back split => ?_, Option.map_map]
    · rfl
    · exact absent (symbol :: front) back (by rw [split, List.cons_append])

/-- A single symbol is found at its first occurrence. -/
theorem cut_singleton {symbol : Symbol} {front : List Symbol} (absent : symbol ∉ front)
    (back : List Symbol) : cut [symbol] (front ++ symbol :: back) = some (front, back) := by
  rw [cut_append]
  · rw [cut, if_pos (by simp)]
    simp
  · rintro before behind rfl nonempty begins
    cases behind with
    | nil => exact nonempty rfl
    | cons first behind =>
      rw [List.cons_append, List.cons_prefix_cons] at begins
      exact absent (by simp [begins.1])

end Searching
end Text
