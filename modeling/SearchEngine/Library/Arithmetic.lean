/-
This file fixes what the model knows about the type `double`.

The operations stay abstract, so that a result holds for rounded arithmetic and
for exact arithmetic alike. Of the comparison only irreflexivity and
transitivity are known. Both hold in the presence of values that compare with
nothing. Exact arithmetic is one instance, in which a list of numbers is scaled by
the root of the sum of its squares.
-/

import Mathlib

/-- The operations of a floating-point type that a program uses. -/
class Arithmetic (Number : Type) extends Add Number, Mul Number, Div Number where
  ofInt : Int → Number
  sqrt : Number → Number
  log2 : Number → Number
  less : Number → Number → Bool
  less_irrefl : ∀ number, ¬ less number number
  less_trans : ∀ first second third, less first second → less second third → less first third

/-- Whole numbers, with the operations rounded down. -/
@[reducible] def wholeNumbers : Arithmetic Nat where
  ofInt := Int.toNat
  sqrt := Nat.sqrt
  log2 := Nat.log2
  less first second := decide (first < second)
  less_irrefl number := by simp
  less_trans first second third left right := by
    simp only [decide_eq_true_eq] at left right ⊢
    exact left.trans right

/-- The operations of a program that adds up logarithms: besides the ones above the natural
logarithm, and the comparison `>=`, which is not the negation of `<` where a value compares with
nothing. -/
class LogArithmetic (Number : Type) extends Arithmetic Number where
  log : Number → Number
  atLeast : Number → Number → Bool

/-- The integers, with the operations rounded. -/
@[reducible] def integers : LogArithmetic Int where
  ofInt number := number
  sqrt number := Int.sqrt number
  log2 number := Nat.log2 number.toNat
  log number := Nat.log 3 number.toNat
  less first second := decide (first < second)
  atLeast first second := decide (second ≤ first)
  less_irrefl number := by simp
  less_trans first second third left right := by
    simp only [decide_eq_true_eq] at left right ⊢
    exact left.trans right

/-! ### Exact arithmetic -/

open Classical in
/-- The real numbers, with the operations as they are. -/
@[reducible] noncomputable def realNumbers : Arithmetic ℝ where
  ofInt number := number
  sqrt := Real.sqrt
  log2 := Real.logb 2
  less first second := decide (first < second)
  less_irrefl number := by simp
  less_trans first second third left right := by
    simp only [decide_eq_true_eq] at left right ⊢
    exact left.trans right

open Classical in
/-- The real numbers, with logarithms. -/
@[reducible] noncomputable def realLogarithms : LogArithmetic ℝ where
  toArithmetic := realNumbers
  log := Real.log
  atLeast first second := decide (second ≤ first)

namespace Arithmetic

/-! ### Exact sums -/

/-- Sums are exact, and the comparison is a linear order that sums respect. -/
structure ExactSums (Number : Type) [Arithmetic Number] [LinearOrder Number] : Prop where
  less_iff : ∀ first second : Number, less first second = true ↔ first < second
  add_assoc : ∀ first second third : Number, first + second + third = first + (second + third)
  add_comm : ∀ first second : Number, first + second = second + first
  zero_add : ∀ number : Number, ofInt 0 + number = number
  add_le_add : ∀ first second third : Number, first ≤ second → first + third ≤ second + third

theorem exactSums_real :
    letI := realNumbers
    ExactSums ℝ := by
  let := realNumbers
  refine ⟨fun first second => decide_eq_true_iff, AddSemigroup.add_assoc, AddCommMagma.add_comm,
    fun number => ?_, fun first second third smaller => ?_⟩
  · show ((0 : Int) : ℝ) + number = number
    simp
  · exact add_le_add_left smaller third

theorem exactSums_integers :
    letI := integers
    ExactSums Int := by
  let := integers
  exact ⟨fun first second => decide_eq_true_iff, Int.add_assoc, Int.add_comm, Int.zero_add,
    fun first second third smaller => Int.add_le_add_right smaller third⟩

/-- The comparison `>=` is the one of the linear order, too. -/
structure ExactLogarithms (Number : Type) [LogArithmetic Number] [LinearOrder Number] : Prop
    extends ExactSums Number where
  atLeast_iff : ∀ first second : Number,
    LogArithmetic.atLeast first second = true ↔ second ≤ first

theorem exactLogarithms_real :
    letI := realLogarithms
    ExactLogarithms ℝ := by
  let := realLogarithms
  exact ⟨exactSums_real, fun first second => decide_eq_true_iff⟩

theorem exactLogarithms_integers :
    letI := integers
    ExactLogarithms Int := by
  let := integers
  exact ⟨exactSums_integers, fun first second => decide_eq_true_iff⟩

/-- The sum of a list, added up from its end. -/
def total {Number : Type} [Arithmetic Number] (values : List Number) : Number :=
  values.foldr (· + ·) (ofInt 0)

@[simp] theorem total_nil {Number : Type} [Arithmetic Number] :
    total ([] : List Number) = ofInt 0 := rfl

/-! ### Sums of squares -/

/-- The sum of the squares of a list of numbers. -/
noncomputable def squares (values : List ℝ) : ℝ := (values.map (· ^ 2)).sum

theorem sq_le_squares {values : List ℝ} {value : ℝ} (member : value ∈ values) :
    value ^ 2 ≤ squares values := by
  refine List.single_le_sum (fun square listed => ?_) _ (List.mem_map_of_mem member)
  obtain ⟨other, -, rfl⟩ := List.mem_map.mp listed
  exact sq_nonneg other

/-- The sum vanishes only where all numbers do. -/
theorem squares_pos_iff {values : List ℝ} : 0 < squares values ↔ ∃ value ∈ values, value ≠ 0 := by
  constructor
  · intro positive
    by_contra zero
    push Not at zero
    refine positive.ne' (List.sum_eq_zero fun square listed => ?_)
    obtain ⟨value, member, rfl⟩ := List.mem_map.mp listed
    rw [zero value member, zero_pow two_ne_zero]
  · rintro ⟨value, member, nonzero⟩
    exact (sq_pos_of_ne_zero nonzero).trans_le (sq_le_squares member)

/-- A number over the root of the sum of the squares is at most one. -/
theorem div_sqrt_squares_le_one {values : List ℝ} {value : ℝ} (member : value ∈ values) :
    value / Real.sqrt (squares values) ≤ 1 :=
  div_le_one_of_le₀ ((le_abs_self value).trans (Real.abs_le_sqrt (sq_le_squares member)))
    (Real.sqrt_nonneg _)

theorem div_sqrt_squares_nonneg_iff {values : List ℝ} {value : ℝ}
    (positive : 0 < squares values) :
    0 ≤ value / Real.sqrt (squares values) ↔ 0 ≤ value := by
  rw [le_div_iff₀ (Real.sqrt_pos.mpr positive), zero_mul]

end Arithmetic
