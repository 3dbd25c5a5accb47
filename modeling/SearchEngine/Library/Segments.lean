/-
This file develops the segments of a text that is written record by record.

A record starts where the records before it end, so it is what stands between its
start and the next one. The intervals between the values of a monotone sequence
are disjoint, and they cover what is between the first value and the last, so no
symbol of the text is in two records or in none. A list of intervals of which each
starts where the one before it ends tiles what is between the first start and the
last end. Tilings compose, and what stands in the intervals of a tiling is together
what stands in the tiled interval.
-/

import Mathlib

namespace Segments

/-! ### Records -/

section Records

variable {Symbol : Type*}

/-- What stands between two places of a text. -/
def between (text : List Symbol) (first last : Nat) : List Symbol :=
  (text.drop first).take (last - first)

/-- Where a record starts: behind the records before it. -/
def start (records : List (List Symbol)) (i : Nat) : Nat := (records.take i).flatten.length

variable {records : List (List Symbol)} {record : List Symbol} {i : Nat}

@[simp] theorem start_zero : start records 0 = 0 := rfl

/-- Behind the last record is the end of the text. -/
theorem start_length : start records records.length = records.flatten.length := by
  rw [start, List.take_length]

theorem start_succ (listed : records[i]? = some record) :
    start records (i + 1) = start records i + record.length := by
  obtain ⟨inside, rfl⟩ := List.getElem?_eq_some_iff.mp listed
  rw [start, List.take_succ_eq_append_getElem inside, List.flatten_append, List.length_append,
    List.flatten_singleton, start]

theorem monotone_start : Monotone (start records) := by
  intro i j before
  have earlier : records.take i <+: records.take j := List.take_prefix_take_left before
  obtain ⟨rest, split⟩ := earlier
  rw [start, start, ← split, List.flatten_append, List.length_append]
  exact Nat.le_add_right _ _

/-- A record stands at its start. -/
theorem drop_start (listed : records[i]? = some record) :
    records.flatten.drop (start records i) = record ++ (records.drop (i + 1)).flatten := by
  obtain ⟨inside, rfl⟩ := List.getElem?_eq_some_iff.mp listed
  have split : records.flatten =
      (records.take i).flatten ++ (records[i] ++ (records.drop (i + 1)).flatten) := by
    rw [← List.flatten_cons, List.getElem_cons_drop, ← List.flatten_append, List.take_append_drop]
  rw [split, start, List.drop_left]

/-- A record is what stands between its start and the next one. -/
theorem between_start (listed : records[i]? = some record) :
    between records.flatten (start records i) (start records (i + 1)) = record := by
  rw [between, drop_start listed, start_succ listed, Nat.add_sub_cancel_left, List.take_left]

/-- The records between two of them are what stands between their starts. -/
theorem between_flatten (records : List (List Symbol)) {j : Nat} (ordered : i ≤ j) :
    (between records i j).flatten = between records.flatten (start records i) (start records j) := by
  have front : records.flatten = (records.take i).flatten ++ (records.drop i).flatten := by
    rw [← List.flatten_append, List.take_append_drop]
  have back : (records.drop i).flatten =
      (between records i j).flatten ++ ((records.drop i).drop (j - i)).flatten := by
    rw [between, ← List.flatten_append, List.take_append_drop]
  have reached : start records j = start records i + (between records i j).flatten.length := by
    rw [start, start, ← List.length_append, ← List.flatten_append, between,
      ← List.take_add, Nat.add_sub_cancel' ordered]
  have skipped : records.flatten.drop (start records i) = (records.drop i).flatten := by
    rw [front, start, List.drop_left]
  conv_rhs => rw [between, reached, skipped, back, Nat.add_sub_cancel_left, List.take_left]

end Records

/-! ### Intervals -/

/-- The intervals between the first values of a monotone sequence cover what is between the first
value and the last. -/
theorem biUnion_Ico_succ {Position : Type*} [LinearOrder Position] {cut : Nat → Position}
    (monotone : Monotone cut) (count : Nat) :
    ⋃ i < count, Set.Ico (cut i) (cut (i + 1)) = Set.Ico (cut 0) (cut count) := by
  induction count with
  | zero => simp
  | succ count inductionHypothesis =>
    rw [Set.biUnion_lt_succ, inductionHypothesis]
    exact Set.Ico_union_Ico_eq_Ico (monotone (Nat.zero_le count)) (monotone (Nat.le_succ count))

/-! ### Tilings -/

/-- The intervals are not empty, and each starts where the one before it ends. -/
def Tiles (first last : Nat) : List (Nat × Nat) → Prop
  | [] => first = last
  | (start, stop) :: intervals => start = first ∧ start < stop ∧ Tiles stop last intervals

section Tilings

variable {first middle last start stop : Nat} {intervals others : List (Nat × Nat)}

@[simp] theorem tiles_nil : Tiles first last [] ↔ first = last := Iff.rfl

theorem tiles_cons : Tiles first last ((start, stop) :: intervals) ↔
    start = first ∧ start < stop ∧ Tiles stop last intervals := Iff.rfl

theorem tiles_singleton : Tiles first last [(start, stop)] ↔
    start = first ∧ start < stop ∧ stop = last := Iff.rfl

theorem Tiles.append (front : Tiles first middle intervals) (back : Tiles middle last others) :
    Tiles first last (intervals ++ others) := by
  induction intervals generalizing first with
  | nil =>
    rw [tiles_nil.mp front]
    exact back
  | cons interval intervals inductionHypothesis =>
    obtain ⟨same, nonempty, rest⟩ := front
    exact ⟨same, nonempty, inductionHypothesis rest⟩

theorem Tiles.le (tiles : Tiles first last intervals) : first ≤ last := by
  induction intervals generalizing first with
  | nil => exact (tiles_nil.mp tiles).le
  | cons interval intervals inductionHypothesis =>
    obtain ⟨same, nonempty, rest⟩ := tiles
    have behind := inductionHypothesis rest
    omega

/-- Every interval of a tiling is inside. -/
theorem Tiles.bounds (tiles : Tiles first last intervals) {interval : Nat × Nat}
    (member : interval ∈ intervals) :
    first ≤ interval.1 ∧ interval.1 < interval.2 ∧ interval.2 ≤ last := by
  induction intervals generalizing first with
  | nil => cases member
  | cons other intervals inductionHypothesis =>
    obtain ⟨same, nonempty, rest⟩ := tiles
    rcases List.mem_cons.mp member with rfl | later
    · exact ⟨same.ge, nonempty, rest.le⟩
    · obtain ⟨behind, inside⟩ := inductionHypothesis rest later
      exact ⟨by omega, inside⟩

/-- A tiling can be parted at the end of every interval. -/
theorem tiles_append : Tiles first last (intervals ++ others) ↔
    ∃ middle, Tiles first middle intervals ∧ Tiles middle last others := by
  constructor
  · intro tiles
    induction intervals generalizing first with
    | nil => exact ⟨first, rfl, tiles⟩
    | cons interval intervals inductionHypothesis =>
      obtain ⟨same, nonempty, rest⟩ := tiles
      obtain ⟨middle, front, back⟩ := inductionHypothesis rest
      exact ⟨middle, ⟨same, nonempty, front⟩, back⟩
  · rintro ⟨middle, front, back⟩
    exact front.append back

/-- A tiling ends where its last interval ends. -/
theorem Tiles.getLast (tiles : Tiles first last intervals) (nonempty : intervals ≠ []) :
    (intervals.getLast nonempty).2 = last := by
  obtain ⟨front, final, rfl⟩ : ∃ front final, intervals = front ++ [final] :=
    ⟨_, _, (List.dropLast_append_getLast nonempty).symm⟩
  obtain ⟨middle, -, back⟩ := tiles_append.mp tiles
  rw [List.getLast_append_singleton]
  exact (tiles_singleton.mp back).2.2

/-- Every place is in an interval of a tiling. -/
theorem Tiles.exists_mem (tiles : Tiles first last intervals) {place : Nat} (lower : first ≤ place)
    (upper : place < last) : ∃ interval ∈ intervals, interval.1 ≤ place ∧ place < interval.2 := by
  induction intervals generalizing first with
  | nil =>
    rw [tiles_nil] at tiles
    omega
  | cons interval intervals inductionHypothesis =>
    obtain ⟨same, nonempty, rest⟩ := tiles
    by_cases inside : place < interval.2
    · exact ⟨interval, List.mem_cons_self, same ▸ lower, inside⟩
    · obtain ⟨other, member, around⟩ := inductionHypothesis rest (by omega)
      exact ⟨other, List.mem_cons_of_mem _ member, around⟩

/-- Tilings of the intervals of a tiling are together a tiling. -/
theorem Tiles.flatMap (tiles : Tiles first last intervals) {refine : Nat × Nat → List (Nat × Nat)}
    (refines : ∀ interval ∈ intervals, Tiles interval.1 interval.2 (refine interval)) :
    Tiles first last (intervals.flatMap refine) := by
  induction intervals generalizing first with
  | nil => exact tiles
  | cons interval intervals inductionHypothesis =>
    obtain ⟨same, nonempty, rest⟩ := tiles
    have front := refines interval List.mem_cons_self
    rw [same] at front
    exact front.append (inductionHypothesis rest fun other member =>
      refines other (List.mem_cons_of_mem _ member))

/-- A text between two places is what stands up to a place in the middle and from there on. -/
theorem between_append {Symbol : Type*} (text : List Symbol) (lower : first ≤ middle)
    (upper : middle ≤ last) :
    between text first middle ++ between text middle last = between text first last := by
  have skipped : text.drop middle = (text.drop first).drop (middle - first) := by
    rw [List.drop_drop, Nat.add_sub_cancel' lower]
  rw [between, between, between, skipped,
    show last - first = (middle - first) + (last - middle) by omega, List.take_add]

/-- What stands in the intervals of a tiling is together what stands in the tiled interval. -/
theorem Tiles.flatten_between {Symbol : Type*} (text : List Symbol)
    (tiles : Tiles first last intervals) :
    (intervals.map fun interval => between text interval.1 interval.2).flatten =
      between text first last := by
  induction intervals generalizing first with
  | nil => simp [between, tiles_nil.mp tiles]
  | cons interval intervals inductionHypothesis =>
    obtain ⟨same, nonempty, rest⟩ := tiles
    rw [List.map_cons, List.flatten_cons, inductionHypothesis rest, same,
      between_append text (by omega) rest.le]

/-- A symbol between two places stands at a place between them. -/
theorem mem_between {Symbol : Type*} {text : List Symbol} {symbol : Symbol}
    (member : symbol ∈ between text first last) :
    ∃ place, first ≤ place ∧ place < last ∧ text[place]? = some symbol := by
  obtain ⟨offset, listed⟩ := List.mem_iff_getElem?.mp member
  rw [between, List.getElem?_take, List.getElem?_drop] at listed
  split_ifs at listed with inside
  exact ⟨first + offset, Nat.le_add_right _ _, by omega, listed⟩

theorem between_succ {Symbol : Type*} {text : List Symbol} {symbol : Symbol} {place : Nat}
    (listed : text[place]? = some symbol) : between text place (place + 1) = [symbol] := by
  obtain ⟨inside, rfl⟩ := List.getElem?_eq_some_iff.mp listed
  rw [between, Nat.add_sub_cancel_left, List.drop_eq_getElem_cons inside, List.take_succ_cons,
    List.take_zero]

theorem take_between {Symbol : Type*} (text : List Symbol) (last : Nat) {count : Nat}
    (inside : first + count ≤ last) :
    (between text first last).take count = between text first (first + count) := by
  rw [between, between, List.take_take, Nat.add_sub_cancel_left, min_eq_left (by omega)]

theorem drop_between {Symbol : Type*} (text : List Symbol) (count : Nat) :
    (between text first last).drop count = between text (first + count) last := by
  rw [between, between, List.drop_take, List.drop_drop, Nat.sub_sub]

theorem between_self {Symbol : Type*} (text : List Symbol) : between text 0 text.length = text := by
  rw [between, List.drop_zero, Nat.sub_zero, List.take_length]

/-- What stands between two places inside the text is as long as they are apart. -/
theorem length_between {Symbol : Type*} {text : List Symbol} (inside : last ≤ text.length) :
    (between text first last).length = last - first := by
  rw [between, List.length_take, List.length_drop]
  omega

end Tilings

end Segments
