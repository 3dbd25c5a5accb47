/-
This file proves that the offsets of the page library are exact.

`store` notes where each page begins and ends, and `initOffset` reads the notes
back into a map from ids to ranges. A position below `2 ^ 31` comes through
`std::stoi`, `std::stod` and the `int` it is kept as unchanged. So of a page file
that is shorter, the ranges are the segments of the pages: each holds its page,
the next one begins where it ends, and every byte is in exactly one of them.
-/

import SearchEngine.PageDump.PageProducer

namespace SearchEngine

open Containers PageProducer

/-! ### The positions of the pages -/

namespace PageProducer

variable {rss : List RssItem}

theorem position_length (rss : List RssItem) : position rss rss.length = (store rss).1.length := by
  rw [position_eq_start, store_fst, ← Segments.start_length, length_pages]

theorem monotone_position (rss : List RssItem) : Monotone (position rss) := by
  intro i j before
  rw [position_eq_start, position_eq_start]
  exact Segments.monotone_start before

/-- Every position of a page is inside the page file. -/
theorem position_le_length {i : Nat} (inside : i ≤ rss.length) :
    position rss i ≤ (store rss).1.length :=
  (monotone_position rss inside).trans_eq (position_length rss)

/-- A page is what stands between its position and the next one. -/
theorem between_position {i : Nat} {item : RssItem} (stored : rss[i]? = some item) :
    Segments.between (store rss).1 (position rss i) (position rss (i + 1)) = page (i + 1) item := by
  rw [store_fst, position_eq_start, position_eq_start, Segments.between_start (listed_pages stored)]

/-- A page begins with its `<doc>` and ends with the line end behind its `</doc>`. -/
theorem page_framed (id : Nat) (item : RssItem) :
    ascii "<doc>\n" <+: page id item ∧ ascii "</doc>\n" <:+ page id item := by
  refine ⟨?_, List.suffix_append _ _⟩
  rw [page]
  simp only [List.append_assoc]
  exact List.prefix_append _ _

end PageProducer

/-! ### The ranges that are read -/

namespace WebPageSearcher

/-- The places of the bytes that a range has. -/
def places (range : Int × Int) : Set Int := Set.Ico range.1 range.2

/-- The bytes that a file has in a range. -/
def bytesOf (file : Bytes) (range : Int × Int) : Bytes :=
  Segments.between file range.1.toNat range.2.toNat

/-- The offsets of items are exact for a page file. -/
structure ExactOffsets (rss : List RssItem) (file : Bytes)
    (offset : AList fun _ : Int => Int × Int) : Prop where
  keys : ∀ key, key ∈ offset ↔ 1 ≤ key ∧ key ≤ rss.length
  ordered : ∀ key ∈ offset, 0 ≤ (value offset key).1 ∧ (value offset key).1 < (value offset key).2
  content : ∀ i item, rss[i]? = some item →
    bytesOf file (value offset (i + 1 : Nat)) = page (i + 1) item
  framed : ∀ key ∈ offset, ascii "<doc>\n" <+: bytesOf file (value offset key) ∧
    ascii "</doc>\n" <:+ bytesOf file (value offset key)
  begins : rss ≠ [] → (value offset 1).1 = 0
  consecutive : ∀ key ∈ offset, key + 1 ∈ offset →
    (value offset (key + 1)).1 = (value offset key).2
  ends : rss ≠ [] → (value offset rss.length).2 = file.length
  disjoint : ∀ key ∈ offset, ∀ other ∈ offset, key ≠ other →
    Disjoint (places (value offset key)) (places (value offset other))
  covered : ⋃ key ∈ offset, places (value offset key) = Set.Ico 0 (file.length : Int)

theorem mem_insertOffsets {entries : List PageProducer.Offset} {key : Int}
    {offset : AList fun _ : Int => Int × Int} :
    key ∈ insertOffsets entries offset ↔
      (∃ entry ∈ entries, (entry.idx : Int) = key) ∨ key ∈ offset := by
  induction entries generalizing offset with
  | nil => simp [insertOffsets]
  | cons entry entries inductionHypothesis =>
    refine inductionHypothesis.trans ?_
    rw [AList.mem_insert, List.exists_mem_cons_iff, eq_comm (a := key), or_left_comm, or_assoc]

variable {rss : List RssItem}

/-- The ids of the pages are the numbers of their items. -/
theorem mem_offsets_iff {key : Int} :
    key ∈ insertOffsets (offsets rss) ∅ ↔ ∃ i < rss.length, ((i + 1 : Nat) : Int) = key := by
  have ids (id : Nat) : (∃ entry ∈ offsets rss, entry.idx = id) ↔ 1 ≤ id ∧ id ≤ rss.length := by
    rw [← List.mem_map, offsets, map_idx_storeLoop, List.mem_range'_1]
    omega
  rw [mem_insertOffsets, or_iff_left (AList.notMem_empty key)]
  constructor
  · rintro ⟨entry, member, rfl⟩
    obtain ⟨lower, upper⟩ := (ids entry.idx).mp ⟨entry, member, rfl⟩
    exact ⟨entry.idx - 1, by omega, by omega⟩
  · rintro ⟨i, inside, rfl⟩
    obtain ⟨entry, member, same⟩ := (ids (i + 1)).mpr ⟨by omega, inside⟩
    exact ⟨entry, member, by rw [same]⟩

/-- In a short page file, the range of a page is kept as it was noted. -/
theorem value_offsets_of_short (short : (store rss).1.length < 2 ^ 31) {i : Nat}
    (inside : i < rss.length) :
    value (insertOffsets (offsets rss) ∅) ((i + 1 : Nat) : Int) =
      ((position rss i : Int), (position rss (i + 1) : Int)) := by
  have fits : position rss (i + 1) < 2 ^ 31 := (position_le_length inside).trans_lt short
  rw [value_offsets inside, nearestDouble_of_lt (fits.trans (by norm_num)), toInt_of_lt fits]

theorem monotone_positions (rss : List RssItem) : Monotone fun i => (position rss i : Int) :=
  fun _ _ before => Int.ofNat_le.mpr (monotone_position rss before)

/-- No page is empty. -/
theorem position_lt_succ {i : Nat} (inside : i < rss.length) :
    (position rss i : Int) < position rss (i + 1) := by
  have longer := position_succ (List.getElem?_eq_getElem inside)
  have nonempty := (page_framed (i + 1) rss[i]).1.length_le
  have begin : (ascii "<doc>\n").length = 6 := by decide
  omega

section Short

variable (short : (store rss).1.length < 2 ^ 31)

include short

/-- The range of an id holds its page. -/
theorem bytesOf_offsets {i : Nat} {item : RssItem} (stored : rss[i]? = some item) :
    bytesOf (store rss).1 (value (insertOffsets (offsets rss) ∅) ((i + 1 : Nat) : Int)) =
      page (i + 1) item := by
  obtain ⟨inside, -⟩ := List.getElem?_eq_some_iff.mp stored
  rw [value_offsets_of_short short inside, bytesOf, Int.toNat_natCast, Int.toNat_natCast,
    between_position stored]

/-- No byte is in the ranges of two ids. -/
theorem offsets_disjoint {i j : Nat} (inside : i < rss.length) (otherInside : j < rss.length)
    (different : i ≠ j) :
    Disjoint (places (value (insertOffsets (offsets rss) ∅) ((i + 1 : Nat) : Int)))
      (places (value (insertOffsets (offsets rss) ∅) ((j + 1 : Nat) : Int))) := by
  rw [value_offsets_of_short short inside, value_offsets_of_short short otherInside]
  exact (monotone_positions rss).pairwise_disjoint_on_Ico_succ different

/-- Every byte of the page file is in the range of an id. -/
theorem offsets_covered :
    ⋃ key ∈ insertOffsets (offsets rss) ∅, places (value (insertOffsets (offsets rss) ∅) key) =
      Set.Ico 0 ((store rss).1.length : Int) := by
  have whole := Segments.biUnion_Ico_succ (monotone_positions rss) rss.length
  rw [position_length] at whole
  refine Eq.trans ?_ whole
  ext place
  simp only [Set.mem_iUnion, exists_prop]
  constructor
  · rintro ⟨key, member, placed⟩
    obtain ⟨i, inside, rfl⟩ := mem_offsets_iff.mp member
    rw [value_offsets_of_short short inside] at placed
    exact ⟨i, inside, placed⟩
  · rintro ⟨i, inside, placed⟩
    refine ⟨_, mem_offsets_iff.mpr ⟨i, inside, rfl⟩, ?_⟩
    rw [value_offsets_of_short short inside]
    exact placed

/-- What is read from the offset file of a short page file is exact for it. -/
theorem exactOffsets_offsets :
    ExactOffsets rss (store rss).1 (insertOffsets (offsets rss) ∅) where
  keys := fun key => by
    rw [mem_offsets_iff]
    constructor
    · rintro ⟨i, inside, rfl⟩
      omega
    · rintro ⟨lower, upper⟩
      exact ⟨key.toNat - 1, by omega, by omega⟩
  ordered := fun key member => by
    obtain ⟨i, inside, rfl⟩ := mem_offsets_iff.mp member
    rw [value_offsets_of_short short inside]
    exact ⟨Int.natCast_nonneg _, position_lt_succ inside⟩
  content := fun i item stored => bytesOf_offsets short stored
  framed := fun key member => by
    obtain ⟨i, inside, rfl⟩ := mem_offsets_iff.mp member
    rw [bytesOf_offsets short (List.getElem?_eq_getElem inside)]
    exact page_framed (i + 1) rss[i]
  begins := fun nonempty => by
    have first := value_offsets_of_short short (List.length_pos_iff.mpr nonempty)
    rw [Nat.zero_add, Nat.cast_one] at first
    rw [first]
    rfl
  consecutive := fun key member later => by
    obtain ⟨i, inside, rfl⟩ := mem_offsets_iff.mp member
    obtain ⟨j, insideNext, same⟩ := mem_offsets_iff.mp later
    obtain rfl : j = i + 1 := by omega
    rw [← same, value_offsets_of_short short insideNext, value_offsets_of_short short inside]
  ends := fun nonempty => by
    have positive := List.length_pos_iff.mpr nonempty
    have last := value_offsets_of_short short (Nat.sub_one_lt_of_lt positive)
    rw [Nat.sub_add_cancel positive, position_length] at last
    rw [last]
  disjoint := fun key member other otherMember different => by
    obtain ⟨i, inside, rfl⟩ := mem_offsets_iff.mp member
    obtain ⟨j, otherInside, rfl⟩ := mem_offsets_iff.mp otherMember
    exact offsets_disjoint short inside otherInside fun same => different (by rw [same])
  covered := offsets_covered short

end Short

/-- The offset file of a page file that is shorter than `2 ^ 31` bytes is read, and gives the exact
offsets of its pages. -/
theorem initOffset_store_exact (short : (store rss).1.length < 2 ^ 31) :
    ∃ offset, initOffset (store rss).2 = .ok offset ∧ ExactOffsets rss (store rss).1 offset := by
  refine ⟨_, (initOffset_store rss _).mpr ⟨fun i inside => ?_, rfl⟩, exactOffsets_offsets short⟩
  exact (position_le_length inside.le).trans_lt short

/-- Two items, of which the second has a line end in its text. -/
theorem initOffset_store_exact_two :
    let rss : List RssItem := [⟨ascii "a", ascii "b", ascii "c"⟩, ⟨[], ascii "d", [10, 60]⟩]
    ∃ offset, initOffset (store rss).2 = .ok offset ∧ ExactOffsets rss (store rss).1 offset :=
  initOffset_store_exact (by decide +kernel)

end WebPageSearcher

end SearchEngine
