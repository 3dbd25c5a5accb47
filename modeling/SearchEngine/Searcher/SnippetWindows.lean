/-
This file determines the windows that are cut out of a description.

The window around a position begins at the first character boundary behind the
30th byte in front of it, and ends at the first one behind the 30th byte behind
it. The subtraction is one of `size_t`: in front of byte 30 it wraps around to a
number no boundary reaches, so that the window begins with the description. The
search for the end stops the loop, and where it finds nothing the window ends with
the description.
-/

import SearchEngine.Searcher.Exceptions

namespace SearchEngine

open Utf8 Widths

/-! ### The loop -/

/-- Where the search for the beginning ends: the first stop behind `low` that is not behind the end
of the window. -/
def beginning (low high start : Nat) (word : Bytes) : Option Nat :=
  (firstStop nBytesCode low start word).filter fun stop =>
    (firstStop nBytesCode high start word).all fun last => stop ≤ last

/-- A character that reaches over `low` begins the window. -/
theorem beginning_of_reached {low high start : Nat} {lead : UInt8}
    (reaches : low < start + nBytesCode lead) (word : Bytes) :
    beginning low high start (lead :: word) = some (start + nBytesCode lead) := by
  have first : firstStop nBytesCode low start (lead :: word) = some (start + nBytesCode lead) := by
    rw [firstStop, if_pos reaches]
  rw [beginning, first, Option.filter_some]
  refine if_pos ?_
  rw [firstStop]
  split_ifs with ends
  · simp
  · cases found : firstStop nBytesCode high (start + nBytesCode lead) word with
    | none => rfl
    | some last =>
      obtain ⟨_, _, _, _, _, long, _⟩ := firstStop_eq_some nBytesCode (not_lt.mp ends) found
      simp only [Option.all_some, decide_eq_true_eq]
      omega

/-- Behind any other character the window begins later, unless it ends there. -/
theorem beginning_of_short {low high start : Nat} {lead : UInt8}
    (short : start + nBytesCode lead ≤ low) (word : Bytes) :
    beginning low high start (lead :: word) =
      if high < start + nBytesCode lead then none
      else beginning low high (start + nBytesCode lead) word := by
  have later : firstStop nBytesCode low start (lead :: word) =
      firstStop nBytesCode low (start + nBytesCode lead) word := by
    rw [firstStop, if_neg (not_lt.mpr short)]
  rw [beginning, later, firstStop]
  split_ifs with ends
  · cases found : firstStop nBytesCode low (start + nBytesCode lead) word with
    | none => rfl
    | some stop =>
      obtain ⟨_, _, _, _, _, long, _⟩ := firstStop_eq_some nBytesCode short found
      rw [Option.filter_some]
      refine if_neg ?_
      simp only [Option.all_some, decide_eq_true_eq]
      omega
  · rfl

/-- The loop finds the first stops behind its two bounds. -/
theorem windowLoop_eq {description : Bytes} (idx : UInt64) (rest : Bytes) {rounds k : Nat}
    (behind : description.drop k = rest) (enough : rest.length ≤ rounds) (idx_byte_begin : Nat)
    (ch_begin_flag : Bool) :
    windowLoop description idx rounds k idx_byte_begin ch_begin_flag =
      (if ch_begin_flag then idx_byte_begin
        else (beginning (idx - 30).toNat (idx + 30).toNat k (leads nBytesCode rest)).getD
          idx_byte_begin,
        (firstStop nBytesCode (idx + 30).toNat k (leads nBytesCode rest)).getD 0) := by
  induction rest using Widths.induction nBytesCode generalizing rounds k idx_byte_begin
    ch_begin_flag with
  | nil =>
    have ended : windowLoop description idx rounds k idx_byte_begin ch_begin_flag =
        (idx_byte_begin, 0) := by
      cases rounds with
      | zero => rfl
      | succ rounds =>
        rw [windowLoop, ← List.head?_drop, behind]
        rfl
    rw [ended]
    cases ch_begin_flag <;> rfl
  | cons first rest inductionHypothesis =>
    rw [List.length_cons] at enough
    obtain ⟨fewer, rfl⟩ : ∃ fewer, rounds = fewer + 1 := ⟨rounds - 1, by omega⟩
    have positive := nBytesCode_pos first
    have next : description.drop (k + nBytesCode first) = rest.drop (nBytesCode first - 1) := by
      obtain ⟨size, same⟩ : ∃ size, nBytesCode first = size + 1 := ⟨nBytesCode first - 1, by omega⟩
      rw [← List.drop_drop, behind, same, List.drop_succ_cons, Nat.add_sub_cancel]
    have fits : (rest.drop (nBytesCode first - 1)).length ≤ fewer := by
      rw [List.length_drop]
      omega
    rw [windowLoop, ← List.head?_drop, behind, List.head?_cons, leads_cons, firstStop]
    dsimp only
    rw [WebPageSearcher.nBytesCode, inductionHypothesis next fits]
    by_cases reaches : (idx - 30).toNat < k + nBytesCode first
    · rw [beginning_of_reached reaches, decide_eq_true reaches]
      by_cases ends : (idx + 30).toNat < k + nBytesCode first
      · rw [if_pos ends, if_pos ends]
        cases ch_begin_flag <;> rfl
      · rw [if_neg ends, if_neg ends]
        cases ch_begin_flag <;> rfl
    · rw [beginning_of_short (not_lt.mp reaches), decide_eq_false reaches]
      by_cases ends : (idx + 30).toNat < k + nBytesCode first
      · rw [if_pos ends, if_pos ends, if_pos ends]
        cases ch_begin_flag <;> rfl
      · rw [if_neg ends, if_neg ends, if_neg ends]
        cases ch_begin_flag <;> rfl

/-! ### The byte range -/

/-- `idx_byte_begin` and `idx_byte_end` behind the loop. -/
def byteRange (description : Bytes) (idx : UInt64) : Nat × Nat :=
  let (idx_byte_begin, idx_byte_end) := windowLoop description idx description.length 0 0 false
  (idx_byte_begin, if idx_byte_end = 0 then description.length else idx_byte_end)

/-- The bytes that are copied are those of the range. -/
theorem snippet_eq (description : Bytes) (idx : UInt64) :
    snippet description idx =
      if (byteRange description idx).2 ≤ (byteRange description idx).1 ∨
          (byteRange description idx).2 ≤ description.length + 1 then
        .ok (((description ++ [0]).take (byteRange description idx).2).drop
          (byteRange description idx).1)
      else .error .outOfBounds := rfl

/-- The position is at least 30, and 30 less than the largest `size_t` at most. -/
def Inner (idx : UInt64) : Prop := 30 ≤ idx.toNat ∧ idx.toNat + 30 < 2 ^ 64

instance (idx : UInt64) : Decidable (Inner idx) := inferInstanceAs (Decidable (_ ∧ _))

theorem toNat_sub_thirty {idx : UInt64} (inner : Inner idx) :
    (idx - 30).toNat = idx.toNat - 30 := by
  obtain ⟨front, -⟩ := inner
  have bounded := idx.toNat_lt
  rw [UInt64.toNat_sub, show (30 : UInt64).toNat = 30 from rfl]
  omega

theorem toNat_add_thirty {idx : UInt64} (fits : idx.toNat + 30 < 2 ^ 64) :
    (idx + 30).toNat = idx.toNat + 30 := by
  rw [UInt64.toNat_add, show (30 : UInt64).toNat = 30 from rfl]
  omega

/-- At any other position one of the two bounds wraps around. -/
theorem bounds_apart {idx : UInt64} (outer : ¬ Inner idx) :
    (idx + 30).toNat + 7 < (idx - 30).toNat := by
  have bounded := idx.toNat_lt
  rw [Inner] at outer
  rw [UInt64.toNat_sub, UInt64.toNat_add, show (30 : UInt64).toNat = 30 from rfl]
  omega

theorem beginning_of_le {low high : Nat} (ordered : low ≤ high) (word : Bytes) :
    beginning low high 0 word = firstStop nBytesCode low 0 word := by
  rw [beginning]
  cases first : firstStop nBytesCode low 0 word with
  | none => rfl
  | some stop =>
    refine Option.filter_some_pos ?_
    cases found : firstStop nBytesCode high 0 word with
    | none => rfl
    | some last =>
      obtain ⟨earlier, same, before⟩ := firstStop_mono nBytesCode ordered found
      rw [first] at same
      rw [Option.all_some, decide_eq_true_eq, Option.some.inj same]
      exact before

theorem beginning_of_apart {low high : Nat} (apart : high + 7 < low) (word : Bytes) :
    beginning low high 0 word = none := by
  rw [beginning]
  cases first : firstStop nBytesCode low 0 word with
  | none => rfl
  | some stop =>
    obtain ⟨last, found, -⟩ := firstStop_mono nBytesCode (show high ≤ low by omega) first
    obtain ⟨_, _, _, _, _, long, _⟩ := firstStop_eq_some nBytesCode (Nat.zero_le low) first
    obtain ⟨_, lead, _, _, short, _, sum⟩ := firstStop_eq_some nBytesCode (Nat.zero_le high) found
    have width := nBytesCode_le lead
    refine Option.filter_some_neg ?_
    rw [found, Option.all_some, decide_eq_false_iff_not]
    omega

/-- A stop is not mistaken for the zero that says there is none. -/
theorem getD_firstStop (bound otherwise : Nat) (word : Bytes) :
    (if (firstStop nBytesCode bound 0 word).getD 0 = 0 then otherwise
      else (firstStop nBytesCode bound 0 word).getD 0) =
      (firstStop nBytesCode bound 0 word).getD otherwise := by
  cases found : firstStop nBytesCode bound 0 word with
  | none => rfl
  | some stop =>
    obtain ⟨_, _, _, _, _, long, _⟩ := firstStop_eq_some nBytesCode (Nat.zero_le bound) found
    rw [Option.getD_some, Option.getD_some, if_neg (by omega)]

theorem byteRange_eq (description : Bytes) (idx : UInt64) :
    byteRange description idx =
      ((beginning (idx - 30).toNat (idx + 30).toNat 0 (leads nBytesCode description)).getD 0,
        (firstStop nBytesCode (idx + 30).toNat 0 (leads nBytesCode description)).getD
          description.length) := by
  rw [byteRange, windowLoop_eq idx description (List.drop_zero ..) le_rfl]
  dsimp only
  rw [getD_firstStop, if_neg Bool.false_ne_true]

theorem byteRange_of_inner (description : Bytes) {idx : UInt64} (inner : Inner idx) :
    byteRange description idx =
      ((firstStop nBytesCode (idx.toNat - 30) 0 (leads nBytesCode description)).getD 0,
        (firstStop nBytesCode (idx.toNat + 30) 0 (leads nBytesCode description)).getD
          description.length) := by
  rw [byteRange_eq, toNat_sub_thirty inner, toNat_add_thirty inner.2, beginning_of_le (by omega)]

theorem byteRange_of_not_inner (description : Bytes) {idx : UInt64} (outer : ¬ Inner idx) :
    byteRange description idx =
      (0, (firstStop nBytesCode (idx + 30).toNat 0 (leads nBytesCode description)).getD
        description.length) := by
  rw [byteRange_eq, beginning_of_apart (bounds_apart outer), Option.getD_none]

/-! ### Windows of valid descriptions -/

section Valid

variable {letters : List Char}

theorem width_le_four {lead : UInt8} (member : lead ∈ leads nBytesCode (encode letters)) :
    nBytesCode lead ≤ 4 := by
  induction letters with
  | nil => exact absurd member List.not_mem_nil
  | cons letter letters inductionHypothesis =>
    obtain ⟨first, trail, split, size⟩ := nBytesCode_utf8EncodeChar letter
    have short := letter.utf8Size_le_four
    rw [← String.length_utf8EncodeChar, ← size] at short
    rw [split, List.length_cons] at size
    rw [encode_cons, split, List.cons_append, leads_cons, size, Nat.add_sub_cancel, List.drop_left,
      List.mem_cons] at member
    rcases member with rfl | later
    · exact short
    · exact inductionHypothesis later

/-- In a valid description a stop is at most four bytes behind the bound, and inside. -/
theorem firstStop_encode {bound stop : Nat}
    (found : firstStop nBytesCode bound 0 (leads nBytesCode (encode letters)) = some stop) :
    bound < stop ∧ stop ≤ bound + 4 ∧ stop ≤ (encode letters).length := by
  obtain ⟨before, lead, after, split, short, long, sum⟩ :=
    firstStop_eq_some nBytesCode (Nat.zero_le bound) found
  have member : lead ∈ leads nBytesCode (encode letters) := by
    rw [split]
    exact List.mem_append_right _ List.mem_cons_self
  have width := width_le_four member
  have total : extent nBytesCode (encode letters) = (encode letters).length := exact_encode letters
  rw [extent, split, List.map_append, List.map_cons, List.sum_append, List.sum_cons] at total
  omega

theorem firstStop_encode_none {bound : Nat} :
    firstStop nBytesCode bound 0 (leads nBytesCode (encode letters)) = none ↔
      (encode letters).length ≤ bound := by
  have total : extent nBytesCode (encode letters) = (encode letters).length := exact_encode letters
  rw [firstStop_eq_none nBytesCode (Nat.zero_le bound), Nat.zero_add, ← extent, total]

/-- What is asked of the window around a position: it lies in the description, is cut between
characters, is not longer than 63 bytes, and contains the position. -/
structure WindowAround (letters : List Char) (position : Nat) (range : Nat × Nat) : Prop where
  ordered : range.1 ≤ range.2
  inside : range.2 ≤ (encode letters).length
  begins : Boundary letters range.1
  ends : Boundary letters range.2
  short : range.2 - range.1 ≤ 63
  contains : range.1 ≤ position ∧ position < range.2

/-- The end of a window, whether a boundary is found or not. -/
theorem getD_firstStop_encode (letters : List Char) (bound : Nat) :
    let last := (firstStop nBytesCode bound 0 (leads nBytesCode (encode letters))).getD
      (encode letters).length
    last ≤ bound + 4 ∧ last ≤ (encode letters).length ∧
      min (bound + 1) (encode letters).length ≤ last := by
  cases found : firstStop nBytesCode bound 0 (leads nBytesCode (encode letters)) with
  | none =>
    have short := firstStop_encode_none.mp found
    rw [Option.getD_none]
    omega
  | some stop =>
    have bounds := firstStop_encode found
    rw [Option.getD_some]
    omega

theorem toNat_ofInt {position : Int} (stored : 0 ≤ position ∧ position < 2 ^ 31) :
    (UInt64.ofInt position).toNat = position.toNat := by
  have inRange : (position % 2 ^ 64).toNat = position.toNat := by omega
  rw [UInt64.ofInt, inRange, UInt64.toNat_ofNat_of_lt' (show _ < 2 ^ 64 by omega)]

/-- The range begins and ends between characters at every position. -/
theorem byteRange_boundary (letters : List Char) (idx : UInt64) :
    Boundary letters (byteRange (encode letters) idx).1 ∧
      Boundary letters (byteRange (encode letters) idx).2 := by
  obtain ⟨begins, ends⟩ := windowLoop_boundary (List.nil_append letters).symm idx
    (encode letters).length 0 false (boundary_zero letters)
  refine ⟨begins, ?_⟩
  rw [byteRange]
  dsimp only
  split_ifs
  · exact boundary_length letters
  · exact ends

theorem byteRange_windowAround {idx : UInt64} (fits : idx.toNat + 30 < 2 ^ 64)
    (inside : idx.toNat < (encode letters).length) :
    WindowAround letters idx.toNat (byteRange (encode letters) idx) := by
  obtain ⟨begins, ends⟩ := byteRange_boundary letters idx
  obtain ⟨near, total, far⟩ := getD_firstStop_encode letters (idx.toNat + 30)
  by_cases inner : Inner idx
  · have front := inner.1
    obtain ⟨first, found⟩ : ∃ first, firstStop nBytesCode (idx.toNat - 30) 0
        (leads nBytesCode (encode letters)) = some first := by
      refine Option.ne_none_iff_exists'.mp fun none => ?_
      have short := firstStop_encode_none.mp none
      omega
    have bounds := firstStop_encode found
    rw [byteRange_of_inner _ inner, found, Option.getD_some] at begins ends ⊢
    exact ⟨by omega, total, begins, ends, by omega, by omega, by omega⟩
  · have front : idx.toNat < 30 := by
      rw [Inner] at inner
      omega
    rw [byteRange_of_not_inner _ inner, toNat_add_thirty fits] at begins ends ⊢
    exact ⟨Nat.zero_le _, total, begins, ends, by omega, Nat.zero_le _, by omega⟩

end Valid

/-- The window around a stored position inside a valid description is well formed, its bytes are
valid, and a keyword of at most 30 bytes at the position is in it as a whole. -/
theorem byteRange_wellFormed {letters : List Char} {position : Int}
    (stored : 0 ≤ position ∧ position < 2 ^ 31)
    (inside : position.toNat < (encode letters).length) :
    let description := encode letters
    let idx := UInt64.ofInt position
    let range := byteRange description idx
    WindowAround letters position.toNat range ∧
      (∃ window, snippet description idx = .ok window ∧ Valid window ∧
        window = (description.take range.2).drop range.1) ∧
      ∀ keyword : Bytes, keyword.length ≤ 30 → keyword <+: description.drop position.toNat →
        range.1 ≤ position.toNat ∧ position.toNat + keyword.length ≤ range.2 := by
  have same := toNat_ofInt stored
  have fits : (UInt64.ofInt position).toNat + 30 < 2 ^ 64 := by omega
  have around := byteRange_windowAround fits (by rw [same]; exact inside)
  rw [same] at around
  refine ⟨around, ?_, ?_⟩
  · have copied : snippet (encode letters) (UInt64.ofInt position) =
        .ok (((encode letters).take (byteRange (encode letters) (UInt64.ofInt position)).2).drop
          (byteRange (encode letters) (UInt64.ofInt position)).1) := by
      rw [snippet_eq, if_pos (Or.inr (around.inside.trans (Nat.le_succ _))),
        List.take_append_of_le_length around.inside]
    exact ⟨_, copied, valid_snippet ⟨letters, rfl⟩ copied, rfl⟩
  · intro keyword short occurs
    have within := occurs.length_le
    rw [List.length_drop] at within
    obtain ⟨-, -, far⟩ := getD_firstStop_encode letters (position.toNat + 30)
    refine ⟨around.contains.1, ?_⟩
    rw [byteRange_eq]
    dsimp only
    rw [toNat_add_thirty fits, same]
    omega

theorem byteRange_wellFormed_sample :
    WindowAround ['a', 'é', 'b'] 1 (byteRange (encode ['a', 'é', 'b']) (UInt64.ofInt 1)) ∧
      1 + (encode ['é']).length ≤ (byteRange (encode ['a', 'é', 'b']) (UInt64.ofInt 1)).2 := by
  have stored : (0 : Int) ≤ 1 ∧ (1 : Int) < 2 ^ 31 := ⟨by decide, by norm_num⟩
  have inside : (1 : Int).toNat < (encode ['a', 'é', 'b']).length := by decide +kernel
  obtain ⟨around, -, keywords⟩ := byteRange_wellFormed stored inside
  refine ⟨around, (keywords (encode ['é']) (by decide +kernel) ⟨encode ['b'], ?_⟩).2⟩
  decide +kernel

end SearchEngine
