/-
This file states UTF-8 by ranges, as the JSON library reads it.

The first byte of a character determines the ranges of the bytes behind it. The
bytes of every character are in their ranges, and bytes that are in their ranges
are a character, so the ranges leave out overlong forms and surrogates.
-/

import SearchEngine.Utf8

namespace SearchEngine.Utf8

/-- The ranges of the bytes behind the first byte of a character. -/
def trailRanges (lead : Nat) : Option (List (Nat × Nat)) :=
  if lead < 0x80 then some []
  else if lead < 0xc2 then none
  else if lead < 0xe0 then some [(0x80, 0xbf)]
  else if lead = 0xe0 then some [(0xa0, 0xbf), (0x80, 0xbf)]
  else if lead = 0xed then some [(0x80, 0x9f), (0x80, 0xbf)]
  else if lead < 0xf0 then some [(0x80, 0xbf), (0x80, 0xbf)]
  else if lead = 0xf0 then some [(0x90, 0xbf), (0x80, 0xbf), (0x80, 0xbf)]
  else if lead < 0xf4 then some [(0x80, 0xbf), (0x80, 0xbf), (0x80, 0xbf)]
  else if lead = 0xf4 then some [(0x80, 0x8f), (0x80, 0xbf), (0x80, 0xbf)]
  else none

/-- The bytes are in the ranges. -/
def InRanges (trail : Bytes) (ranges : List (Nat × Nat)) : Prop :=
  List.Forall₂ (fun byte range => range.1 ≤ byte.toNat ∧ byte.toNat ≤ range.2) trail ranges

theorem toNat_trail (number : Nat) :
    (UInt8.ofNat (number % 0x40 + 0x80)).toNat = number % 0x40 + 0x80 :=
  UInt8.toNat_ofNat_of_lt' (show _ < 256 by omega)

theorem inRange_trail (number : Nat) :
    0x80 ≤ (UInt8.ofNat (number % 0x40 + 0x80)).toNat ∧
      (UInt8.ofNat (number % 0x40 + 0x80)).toNat ≤ 0xbf := by
  rw [toNat_trail]
  omega

theorem trailRanges_two {value : Nat} (large : 0x7f < value) (small : value ≤ 0x7ff) :
    trailRanges (value / 64 % 0x20 + 0xc0) = some [(0x80, 0xbf)] := by
  rw [trailRanges, if_neg (by omega), if_neg (by omega), if_pos (by omega)]

theorem trailRanges_three {value : Nat} (large : 0x7ff < value) (small : value ≤ 0xffff)
    (noSurrogate : value < 0xd800 ∨ 0xdfff < value) :
    ∃ low high, trailRanges (value / 4096 % 0x10 + 0xe0) = some [(low, high), (0x80, 0xbf)] ∧
      low ≤ value / 64 % 0x40 + 0x80 ∧ value / 64 % 0x40 + 0x80 ≤ high := by
  rw [trailRanges, if_neg (by omega), if_neg (by omega), if_neg (by omega)]
  by_cases first : value / 4096 % 0x10 + 0xe0 = 0xe0
  · rw [if_pos first]
    exact ⟨_, _, rfl, by omega, by omega⟩
  by_cases surrogate : value / 4096 % 0x10 + 0xe0 = 0xed
  · rw [if_neg first, if_pos surrogate]
    exact ⟨_, _, rfl, by omega, by omega⟩
  · rw [if_neg first, if_neg surrogate, if_pos (by omega)]
    exact ⟨_, _, rfl, by omega, by omega⟩

theorem trailRanges_four {value : Nat} (large : 0xffff < value) (small : value < 0x110000) :
    ∃ low high, trailRanges (value / 262144 % 0x08 + 0xf0) =
        some [(low, high), (0x80, 0xbf), (0x80, 0xbf)] ∧
      low ≤ value / 4096 % 0x40 + 0x80 ∧ value / 4096 % 0x40 + 0x80 ≤ high := by
  rw [trailRanges, if_neg (by omega), if_neg (by omega), if_neg (by omega), if_neg (by omega),
    if_neg (by omega), if_neg (by omega)]
  by_cases first : value / 262144 % 0x08 + 0xf0 = 0xf0
  · rw [if_pos first]
    exact ⟨_, _, rfl, by omega, by omega⟩
  by_cases last : value / 262144 % 0x08 + 0xf0 = 0xf4
  · rw [if_neg first, if_neg (by omega), if_pos last]
    exact ⟨_, _, rfl, by omega, by omega⟩
  · rw [if_neg first, if_pos (by omega)]
    exact ⟨_, _, rfl, by omega, by omega⟩

/-- The bytes of a character are a first byte with bytes in its ranges. -/
theorem utf8EncodeChar_inRanges (letter : Char) :
    ∃ lead trail ranges, String.utf8EncodeChar letter = lead :: trail ∧
      trailRanges lead.toNat = some ranges ∧ InRanges trail ranges := by
  have valid : letter.toNat < 0xd800 ∨ 0xdfff < letter.toNat ∧ letter.toNat < 0x110000 :=
    letter.valid
  have value {number : Nat} (small : number < 256) : (UInt8.ofNat number).toNat = number :=
    UInt8.toNat_ofNat_of_lt' small
  rw [utf8EncodeChar_eq]
  split_ifs with one two three
  · refine ⟨_, _, [], rfl, ?_, .nil⟩
    rw [value (by omega), trailRanges, if_pos (by omega)]
  · refine ⟨_, _, [(0x80, 0xbf)], rfl, ?_, .cons (inRange_trail _) .nil⟩
    rw [value (by omega), trailRanges_two (by omega) two]
  · obtain ⟨low, high, ranges, inside⟩ := trailRanges_three (by omega) three (by omega)
    refine ⟨_, _, _, rfl, by rw [value (by omega)]; exact ranges, .cons ?_
      (.cons (inRange_trail _) .nil)⟩
    rw [toNat_trail]
    exact inside
  · obtain ⟨low, high, ranges, inside⟩ :=
      trailRanges_four (show 0xffff < letter.toNat by omega) (by omega)
    refine ⟨_, _, _, rfl, by rw [value (by omega)]; exact ranges, .cons ?_
      (.cons (inRange_trail _) (.cons (inRange_trail _) .nil))⟩
    rw [toNat_trail]
    exact inside

/-- A scalar value is a character. -/
theorem exists_letter {cp : Nat} (scalar : cp < 0xd800 ∨ 0xdfff < cp ∧ cp < 0x110000) :
    ∃ letter : Char, letter.toNat = cp := by
  refine exists_char ?_
  simp only [isCodePointValid, Bool.and_eq_true, decide_eq_true_eq, Bool.not_eq_true',
    Bool.and_eq_false_iff, decide_eq_false_iff_not]
  omega

theorem exists_letter_two {lead oc : UInt8} (large : 0xc2 ≤ lead.toNat) (small : lead.toNat < 0xe0)
    (trail : oc.toNat / 64 = 2) : ∃ letter, String.utf8EncodeChar letter = [lead, oc] := by
  obtain ⟨letter, same⟩ := @exists_letter (lead.toNat % 32 * 64 + oc.toNat % 64) (by omega)
  refine ⟨letter, ?_⟩
  rw [utf8EncodeChar_eq, same, if_neg (by omega), if_pos (by omega), @ofNat_eq lead _ (by omega),
    @ofNat_eq oc _ (by omega)]

theorem exists_letter_three {lead oc od : UInt8} (led : lead.toNat / 16 = 0xe)
    (trail : oc.toNat / 64 = 2) (trail' : od.toNat / 64 = 2)
    (notOverlong : lead.toNat = 0xe0 → 0xa0 ≤ oc.toNat)
    (noSurrogate : lead.toNat = 0xed → oc.toNat < 0xa0) :
    ∃ letter, String.utf8EncodeChar letter = [lead, oc, od] := by
  obtain ⟨letter, same⟩ :=
    @exists_letter (lead.toNat % 16 * 4096 + oc.toNat % 64 * 64 + od.toNat % 64) (by omega)
  refine ⟨letter, ?_⟩
  rw [utf8EncodeChar_eq, same, if_neg (by omega), if_neg (by omega), if_pos (by omega),
    @ofNat_eq lead _ (by omega), @ofNat_eq oc _ (by omega), @ofNat_eq od _ (by omega)]

theorem exists_letter_four {lead oc od oe : UInt8} (large : 0xf0 ≤ lead.toNat)
    (small : lead.toNat ≤ 0xf4) (trail : oc.toNat / 64 = 2) (trail' : od.toNat / 64 = 2)
    (trail'' : oe.toNat / 64 = 2) (notOverlong : lead.toNat = 0xf0 → 0x90 ≤ oc.toNat)
    (inside : lead.toNat = 0xf4 → oc.toNat < 0x90) :
    ∃ letter, String.utf8EncodeChar letter = [lead, oc, od, oe] := by
  obtain ⟨letter, same⟩ := @exists_letter (lead.toNat % 8 * 262144 + oc.toNat % 64 * 4096 +
    od.toNat % 64 * 64 + oe.toNat % 64) (by omega)
  refine ⟨letter, ?_⟩
  rw [utf8EncodeChar_eq, same, if_neg (by omega), if_neg (by omega), if_neg (by omega),
    @ofNat_eq lead _ (by omega), @ofNat_eq oc _ (by omega), @ofNat_eq od _ (by omega),
    @ofNat_eq oe _ (by omega)]

/-- A first byte with bytes in its ranges is a character. -/
theorem exists_letter_of_inRanges {lead : UInt8} {trail : Bytes} {ranges : List (Nat × Nat)}
    (led : trailRanges lead.toNat = some ranges) (inside : InRanges trail ranges) :
    ∃ letter, String.utf8EncodeChar letter = lead :: trail := by
  rw [trailRanges] at led
  split_ifs at led
  all_goals cases led
  · cases inside
    obtain ⟨letter, same⟩ := @exists_letter lead.toNat (by omega)
    refine ⟨letter, ?_⟩
    rw [utf8EncodeChar_eq, same, if_pos (by omega), UInt8.ofNat_toNat]
  · obtain _ | ⟨first, _ | _⟩ := inside
    dsimp only at first
    exact exists_letter_two (by omega) (by omega) (by omega)
  iterate 3
    · obtain _ | ⟨first, _ | ⟨second, _ | _⟩⟩ := inside
      dsimp only at first second
      exact exists_letter_three (by omega) (by omega) (by omega) (by omega) (by omega)
  iterate 3
    · obtain _ | ⟨first, _ | ⟨second, _ | ⟨third, _ | _⟩⟩⟩ := inside
      dsimp only at first second third
      exact exists_letter_four (by omega) (by omega) (by omega) (by omega) (by omega) (by omega)
        (by omega)

end SearchEngine.Utf8
