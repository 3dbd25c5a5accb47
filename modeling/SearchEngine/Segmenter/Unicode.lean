/-
This file models how the segmenter turns a sentence into runes and ranges of runes
back into words.

The decoder looks at the lead byte of a character and at the number of bytes
left, and takes the bytes behind the lead as they come. Whatever it accepts, the
bytes of its runes are together the sentence, and of a valid sentence the runes are
the characters.
-/

import SearchEngine.Utf8
import SearchEngine.Library.Segments

namespace SearchEngine.Cppjieba

open Utf8 Segments

/-- A code point. -/
abbrev Rune := Nat

/-- `Word` -/
structure Word where
  word : Bytes
  offset : Nat
  unicodeOffset : Nat
  unicodeLength : Nat

/-- `RuneStr` -/
structure RuneStr where
  rune : Rune
  offset : Nat
  len : Nat
  unicodeOffset : Nat
  unicodeLength : Nat
  deriving DecidableEq

/-- `WordRange`: the places of the first and of the last rune. -/
structure WordRange where
  left : Nat
  right : Nat
  deriving DecidableEq

/-- `RuneStrLite` -/
structure RuneStrLite where
  rune : Rune
  len : Nat
  deriving DecidableEq

/-! ### Decoding -/

/-- The lower six bits of the byte at a place, which every byte behind the lead contributes. -/
def sixBits (str : Bytes) (i : Nat) : Nat := octet (str.drop i) % 0x40

/-- `DecodeRuneInString` -/
def decodeRuneInString (str : Bytes) : RuneStrLite :=
  if str.length = 0 then ⟨0, 0⟩
  else if octet str < 0x80 then ⟨octet str, 1⟩
  else if octet str ≤ 0xdf ∧ 1 < str.length then ⟨octet str % 0x20 * 64 + sixBits str 1, 2⟩
  else if octet str ≤ 0xef ∧ 2 < str.length then
    ⟨(octet str % 0x10 * 64 + sixBits str 1) * 64 + sixBits str 2, 3⟩
  else if octet str ≤ 0xf7 ∧ 3 < str.length then
    ⟨((octet str % 0x08 * 64 + sixBits str 1) * 64 + sixBits str 2) * 64 + sixBits str 3, 4⟩
  else ⟨0, 0⟩

/-- The loop of `DecodeRunesInString` from byte `i` and rune `j` on. -/
def decodeRunesLoop : Nat → Bytes → Nat → Nat → Option (List RuneStr)
  | _, [], _, _ => some []
  | 0, _ :: _, _, _ => none
  | rounds + 1, first :: rest, i, j =>
    let rp := decodeRuneInString (first :: rest)
    if rp.len = 0 then none
    else (decodeRunesLoop rounds ((first :: rest).drop rp.len) (i + rp.len) (j + 1)).map
      (⟨rp.rune, i, rp.len, j, 1⟩ :: ·)

/-- `DecodeRunesInString`, with nothing where it returns `false`. -/
def decodeRunesInString (s : Bytes) : Option (List RuneStr) := decodeRunesLoop s.length s 0 0

/-! ### Words from ranges -/

/-- `GetWordFromRunes` -/
def getWordFromRunes (s : Bytes) (left right : RuneStr) : Word :=
  let len := right.offset - left.offset + right.len
  let unicodeLength := right.unicodeOffset - left.unicodeOffset + right.unicodeLength
  ⟨(s.drop left.offset).take len, left.offset, left.unicodeOffset, unicodeLength⟩

/-- `GetWordsFromWordRanges` -/
def getWordsFromWordRanges (s : Bytes) (runes : List RuneStr) :
    List WordRange → Except Fault (List Word)
  | [] => .ok []
  | range :: wrs => do
    let left ← orFault .outOfBounds runes[range.left]?
    let right ← orFault .outOfBounds runes[range.right]?
    let words ← getWordsFromWordRanges s runes wrs
    return getWordFromRunes s left right :: words

/-- `GetStringsFromWords` -/
def getStringsFromWords (words : List Word) : List Bytes := words.map Word.word

/-! ### The runes of a sentence -/

/-- The runes of consecutive pieces, each a code point with its bytes. -/
def place (i j : Nat) : List (Rune × Bytes) → List RuneStr
  | [] => []
  | (rune, bytes) :: pieces => ⟨rune, i, bytes.length, j, 1⟩ :: place (i + bytes.length) (j + 1) pieces

@[simp] theorem length_place (i j : Nat) (pieces : List (Rune × Bytes)) :
    (place i j pieces).length = pieces.length := by
  induction pieces generalizing i j with
  | nil => rfl
  | cons piece pieces inductionHypothesis =>
    rw [place, List.length_cons, inductionHypothesis, List.length_cons]

@[simp] theorem map_rune_place (i j : Nat) (pieces : List (Rune × Bytes)) :
    (place i j pieces).map RuneStr.rune = pieces.map Prod.fst := by
  induction pieces generalizing i j with
  | nil => rfl
  | cons piece pieces inductionHypothesis =>
    rw [place, List.map_cons, inductionHypothesis, List.map_cons]

/-- A placed rune starts behind the pieces before it. -/
theorem getElem?_place (i j : Nat) (pieces : List (Rune × Bytes)) (index : Nat) :
    (place i j pieces)[index]? = pieces[index]?.map fun piece =>
      ⟨piece.1, i + start (pieces.map Prod.snd) index, piece.2.length, j + index, 1⟩ := by
  induction pieces generalizing i j index with
  | nil => rfl
  | cons piece pieces inductionHypothesis =>
    cases index with
    | zero => rfl
    | succ index =>
      rw [place, List.getElem?_cons_succ, inductionHypothesis, List.getElem?_cons_succ]
      have behind : start (List.map Prod.snd (piece :: pieces)) (index + 1) =
          piece.2.length + start (pieces.map Prod.snd) index := by
        rw [start, List.map_cons, List.take_succ_cons, List.flatten_cons, List.length_append, start]
      rw [behind]
      simp only [Nat.add_assoc, Nat.add_comm 1 index]

/-- The pieces of a sentence: none is empty, and together they are the sentence. -/
structure Pieces (s : Bytes) (runes : List RuneStr) (pieces : List (Rune × Bytes)) : Prop where
  runes_eq : runes = place 0 0 pieces
  flatten_eq : (pieces.map Prod.snd).flatten = s
  nonempty : ∀ piece ∈ pieces, piece.2 ≠ []

/-- What is decoded is in front of the bytes that are left. -/
theorem decodeRuneInString_len_le (str : Bytes) : (decodeRuneInString str).len ≤ str.length := by
  unfold decodeRuneInString
  split_ifs <;> dsimp only <;> omega

theorem decodeRunesLoop_eq_some {rounds i j : Nat} {s : Bytes} {runes : List RuneStr}
    (decoded : decodeRunesLoop rounds s i j = some runes) :
    ∃ pieces : List (Rune × Bytes), runes = place i j pieces ∧
      (pieces.map Prod.snd).flatten = s ∧ ∀ piece ∈ pieces, piece.2 ≠ [] := by
  induction rounds generalizing s i j runes with
  | zero =>
    cases s with
    | nil =>
      cases decoded
      exact ⟨[], rfl, rfl, fun _ member => absurd member List.not_mem_nil⟩
    | cons first rest => cases decoded
  | succ rounds inductionHypothesis =>
    cases s with
    | nil =>
      cases decoded
      exact ⟨[], rfl, rfl, fun _ member => absurd member List.not_mem_nil⟩
    | cons first rest =>
      rw [decodeRunesLoop] at decoded
      split_ifs at decoded with stuck
      obtain ⟨others, behind, rfl⟩ := Option.map_eq_some_iff.mp decoded
      obtain ⟨pieces, rfl, flatten, nonempty⟩ := inductionHypothesis behind
      have fits := decodeRuneInString_len_le (first :: rest)
      have taken : ((first :: rest).take (decodeRuneInString (first :: rest)).len).length =
          (decodeRuneInString (first :: rest)).len := List.length_take_of_le fits
      refine ⟨((decodeRuneInString (first :: rest)).rune,
        (first :: rest).take (decodeRuneInString (first :: rest)).len) :: pieces, ?_, ?_, ?_⟩
      · rw [place, taken]
      · rw [List.map_cons, List.flatten_cons, flatten, List.take_append_drop]
      · intro piece member
        rcases List.mem_cons.mp member with rfl | later
        · exact fun empty => stuck (taken.symm.trans (List.length_eq_zero_iff.mpr empty))
        · exact nonempty piece later

/-- Whatever the decoder accepts, its runes have the bytes of the sentence. -/
theorem exists_pieces {s : Bytes} {runes : List RuneStr}
    (decoded : decodeRunesInString s = some runes) : ∃ pieces, Pieces s runes pieces := by
  obtain ⟨pieces, placed, flatten, nonempty⟩ := decodeRunesLoop_eq_some decoded
  exact ⟨pieces, placed, flatten, nonempty⟩

/-! ### Valid sentences -/

/-- A character with its bytes. -/
def pieceOf (letter : Char) : Rune × Bytes := (letter.toNat, String.utf8EncodeChar letter)

/-- The decoder reads a character that is in front of it. -/
theorem decodeRuneInString_utf8EncodeChar (letter : Char) (rest : Bytes) :
    decodeRuneInString (String.utf8EncodeChar letter ++ rest) =
      ⟨letter.toNat, (String.utf8EncodeChar letter).length⟩ := by
  have bound : letter.toNat < 0x110000 := by
    have valid : letter.toNat < 0xd800 ∨ 0xdfff < letter.toNat ∧ letter.toNat < 0x110000 :=
      letter.valid
    omega
  have trail (number : Nat) (it : Bytes) :
      octet (UInt8.ofNat (number % 0x40 + 0x80) :: it) % 0x40 = number % 0x40 := by
    rw [octet, List.headD_cons, UInt8.toNat_ofNat_of_lt' (show _ < 256 by omega)]
    omega
  rw [utf8EncodeChar_eq]
  split_ifs with one two three
  · have lead : octet ([UInt8.ofNat letter.toNat] ++ rest) = letter.toNat :=
      UInt8.toNat_ofNat_of_lt' (show _ < 256 by omega)
    rw [decodeRuneInString, if_neg (by simp), lead, if_pos (by omega)]
    rfl
  · have lead (it : Bytes) : octet (UInt8.ofNat (letter.toNat / 64 % 0x20 + 0xc0) :: it) =
        letter.toNat / 64 % 0x20 + 0xc0 := UInt8.toNat_ofNat_of_lt' (show _ < 256 by omega)
    simp only [decodeRuneInString, List.cons_append, List.nil_append, lead, List.length_cons,
      sixBits, List.drop_succ_cons, List.drop_zero, trail]
    have value : (letter.toNat / 64 % 0x20 + 0xc0) % 0x20 * 64 + letter.toNat % 0x40 =
        letter.toNat := by omega
    rw [if_neg (by omega), if_neg (by omega), if_pos (by omega), value]
    rfl
  · have lead (it : Bytes) : octet (UInt8.ofNat (letter.toNat / 4096 % 0x10 + 0xe0) :: it) =
        letter.toNat / 4096 % 0x10 + 0xe0 := UInt8.toNat_ofNat_of_lt' (show _ < 256 by omega)
    simp only [decodeRuneInString, List.cons_append, List.nil_append, lead, List.length_cons,
      sixBits, List.drop_succ_cons, List.drop_zero, trail]
    have value : ((letter.toNat / 4096 % 0x10 + 0xe0) % 0x10 * 64 +
        letter.toNat / 64 % 0x40) * 64 + letter.toNat % 0x40 = letter.toNat := by omega
    rw [if_neg (by omega), if_neg (by omega), if_neg (by omega), if_pos (by omega), value]
    rfl
  · have lead (it : Bytes) : octet (UInt8.ofNat (letter.toNat / 262144 % 0x08 + 0xf0) :: it) =
        letter.toNat / 262144 % 0x08 + 0xf0 := UInt8.toNat_ofNat_of_lt' (show _ < 256 by omega)
    simp only [decodeRuneInString, List.cons_append, List.nil_append, lead, List.length_cons,
      sixBits, List.drop_succ_cons, List.drop_zero, trail]
    have value : (((letter.toNat / 262144 % 0x08 + 0xf0) % 0x08 * 64 +
        letter.toNat / 4096 % 0x40) * 64 + letter.toNat / 64 % 0x40) * 64 +
          letter.toNat % 0x40 = letter.toNat := by omega
    rw [if_neg (by omega), if_neg (by omega), if_neg (by omega), if_neg (by omega),
      if_pos (by omega), value]
    rfl

theorem decodeRunesLoop_encode (letters : List Char) {rounds : Nat}
    (enough : (encode letters).length ≤ rounds) (i j : Nat) :
    decodeRunesLoop rounds (encode letters) i j = some (place i j (letters.map pieceOf)) := by
  induction letters generalizing rounds i j with
  | nil => cases rounds <;> rfl
  | cons letter letters inductionHypothesis =>
    obtain ⟨fewer, rfl, fits⟩ := rounds_of_encode_cons enough
    have read := decodeRuneInString_utf8EncodeChar letter (encode letters)
    have positive := List.length_pos_iff.mpr (String.utf8EncodeChar_ne_nil (c := letter))
    rw [encode_cons]
    obtain ⟨first, rest, split⟩ := List.exists_cons_of_ne_nil
      (List.append_ne_nil_of_left_ne_nil (String.utf8EncodeChar_ne_nil (c := letter))
        (encode letters))
    rw [split, decodeRunesLoop, ← split, read, if_neg positive.ne', List.drop_left,
      inductionHypothesis fits, List.map_cons]
    rfl

/-- Of a valid sentence the runes are the characters. -/
theorem decodeRunesInString_encode (letters : List Char) :
    decodeRunesInString (encode letters) = some (place 0 0 (letters.map pieceOf)) :=
  decodeRunesLoop_encode letters le_rfl 0 0

theorem flatten_map_pieceOf (letters : List Char) :
    ((letters.map pieceOf).map Prod.snd).flatten = encode letters := by
  rw [List.map_map, encode, List.flatMap_def]
  rfl

theorem pieces_encode (letters : List Char) :
    Pieces (encode letters) (place 0 0 (letters.map pieceOf)) (letters.map pieceOf) where
  runes_eq := rfl
  flatten_eq := flatten_map_pieceOf letters
  nonempty := by
    intro piece member
    obtain ⟨letter, -, rfl⟩ := List.mem_map.mp member
    exact String.utf8EncodeChar_ne_nil

/-! ### The words of a tiling -/

/-- The interval of the places of a range. -/
def WordRange.span (range : WordRange) : Nat × Nat := (range.left, range.right + 1)

/-- The bytes of the pieces in an interval. -/
def textOf (pieces : List (Rune × Bytes)) (interval : Nat × Nat) : Bytes :=
  (between (pieces.map Prod.snd) interval.1 interval.2).flatten

/-- A word is the text of its range. -/
theorem getWordFromRunes_place {s : Bytes} {runes : List RuneStr} {pieces : List (Rune × Bytes)}
    (decoded : Pieces s runes pieces) {range : WordRange} (ordered : range.left ≤ range.right)
    {left right : RuneStr} (first : runes[range.left]? = some left)
    (last : runes[range.right]? = some right) :
    (getWordFromRunes s left right).word = textOf pieces range.span := by
  rw [decoded.runes_eq, getElem?_place] at first last
  obtain ⟨head, listed, rfl⟩ := Option.map_eq_some_iff.mp first
  obtain ⟨final, ends, rfl⟩ := Option.map_eq_some_iff.mp last
  have before : start (pieces.map Prod.snd) range.left ≤ start (pieces.map Prod.snd) range.right :=
    monotone_start ordered
  have placed : (pieces.map Prod.snd)[range.right]? = some final.2 := by
    rw [List.getElem?_map, ends]
    rfl
  have stop := start_succ placed
  dsimp only [getWordFromRunes, textOf, WordRange.span]
  rw [between_flatten _ (by omega), decoded.flatten_eq, between, stop]
  simp only [Nat.zero_add]
  rw [show start (pieces.map Prod.snd) range.right + final.2.length -
    start (pieces.map Prod.snd) range.left = start (pieces.map Prod.snd) range.right -
      start (pieces.map Prod.snd) range.left + final.2.length by omega]

/-- Ranges inside the sentence have words, and these are the texts of the ranges. -/
theorem getWordsFromWordRanges_place {s : Bytes} {runes : List RuneStr}
    {pieces : List (Rune × Bytes)} (decoded : Pieces s runes pieces) (wrs : List WordRange)
    (inside : ∀ range ∈ wrs, range.left ≤ range.right ∧ range.right < runes.length) :
    ∃ words, getWordsFromWordRanges s runes wrs = .ok words ∧
      getStringsFromWords words = wrs.map fun range => textOf pieces range.span := by
  induction wrs with
  | nil => exact ⟨[], rfl, rfl⟩
  | cons range wrs inductionHypothesis =>
    obtain ⟨ordered, bounded⟩ := inside range List.mem_cons_self
    obtain ⟨words, rest, strings⟩ :=
      inductionHypothesis fun other member => inside other (List.mem_cons_of_mem _ member)
    have first := List.getElem?_eq_getElem (show range.left < runes.length by omega)
    have last := List.getElem?_eq_getElem bounded
    refine ⟨getWordFromRunes s runes[range.left] runes[range.right] :: words, ?_, ?_⟩
    · rw [getWordsFromWordRanges, first, last, rest]
      rfl
    · have head := getWordFromRunes_place decoded ordered first last
      rw [getStringsFromWords] at strings ⊢
      rw [List.map_cons, strings, head, List.map_cons]

/-- The words of a tiling of the runes are together the sentence, and none is empty. -/
theorem Pieces.flatten_of_tiles {s : Bytes} {runes : List RuneStr} {pieces : List (Rune × Bytes)}
    (decoded : Pieces s runes pieces) {intervals : List (Nat × Nat)}
    (tiles : Tiles 0 runes.length intervals) :
    (intervals.map (textOf pieces)).flatten = s ∧ [] ∉ intervals.map (textOf pieces) := by
  have count : runes.length = (pieces.map Prod.snd).length := by
    rw [decoded.runes_eq, length_place, List.length_map]
  constructor
  · have whole := tiles.flatten_between (pieces.map Prod.snd)
    rw [count, between_self] at whole
    rw [← decoded.flatten_eq, ← whole, List.flatten_flatten, List.map_map]
    rfl
  · intro member
    obtain ⟨interval, listed, empty⟩ := List.mem_map.mp member
    obtain ⟨-, nonempty, inside⟩ := tiles.bounds listed
    have long : (between (pieces.map Prod.snd) interval.1 interval.2).length =
        interval.2 - interval.1 := length_between (by omega)
    obtain ⟨bytes, rest, split⟩ := List.exists_cons_of_length_pos (show 0 <
      (between (pieces.map Prod.snd) interval.1 interval.2).length by omega)
    have first : bytes ∈ between (pieces.map Prod.snd) interval.1 interval.2 := by
      rw [split]
      exact List.mem_cons_self
    have listed : bytes ∈ pieces.map Prod.snd :=
      List.mem_of_mem_drop (List.mem_of_mem_take first)
    obtain ⟨piece, member, rfl⟩ := List.mem_map.mp listed
    rw [textOf, split, List.flatten_cons, List.append_eq_nil_iff] at empty
    exact decoded.nonempty piece member empty.1

/-- In a valid sentence an interval has the characters in it. -/
theorem textOf_map_pieceOf (letters : List Char) (interval : Nat × Nat) :
    textOf (letters.map pieceOf) interval = encode (between letters interval.1 interval.2) := by
  have pieces : between ((letters.map pieceOf).map Prod.snd) interval.1 interval.2 =
      ((between letters interval.1 interval.2).map pieceOf).map Prod.snd := by
    simp only [between, List.map_drop, List.map_take]
  rw [textOf, pieces, flatten_map_pieceOf]

end SearchEngine.Cppjieba
