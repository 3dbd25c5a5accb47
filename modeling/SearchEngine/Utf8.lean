/-
This file models `utf8::next` of the UTF-8 library the program carries, and the
loops of the program that cut a string into characters with it.

An iterator is the list of the bytes from it to the end. A valid string is the
encoding of a list of characters, and the main result is that the loops cut such
a string into the encodings of its characters, and that the library throws on
every other string.
-/

import SearchEngine.Basic
import SearchEngine.Library.Widths

namespace SearchEngine.Utf8

/-! ### The library -/

/-- `utf_error` -/
inductive Error where
  | notEnoughRoom
  | invalidLead
  | incompleteSequence
  | overlongSequence
  | invalidCodePoint
  deriving DecidableEq

/-- `is_trail`: the byte shifted right by 6 is 2. -/
def isTrail (oc : UInt8) : Bool := oc.toNat / 64 = 0x2

/-- `*it`, as an unsigned number. -/
def octet (it : Bytes) : Nat := (it.headD 0).toNat

/-- `sequence_length` -/
def sequenceLength (it : Bytes) : Nat :=
  if octet it < 0x80 then 1
  else if octet it / 32 = 0x6 then 2
  else if octet it / 16 = 0xe then 3
  else if octet it / 8 = 0x1e then 4
  else 0

/-- `is_code_point_valid` -/
def isCodePointValid (cp : Nat) : Bool := cp ≤ 0x10ffff && !(0xd800 ≤ cp && cp ≤ 0xdfff)

/-- `is_overlong_sequence` -/
def isOverlongSequence (cp length : Nat) : Bool :=
  if cp < 0x80 then length ≠ 1
  else if cp < 0x800 then length ≠ 2
  else if cp < 0x10000 then length ≠ 3
  else false

/-- `increase_safely` -/
def increaseSafely : Bytes → Except Error Bytes
  | _ :: oc :: it => if isTrail oc then .ok (oc :: it) else .error .incompleteSequence
  | _ => .error .notEnoughRoom

/-- `get_sequence_1` -/
def getSequence1 (it : Bytes) : Except Error (Bytes × Nat) := .ok (it, octet it)

/-- `get_sequence_2`; the masks are remainders. -/
def getSequence2 (it : Bytes) : Except Error (Bytes × Nat) := do
  let codePoint := octet it
  let it ← increaseSafely it
  let codePoint := codePoint * 64 % 0x800 + octet it % 0x40
  return (it, codePoint)

/-- `get_sequence_3` -/
def getSequence3 (it : Bytes) : Except Error (Bytes × Nat) := do
  let codePoint := octet it
  let it ← increaseSafely it
  let codePoint := codePoint * 4096 % 0x10000 + octet it * 64 % 0x1000
  let it ← increaseSafely it
  let codePoint := codePoint + octet it % 0x40
  return (it, codePoint)

/-- `get_sequence_4` -/
def getSequence4 (it : Bytes) : Except Error (Bytes × Nat) := do
  let codePoint := octet it
  let it ← increaseSafely it
  let codePoint := codePoint * 262144 % 0x200000 + octet it * 4096 % 0x40000
  let it ← increaseSafely it
  let codePoint := codePoint + octet it * 64 % 0x1000
  let it ← increaseSafely it
  let codePoint := codePoint + octet it % 0x40
  return (it, codePoint)

/-- The `switch` of `validate_next`. -/
def getSequence (length : Nat) (it : Bytes) : Except Error (Bytes × Nat) :=
  match length with
  | 1 => getSequence1 it
  | 2 => getSequence2 it
  | 3 => getSequence3 it
  | 4 => getSequence4 it
  | _ => .error .invalidLead

/-- `validate_next` -/
def validateNext (it : Bytes) : Except Error (Bytes × Nat) :=
  if it = [] then .error .notEnoughRoom
  else do
    let length := sequenceLength it
    let (it, cp) ← getSequence length it
    if isCodePointValid cp then
      if !isOverlongSequence cp length then return (it.tail, cp)
      else .error .overlongSequence
    else .error .invalidCodePoint

/-- `utf8::next`: the iterator after it, and the code point. -/
def next (it : Bytes) : Except Fault (Bytes × Nat) :=
  match validateNext it with
  | .ok result => .ok result
  | .error _ => .error .invalidUtf8

/-! ### Characters -/

/-- The encoding of a list of characters. -/
def encode (text : List Char) : Bytes := text.flatMap String.utf8EncodeChar

@[simp] theorem encode_nil : encode [] = [] := rfl

@[simp] theorem encode_cons (letter : Char) (text : List Char) :
    encode (letter :: text) = String.utf8EncodeChar letter ++ encode text := rfl

/-- A loop with a round for each byte of a string has enough of them left behind its first
character. -/
theorem rounds_of_encode_cons {letter : Char} {text : List Char} {rounds : Nat}
    (enough : (encode (letter :: text)).length ≤ rounds) :
    ∃ fewer, rounds = fewer + 1 ∧ (encode text).length ≤ fewer := by
  have positive := List.length_pos_iff.mpr (String.utf8EncodeChar_ne_nil (c := letter))
  rw [encode_cons, List.length_append] at enough
  exact ⟨rounds - 1, by omega, by omega⟩

theorem encode_append (first second : List Char) :
    encode (first ++ second) = encode first ++ encode second := List.flatMap_append

/-- A valid string. -/
def Valid (text : Bytes) : Prop := ∃ letters, encode letters = text

theorem Valid.append {first second : Bytes} (firstValid : Valid first)
    (secondValid : Valid second) : Valid (first ++ second) := by
  obtain ⟨letters, rfl⟩ := firstValid
  obtain ⟨others, rfl⟩ := secondValid
  exact ⟨letters ++ others, encode_append letters others⟩

theorem isTrail_ofNat (number : Nat) : isTrail (UInt8.ofNat (number % 0x40 + 0x80)) = true := by
  rw [isTrail, UInt8.toNat_ofNat_of_lt' (show _ < 256 by omega)]
  exact decide_eq_true (by omega)

theorem next_one {value : Nat} (small : value ≤ 0x7f) (rest : Bytes) :
    next (UInt8.ofNat value :: rest) = .ok (rest, value) := by
  have lead : octet (UInt8.ofNat value :: rest) = value :=
    UInt8.toNat_ofNat_of_lt' (show _ < 256 by omega)
  have length : sequenceLength (UInt8.ofNat value :: rest) = 1 := by
    rw [sequenceLength, lead, if_pos (by omega)]
  have valid : isCodePointValid value = true := by
    simp only [isCodePointValid]
    grind
  have short : isOverlongSequence value 1 = false := by
    rw [isOverlongSequence, if_pos (by omega)]
    rfl
  rw [next, validateNext, if_neg (List.cons_ne_nil _ _), length]
  simp only [getSequence, getSequence1, lead, ok_bind, valid, short]
  rfl

theorem next_two {value : Nat} (large : 0x7f < value) (small : value ≤ 0x7ff) (rest : Bytes) :
    next (UInt8.ofNat (value / 64 % 0x20 + 0xc0) :: UInt8.ofNat (value % 0x40 + 0x80) :: rest) =
      .ok (rest, value) := by
  have lead (it : Bytes) : octet (UInt8.ofNat (value / 64 % 0x20 + 0xc0) :: it) =
      value / 64 % 0x20 + 0xc0 := UInt8.toNat_ofNat_of_lt' (show _ < 256 by omega)
  have trail (it : Bytes) : octet (UInt8.ofNat (value % 0x40 + 0x80) :: it) =
      value % 0x40 + 0x80 := UInt8.toNat_ofNat_of_lt' (show _ < 256 by omega)
  have length (it : Bytes) : sequenceLength (UInt8.ofNat (value / 64 % 0x20 + 0xc0) :: it) = 2 := by
    rw [sequenceLength, lead, if_neg (by omega), if_pos (by omega)]
  have codePoint : (value / 64 % 0x20 + 0xc0) * 64 % 0x800 + (value % 0x40 + 0x80) % 0x40 =
      value := by omega
  have valid : isCodePointValid value = true := by
    simp only [isCodePointValid]
    grind
  have short : isOverlongSequence value 2 = false := by
    rw [isOverlongSequence, if_neg (by omega), if_pos (by omega)]
    rfl
  rw [next, validateNext, if_neg (List.cons_ne_nil _ _), length]
  simp only [getSequence, getSequence2, increaseSafely, isTrail_ofNat, if_true, ok_bind, lead, trail,
    codePoint, pure_eq_ok, valid, short]
  rfl

theorem next_three {value : Nat} (large : 0x7ff < value) (small : value ≤ 0xffff)
    (noSurrogate : value < 0xd800 ∨ 0xdfff < value) (rest : Bytes) :
    next (UInt8.ofNat (value / 4096 % 0x10 + 0xe0) :: UInt8.ofNat (value / 64 % 0x40 + 0x80) ::
      UInt8.ofNat (value % 0x40 + 0x80) :: rest) = .ok (rest, value) := by
  have lead (it : Bytes) : octet (UInt8.ofNat (value / 4096 % 0x10 + 0xe0) :: it) =
      value / 4096 % 0x10 + 0xe0 := UInt8.toNat_ofNat_of_lt' (show _ < 256 by omega)
  have trail (number : Nat) (it : Bytes) : octet (UInt8.ofNat (number % 0x40 + 0x80) :: it) =
      number % 0x40 + 0x80 := UInt8.toNat_ofNat_of_lt' (show _ < 256 by omega)
  have length (it : Bytes) :
      sequenceLength (UInt8.ofNat (value / 4096 % 0x10 + 0xe0) :: it) = 3 := by
    rw [sequenceLength, lead, if_neg (by omega), if_neg (by omega), if_pos (by omega)]
  have codePoint : (value / 4096 % 0x10 + 0xe0) * 4096 % 0x10000 +
      (value / 64 % 0x40 + 0x80) * 64 % 0x1000 + (value % 0x40 + 0x80) % 0x40 = value := by omega
  have valid : isCodePointValid value = true := by
    simp only [isCodePointValid]
    grind
  have short : isOverlongSequence value 3 = false := by
    rw [isOverlongSequence, if_neg (by omega), if_neg (by omega), if_pos (by omega)]
    rfl
  rw [next, validateNext, if_neg (List.cons_ne_nil _ _), length]
  simp only [getSequence, getSequence3, increaseSafely, isTrail_ofNat, if_true, ok_bind, lead,
    trail, codePoint, pure_eq_ok, valid, short]
  rfl

theorem next_four {value : Nat} (large : 0xffff < value) (small : value < 0x110000)
    (rest : Bytes) :
    next (UInt8.ofNat (value / 262144 % 0x08 + 0xf0) ::
      UInt8.ofNat (value / 4096 % 0x40 + 0x80) :: UInt8.ofNat (value / 64 % 0x40 + 0x80) ::
      UInt8.ofNat (value % 0x40 + 0x80) :: rest) = .ok (rest, value) := by
  have lead (it : Bytes) : octet (UInt8.ofNat (value / 262144 % 0x08 + 0xf0) :: it) =
      value / 262144 % 0x08 + 0xf0 := UInt8.toNat_ofNat_of_lt' (show _ < 256 by omega)
  have trail (number : Nat) (it : Bytes) : octet (UInt8.ofNat (number % 0x40 + 0x80) :: it) =
      number % 0x40 + 0x80 := UInt8.toNat_ofNat_of_lt' (show _ < 256 by omega)
  have length (it : Bytes) :
      sequenceLength (UInt8.ofNat (value / 262144 % 0x08 + 0xf0) :: it) = 4 := by
    rw [sequenceLength, lead, if_neg (by omega), if_neg (by omega), if_neg (by omega),
      if_pos (by omega)]
  have codePoint : (value / 262144 % 0x08 + 0xf0) * 262144 % 0x200000 +
      (value / 4096 % 0x40 + 0x80) * 4096 % 0x40000 + (value / 64 % 0x40 + 0x80) * 64 % 0x1000 +
        (value % 0x40 + 0x80) % 0x40 = value := by omega
  have valid : isCodePointValid value = true := by
    simp only [isCodePointValid]
    grind
  have short : isOverlongSequence value 4 = false := by
    rw [isOverlongSequence, if_neg (by omega), if_neg (by omega), if_neg (by omega)]
  rw [next, validateNext, if_neg (List.cons_ne_nil _ _), length]
  simp only [getSequence, getSequence4, increaseSafely, isTrail_ofNat, if_true, ok_bind, lead,
    trail, codePoint, pure_eq_ok, valid, short]
  rfl

/-- The library reads a character that is in front of it. -/
theorem next_utf8EncodeChar (letter : Char) (rest : Bytes) :
    next (String.utf8EncodeChar letter ++ rest) = .ok (rest, letter.toNat) := by
  have valid : letter.toNat < 0xd800 ∨ 0xdfff < letter.toNat ∧ letter.toNat < 0x110000 :=
    letter.valid
  rw [String.utf8EncodeChar, show letter.val.toNat = letter.toNat from rfl]
  by_cases one : letter.toNat ≤ 0x7f
  · rw [if_pos one]
    exact next_one one rest
  rw [if_neg one]
  by_cases two : letter.toNat ≤ 0x7ff
  · rw [if_pos two]
    exact next_two (by omega) two rest
  rw [if_neg two]
  by_cases three : letter.toNat ≤ 0xffff
  · rw [if_pos three]
    exact next_three (by omega) three (by omega) rest
  · rw [if_neg three]
    exact next_four (by omega) (by omega) rest

/-- Every byte of a character below 0x80 is the character itself. -/
theorem utf8EncodeChar_of_ascii {letter : Char} {byte : UInt8}
    (member : byte ∈ String.utf8EncodeChar letter) (ascii : byte.toNat < 0x80) :
    byte.toNat = letter.toNat := by
  rw [String.utf8EncodeChar, show letter.val.toNat = letter.toNat from rfl] at member
  have trail (number : Nat) : ¬ (UInt8.ofNat (number % 0x40 + 0x80)).toNat < 0x80 := by
    rw [UInt8.toNat_ofNat_of_lt' (show _ < 256 by omega)]
    omega
  have lead (number low size : Nat) (positive : 0 < size) (high : 0x80 ≤ low)
      (fits : low + size ≤ 256) : ¬ (UInt8.ofNat (number % size + low)).toNat < 0x80 := by
    have below := Nat.mod_lt number positive
    rw [UInt8.toNat_ofNat_of_lt' (show _ < 256 by omega)]
    omega
  by_cases one : letter.toNat ≤ 0x7f
  · rw [if_pos one, List.mem_singleton] at member
    rw [member, UInt8.toNat_ofNat_of_lt' (show _ < 256 by omega)]
  · exfalso
    rw [if_neg one] at member
    split_ifs at member
    all_goals
      simp only [List.mem_cons, List.not_mem_nil, or_false] at member
      rcases member with rfl | member
      · exact lead _ _ _ (by norm_num) (by norm_num) (by norm_num) ascii
      · rcases member with rfl | rfl | rfl <;> exact trail _ ascii

/-- A text that begins with a character below 0x80 begins with this number. -/
theorem headD_encode_of_ascii {letter : Char} (small : letter.toNat < 0x80) (rest : List Char) :
    ((encode (letter :: rest)).headD 0).toNat = letter.toNat := by
  rw [encode_cons, String.utf8EncodeChar, show letter.val.toNat = letter.toNat from rfl,
    if_pos (Nat.le_of_lt_succ small), List.singleton_append, List.headD_cons,
    UInt8.toNat_ofNat_of_lt' (show _ < 256 by omega)]

/-! ### What the library accepts -/

/-- A valid code point is a character. -/
theorem exists_char {cp : Nat} (valid : isCodePointValid cp = true) :
    ∃ letter : Char, letter.toNat = cp := by
  simp only [isCodePointValid, Bool.and_eq_true, decide_eq_true_eq, Bool.not_eq_true',
    Bool.and_eq_false_iff, decide_eq_false_iff_not] at valid
  have isChar : cp.isValidChar := by
    rw [Nat.isValidChar]
    omega
  exact ⟨Char.ofNatAux cp isChar, rfl⟩

/-- The bytes of a character are determined by its number. -/
theorem utf8EncodeChar_eq (letter : Char) :
    String.utf8EncodeChar letter =
      if letter.toNat ≤ 0x7f then [UInt8.ofNat letter.toNat]
      else if letter.toNat ≤ 0x7ff then
        [UInt8.ofNat (letter.toNat / 64 % 0x20 + 0xc0), UInt8.ofNat (letter.toNat % 0x40 + 0x80)]
      else if letter.toNat ≤ 0xffff then
        [UInt8.ofNat (letter.toNat / 4096 % 0x10 + 0xe0),
          UInt8.ofNat (letter.toNat / 64 % 0x40 + 0x80), UInt8.ofNat (letter.toNat % 0x40 + 0x80)]
      else
        [UInt8.ofNat (letter.toNat / 262144 % 0x08 + 0xf0),
          UInt8.ofNat (letter.toNat / 4096 % 0x40 + 0x80),
          UInt8.ofNat (letter.toNat / 64 % 0x40 + 0x80),
          UInt8.ofNat (letter.toNat % 0x40 + 0x80)] := rfl

theorem ofNat_eq {byte : UInt8} {number : Nat} (same : number = byte.toNat) :
    UInt8.ofNat number = byte := by
  rw [same, UInt8.ofNat_toNat]

theorem increaseSafely_eq_ok {it next : Bytes} (increased : increaseSafely it = .ok next) :
    ∃ first oc rest, it = first :: oc :: rest ∧ next = oc :: rest ∧ oc.toNat / 64 = 2 := by
  match it with
  | [] | [_] => cases increased
  | first :: oc :: rest =>
    rw [increaseSafely] at increased
    split_ifs at increased with trail
    exact ⟨first, oc, rest, rfl, (Except.ok.inj increased).symm, by simpa [isTrail] using trail⟩

theorem getSequence2_eq_ok {it ended : Bytes} {cp : Nat}
    (read : getSequence2 it = .ok (ended, cp)) :
    ∃ lead oc rest, it = lead :: oc :: rest ∧ ended = oc :: rest ∧ oc.toNat / 64 = 2 ∧
      cp = lead.toNat * 64 % 0x800 + oc.toNat % 0x40 := by
  obtain ⟨second, increased, read⟩ := bind_eq_ok.mp read
  obtain ⟨lead, oc, rest, rfl, rfl, trail⟩ := increaseSafely_eq_ok increased
  obtain ⟨rfl, rfl⟩ := Prod.mk.inj (Except.ok.inj read)
  exact ⟨lead, oc, rest, rfl, rfl, trail, rfl⟩

theorem getSequence3_eq_ok {it ended : Bytes} {cp : Nat}
    (read : getSequence3 it = .ok (ended, cp)) :
    ∃ lead oc od rest, it = lead :: oc :: od :: rest ∧ ended = od :: rest ∧
      oc.toNat / 64 = 2 ∧ od.toNat / 64 = 2 ∧
      cp = lead.toNat * 4096 % 0x10000 + oc.toNat * 64 % 0x1000 + od.toNat % 0x40 := by
  obtain ⟨second, increased, read⟩ := bind_eq_ok.mp read
  obtain ⟨lead, oc, rest, rfl, rfl, trail⟩ := increaseSafely_eq_ok increased
  obtain ⟨third, increased, read⟩ := bind_eq_ok.mp read
  obtain ⟨_, od, rest, same, rfl, trail'⟩ := increaseSafely_eq_ok increased
  obtain ⟨rfl, rfl⟩ := List.cons.inj same
  obtain ⟨rfl, rfl⟩ := Prod.mk.inj (Except.ok.inj read)
  exact ⟨lead, oc, od, rest, rfl, rfl, trail, trail', rfl⟩

theorem getSequence4_eq_ok {it ended : Bytes} {cp : Nat}
    (read : getSequence4 it = .ok (ended, cp)) :
    ∃ lead oc od oe rest, it = lead :: oc :: od :: oe :: rest ∧ ended = oe :: rest ∧
      oc.toNat / 64 = 2 ∧ od.toNat / 64 = 2 ∧ oe.toNat / 64 = 2 ∧
      cp = lead.toNat * 262144 % 0x200000 + oc.toNat * 4096 % 0x40000 +
        od.toNat * 64 % 0x1000 + oe.toNat % 0x40 := by
  obtain ⟨second, increased, read⟩ := bind_eq_ok.mp read
  obtain ⟨lead, oc, rest, rfl, rfl, trail⟩ := increaseSafely_eq_ok increased
  obtain ⟨third, increased, read⟩ := bind_eq_ok.mp read
  obtain ⟨_, od, rest, same, rfl, trail'⟩ := increaseSafely_eq_ok increased
  obtain ⟨rfl, rfl⟩ := List.cons.inj same
  obtain ⟨fourth, increased, read⟩ := bind_eq_ok.mp read
  obtain ⟨_, oe, rest, same, rfl, trail''⟩ := increaseSafely_eq_ok increased
  obtain ⟨rfl, rfl⟩ := List.cons.inj same
  obtain ⟨rfl, rfl⟩ := Prod.mk.inj (Except.ok.inj read)
  exact ⟨lead, oc, od, oe, rest, rfl, rfl, trail, trail', trail'', rfl⟩

theorem isOverlongSequence_eq_false {cp length : Nat}
    (short : isOverlongSequence cp length = false) :
    (length = 2 → 0x80 ≤ cp) ∧ (length = 3 → 0x800 ≤ cp) ∧ (length = 4 → 0x10000 ≤ cp) := by
  rw [isOverlongSequence] at short
  split_ifs at short <;> simp at short <;> omega

/-- What is read in front of an iterator is a character. -/
theorem next_eq_ok {it rest : Bytes} {cp : Nat} (read : next it = .ok (rest, cp)) :
    ∃ letter, it = String.utf8EncodeChar letter ++ rest := by
  have validated : validateNext it = .ok (rest, cp) := by
    rw [next] at read
    cases accepted : validateNext it with
    | ok result => rw [accepted] at read; exact congrArg _ (Except.ok.inj read)
    | error fault => rw [accepted] at read; cases read
  rw [validateNext] at validated
  split_ifs at validated with empty
  obtain ⟨⟨ended, codePoint⟩, got, accepted⟩ := bind_eq_ok.mp validated
  dsimp only at accepted
  split_ifs at accepted with valid short
  obtain ⟨rfl, rfl⟩ := Prod.mk.inj (Except.ok.inj accepted)
  obtain ⟨letter, rfl⟩ := exists_char valid
  refine ⟨letter, ?_⟩
  obtain ⟨least2, least3, least4⟩ := isOverlongSequence_eq_false (by simpa using short)
  rw [utf8EncodeChar_eq]
  obtain ⟨lead, more, rfl⟩ := List.exists_cons_of_ne_nil empty
  have octet_lead : octet (lead :: more) = lead.toNat := rfl
  rw [sequenceLength, octet_lead] at got least2 least3 least4
  split_ifs at got least2 least3 least4 with one two three four
  · obtain ⟨rfl, same⟩ := Prod.mk.inj (Except.ok.inj got)
    rw [octet_lead] at same
    rw [if_pos (by omega), ofNat_eq same.symm]
    rfl
  · obtain ⟨_, oc, rest, same, rfl, trail, number⟩ := getSequence2_eq_ok got
    obtain ⟨rfl, rfl⟩ := List.cons.inj same
    have least := least2 rfl
    have below := oc.toNat_lt
    rw [if_neg (by omega), if_pos (by omega), @ofNat_eq lead _ (by omega), @ofNat_eq oc _ (by omega)]
    rfl
  · obtain ⟨_, oc, od, rest, same, rfl, trail, trail', number⟩ := getSequence3_eq_ok got
    obtain ⟨rfl, rfl⟩ := List.cons.inj same
    have least := least3 rfl
    rw [if_neg (by omega), if_neg (by omega), if_pos (by omega), @ofNat_eq lead _ (by omega),
      @ofNat_eq oc _ (by omega), @ofNat_eq od _ (by omega)]
    rfl
  · obtain ⟨_, oc, od, oe, rest, same, rfl, trail, trail', trail'', number⟩ :=
      getSequence4_eq_ok got
    obtain ⟨rfl, rfl⟩ := List.cons.inj same
    have least := least4 rfl
    rw [if_neg (by omega), if_neg (by omega), if_neg (by omega), @ofNat_eq lead _ (by omega),
      @ofNat_eq oc _ (by omega), @ofNat_eq od _ (by omega), @ofNat_eq oe _ (by omega)]
    rfl
  · cases got

/-! ### Cutting a string into characters -/

/-- One round of the loops that cut a string: `utf8::next(it2, end)`, and then the bytes from
`it1` to `it2`. It returns these bytes, and the iterator. -/
def cut (it : Bytes) : Except Fault (Bytes × Bytes) := do
  let (it2, _) ← next it
  return (it.take (it.length - it2.length), it2)

theorem cut_utf8EncodeChar (letter : Char) (rest : Bytes) :
    cut (String.utf8EncodeChar letter ++ rest) = .ok (String.utf8EncodeChar letter, rest) := by
  rw [cut, next_utf8EncodeChar, ok_bind]
  dsimp only
  rw [List.length_append, Nat.add_sub_cancel, List.take_left]
  rfl

theorem cut_eq_ok {it bytes rest : Bytes} (read : cut it = .ok (bytes, rest)) :
    ∃ letter, it = String.utf8EncodeChar letter ++ rest ∧ bytes = String.utf8EncodeChar letter := by
  obtain ⟨⟨it2, cp⟩, passed, read⟩ := bind_eq_ok.mp read
  obtain ⟨rfl, rfl⟩ := Prod.mk.inj (Except.ok.inj read)
  obtain ⟨letter, rfl⟩ := next_eq_ok passed
  refine ⟨letter, rfl, ?_⟩
  rw [List.length_append, Nat.add_sub_cancel, List.take_left]

/-- What is behind a character is valid exactly when the whole string is. -/
theorem valid_utf8EncodeChar_append {letter : Char} {rest : Bytes} :
    Valid (String.utf8EncodeChar letter ++ rest) ↔ Valid rest := by
  constructor
  · rintro ⟨letters, same⟩
    cases letters with
    | nil => exact absurd same.symm (by simp [String.utf8EncodeChar_ne_nil])
    | cons other others =>
      have read := cut_utf8EncodeChar letter rest
      rw [← same, encode_cons, cut_utf8EncodeChar] at read
      exact ⟨others, (Prod.mk.inj (Except.ok.inj read)).2⟩
  · rintro ⟨letters, rfl⟩
    exact ⟨letter :: letters, rfl⟩

theorem utf8EncodeChar_injective : Function.Injective String.utf8EncodeChar := by
  intro first second same
  have firstRead := next_utf8EncodeChar first []
  rw [same, next_utf8EncodeChar second []] at firstRead
  exact (Char.toNat_inj.mp (Prod.mk.inj (Except.ok.inj firstRead)).2).symm

/-! ### Character lengths -/

/-- The loop that counts the ones behind the first bit of a byte. -/
def leadingOnes (ch : UInt8) : Nat → Nat → Nat
  | 0, nBytes => nBytes
  | bit + 1, nBytes =>
    if ch.toNat.testBit (bit + 1) then leadingOnes ch bit (nBytes + 1) else nBytes

/-- `nBytesCode` of the classes `WebPageSearcher` and `Dictionary`. -/
def nBytesCode (ch : UInt8) : Nat := if ch.toNat.testBit 7 then leadingOnes ch 6 1 else 1

/-- The first byte of a character tells its length. -/
theorem nBytesCode_utf8EncodeChar (letter : Char) :
    ∃ lead trail, String.utf8EncodeChar letter = lead :: trail ∧
      nBytesCode lead = (String.utf8EncodeChar letter).length := by
  have valid : letter.toNat < 0x110000 := by
    have range : letter.toNat < 0xd800 ∨ 0xdfff < letter.toNat ∧ letter.toNat < 0x110000 :=
      letter.valid
    omega
  rw [utf8EncodeChar_eq]
  split_ifs with one two three
  all_goals
    refine ⟨_, _, rfl, ?_⟩
    simp only [nBytesCode, leadingOnes, Nat.testBit_eq_decide_div_mod_eq, decide_eq_true_eq,
      List.length_cons, List.length_nil, UInt8.toNat_ofNat']
    norm_num
    split_ifs <;> first | rfl | omega

theorem leadingOnes_bounds (ch : UInt8) (bit nBytes : Nat) :
    nBytes ≤ leadingOnes ch bit nBytes ∧ leadingOnes ch bit nBytes ≤ nBytes + bit := by
  induction bit generalizing nBytes with
  | zero => exact ⟨le_rfl, le_rfl⟩
  | succ bit inductionHypothesis =>
    obtain ⟨lower, upper⟩ := inductionHypothesis (nBytes + 1)
    rw [leadingOnes]
    split_ifs <;> omega

theorem nBytesCode_pos (ch : UInt8) : 0 < nBytesCode ch := by
  have lower := (leadingOnes_bounds ch 6 1).1
  rw [nBytesCode]
  split_ifs <;> omega

theorem nBytesCode_le (ch : UInt8) : nBytesCode ch ≤ 7 := by
  have upper := (leadingOnes_bounds ch 6 1).2
  rw [nBytesCode]
  split_ifs <;> omega

/-- Stepping by the lengths of the first bytes cuts a valid string into its characters. -/
theorem chunks_encode (letters : List Char) :
    Widths.chunks nBytesCode (encode letters) = letters.map String.utf8EncodeChar := by
  induction letters with
  | nil => rfl
  | cons letter letters inductionHypothesis =>
    obtain ⟨lead, trail, split, size⟩ := nBytesCode_utf8EncodeChar letter
    rw [split, List.length_cons] at size
    rw [encode_cons, List.map_cons, split, Widths.chunks_append nBytesCode size,
      inductionHypothesis]

/-- No character of a valid string is cut short. -/
theorem exact_encode (letters : List Char) : Widths.Exact nBytesCode (encode letters) := by
  induction letters with
  | nil => rfl
  | cons letter letters inductionHypothesis =>
    obtain ⟨lead, trail, split, size⟩ := nBytesCode_utf8EncodeChar letter
    rw [split, List.length_cons] at size
    rw [encode_cons, split, List.cons_append, Widths.exact_cons nBytesCode_pos, size,
      Nat.add_sub_cancel, List.drop_left, List.length_append]
    exact ⟨by omega, inductionHypothesis⟩

/-! ### Positions between characters -/

/-- A text has one encoding. -/
theorem encode_injective : Function.Injective encode := by
  intro first second same
  have chunks := congrArg (Widths.chunks nBytesCode) same
  rw [chunks_encode, chunks_encode] at chunks
  exact List.map_injective_iff.mpr utf8EncodeChar_injective chunks

/-- A position in a text that is between two characters, or at an end. -/
def Boundary (letters : List Char) (k : Nat) : Prop :=
  ∃ front, front <+: letters ∧ k = (encode front).length

theorem boundary_zero (letters : List Char) : Boundary letters 0 := ⟨[], List.nil_prefix, rfl⟩

theorem boundary_length (letters : List Char) : Boundary letters (encode letters).length :=
  ⟨letters, List.prefix_rfl, rfl⟩

/-- Where a valid text is put together from two valid ones, it is cut between characters. -/
theorem boundary_of_append {letters : List Char} {front back : Bytes}
    (split : encode letters = front ++ back) (frontValid : Valid front) (backValid : Valid back) :
    Boundary letters front.length := by
  obtain ⟨first, rfl⟩ := frontValid
  obtain ⟨second, rfl⟩ := backValid
  rw [← encode_append] at split
  rw [encode_injective split]
  exact ⟨first, List.prefix_append _ _, rfl⟩

/-- What is between two such positions is valid. -/
theorem Boundary.valid {letters : List Char} {first last : Nat} (begins : Boundary letters first)
    (ends : Boundary letters last) : Valid (((encode letters).take last).drop first) := by
  obtain ⟨front, frontPrefix, rfl⟩ := begins
  obtain ⟨longer, ⟨rest, rfl⟩, rfl⟩ := ends
  rw [encode_append, List.take_left]
  rcases List.prefix_or_prefix_of_prefix frontPrefix (List.prefix_append longer rest) with
    ⟨middle, rfl⟩ | ⟨middle, rfl⟩
  · rw [encode_append, List.drop_left]
    exact ⟨middle, rfl⟩
  · refine ⟨[], ?_⟩
    rw [List.drop_of_length_le]
    · rfl
    · rw [encode_append, List.length_append]
      exact Nat.le_add_right _ _

end SearchEngine.Utf8
