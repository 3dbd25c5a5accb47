/-
This file models `StrPair` of the XML library: how a piece of the buffer is cut
out, and how `GetStr` turns it into the string that a caller sees.

`GetStr` normalizes line ends and decodes the references that begin with an
ampersand, in place. A reference it does not know is passed over without being
written, which leaves the byte of the buffer that stands at the write pointer.
What a text without line ends keeps is decided by its references: the result is
the text itself exactly when nothing in it is decoded.
-/

import SearchEngine.Basic

namespace SearchEngine

namespace Tinyxml2

/-! ### Characters -/

/-- `'&'` -/
def ampersand : UInt8 := 38

/-- `'#'` -/
def hash : UInt8 := 35

/-- `';'` -/
def semicolon : UInt8 := 59

/-- `'x'` -/
def letterX : UInt8 := 120

/-- `CARRIAGE_RETURN` -/
def carriageReturn : UInt8 := 13

/-- `XMLUtil::SkipWhiteSpace` -/
def skipWhiteSpace (p : Bytes) : Bytes := p.dropWhile Text.isSpace

/-- `isalpha` in the "C" locale. -/
def isAlpha (ch : UInt8) : Bool := (65 ≤ ch && ch ≤ 90) || (97 ≤ ch && ch ≤ 122)

/-- `XMLUtil::IsNameStartChar`, which accepts `':'` and `'_'` too. -/
def isNameStartChar (ch : UInt8) : Bool := 128 ≤ ch || isAlpha ch || ch == 58 || ch == 95

/-- `XMLUtil::IsNameChar`, which accepts `'.'` and `'-'` too. -/
def isNameChar (ch : UInt8) : Bool :=
  isNameStartChar ch || Text.isDigit ch || ch == 46 || ch == 45

/-! ### Cutting -/

/-- `StrPair::ParseText`: the text before an end tag, and what is behind the tag. -/
def parseText (endTag p : Bytes) : Option (Bytes × Bytes) := Text.cut endTag p

/-- `StrPair::ParseName` -/
def parseName : Bytes → Option (Bytes × Bytes)
  | [] => none
  | byte :: p =>
    if isNameStartChar byte then some (byte :: p.takeWhile isNameChar, p.dropWhile isNameChar)
    else none

/-! ### References -/

/-- `entities`, each with the character it stands for. -/
def entities : List (Bytes × UInt8) :=
  [(ascii "quot", 34), (ascii "amp", 38), (ascii "apos", 39), (ascii "lt", 60), (ascii "gt", 62)]

/-- The value of a decimal digit in `XMLUtil::GetCharacterRef`. -/
def decimalDigit (ch : UInt8) : Option Nat :=
  if Text.isDigit ch then some (ch.toNat - 48) else none

/-- The value of a hexadecimal digit in `XMLUtil::GetCharacterRef`. -/
def hexadecimalDigit (ch : UInt8) : Option Nat :=
  if Text.isDigit ch then some (ch.toNat - 48)
  else if 97 ≤ ch ∧ ch ≤ 102 then some (ch.toNat - 97 + 10)
  else if 65 ≤ ch ∧ ch ≤ 70 then some (ch.toNat - 65 + 10)
  else none

/-- The loops of `XMLUtil::GetCharacterRef` over the digits of a reference, from the last one
backwards; `mult` is 32 bits wide and `ucs` is 64 bits wide. -/
def digitsLoop (digitOf : UInt8 → Option Nat) (base : Nat) : Bytes → Nat → Nat → Option Nat
  | [], _, ucs => some ucs
  | ch :: before, mult, ucs =>
    match digitOf ch with
    | none => none
    | some digit =>
      digitsLoop digitOf base before (mult * base % 2 ^ 32)
        ((ucs + mult * digit % 2 ^ 32) % 2 ^ 64)

/-- `XMLUtil::ConvertUTF32ToUTF8` -/
def convertUTF32ToUTF8 (input : Nat) : Bytes :=
  let continuation (input : Nat) : UInt8 := UInt8.ofNat (0x80 + input % 0x40)
  if input < 0x80 then [UInt8.ofNat input]
  else if input < 0x800 then [UInt8.ofNat (0xC0 + input / 0x40), continuation input]
  else if input < 0x10000 then
    [UInt8.ofNat (0xE0 + input / 0x1000), continuation (input / 0x40), continuation input]
  else if input < 0x200000 then
    [UInt8.ofNat (0xF0 + input / 0x40000), continuation (input / 0x1000),
      continuation (input / 0x40), continuation input]
  else []

/-- The value of a reference whose digits run up to a semicolon and back to the mark, and the
number of bytes up to the semicolon. -/
def reference (digitOf : UInt8 → Option Nat) (base : Nat) (mark : UInt8) (q : Bytes) :
    Option (Nat × Bytes) :=
  if semicolon ∈ q then
    let digits := q.takeWhile (· ≠ semicolon)
    (digitsLoop digitOf base (digits.reverse.takeWhile (· ≠ mark)) 1 0).map fun ucs =>
      (digits.length, convertUTF32ToUTF8 ucs)
  else none

/-- `XMLUtil::GetCharacterRef` behind `"&#"`: how many bytes behind the ampersand are consumed, and
what they stand for. Where nothing follows, nothing but the ampersand is consumed. -/
def getCharacterRef : Bytes → Option (Nat × Bytes)
  | [] => some (0, [])
  | first :: q =>
    if first = letterX then
      (reference hexadecimalDigit 16 letterX q).map fun (count, value) => (count + 3, value)
    else (reference decimalDigit 10 hash (first :: q)).map fun (count, value) => (count + 2, value)

/-- What an ampersand and the bytes behind it are decoded to: the number of bytes behind the
ampersand that are consumed, and what stands for them. -/
def decoded : Bytes → Option (Nat × Bytes)
  | [] => none
  | first :: p =>
    if first = hash then getCharacterRef p
    else
      (entities.find? fun entity => decide (entity.1 ++ [semicolon] <+: first :: p)).map
        fun entity => (entity.1.length + 1, [entity.2])

/-! ### `GetStr` -/

/-- The loop of `StrPair::GetStr` over the buffer from the read pointer on; `written` is what is
before the write pointer. Each round reads at least one byte. -/
def getStrLoop (processEntities : Bool) (start : Bytes) : Nat → Bytes → Bytes → Bytes
  | 0, _, written => written
  | _ + 1, [], written => written
  | rounds + 1, byte :: p, written =>
    if byte = carriageReturn then
      getStrLoop processEntities start rounds (if p.head? = some newline then p.tail else p)
        (written ++ [newline])
    else if byte = newline then
      getStrLoop processEntities start rounds (if p.head? = some carriageReturn then p.tail else p)
        (written ++ [newline])
    else if processEntities = true ∧ byte = ampersand then
      match decoded p with
      | some (count, value) =>
        getStrLoop processEntities start rounds (p.drop count) (written ++ value)
      | none =>
        if p.head? = some hash then getStrLoop processEntities start rounds p (written ++ [byte])
        -- the write pointer moves on, and nothing is written
        else
          getStrLoop processEntities start rounds p
            (written ++ [start.getD written.length ampersand])
    else getStrLoop processEntities start rounds p (written ++ [byte])

/-- `StrPair::GetStr`, up to the first NUL of its result. -/
def getStr (processEntities : Bool) (text : Bytes) : Bytes :=
  (getStrLoop processEntities text text.length text []).takeWhile (· ≠ 0)

/-! ### What decoding does to the length -/

/-- A reference is decoded in the text. -/
def Decodes (text : Bytes) : Prop :=
  ∃ before after, text = before ++ ampersand :: after ∧ decoded after ≠ none

theorem decodes_cons (byte : UInt8) (text : Bytes) :
    Decodes (byte :: text) ↔ byte = ampersand ∧ decoded text ≠ none ∨ Decodes text := by
  constructor
  · rintro ⟨before, after, split, reference⟩
    cases before with
    | nil =>
      obtain ⟨rfl, rfl⟩ := List.cons.inj split
      exact Or.inl ⟨rfl, reference⟩
    | cons first before =>
      obtain ⟨rfl, rfl⟩ := List.cons.inj split
      exact Or.inr ⟨before, after, rfl, reference⟩
  · rintro (⟨rfl, reference⟩ | ⟨before, after, rfl, reference⟩)
    · exact ⟨[], text, rfl, reference⟩
    · exact ⟨byte :: before, after, rfl, reference⟩

instance decidableDecodes : (text : Bytes) → Decidable (Decodes text)
  | [] => isFalse fun ⟨before, _, split, _⟩ => by cases before <;> cases split
  | byte :: text =>
    have := decidableDecodes text
    decidable_of_iff _ (decodes_cons byte text).symm

theorem length_convertUTF32ToUTF8 (input : Nat) :
    (convertUTF32ToUTF8 input).length ≤ 4 ∧
      (input < 0x80 → (convertUTF32ToUTF8 input).length = 1) := by
  simp only [convertUTF32ToUTF8]
  split_ifs with one two three four
  · exact ⟨by simp, fun _ => rfl⟩
  · exact ⟨by simp, fun small => absurd small one⟩
  · exact ⟨by simp, fun small => absurd small one⟩
  · exact ⟨by simp, fun small => absurd small one⟩
  · exact ⟨by simp, fun small => absurd small one⟩

theorem decimalDigit_lt {ch : UInt8} {digit : Nat} (value : decimalDigit ch = some digit) :
    digit < 10 := by
  rw [decimalDigit] at value
  split_ifs at value with isDigit
  rw [Text.isDigit, Bool.and_eq_true, decide_eq_true_eq, decide_eq_true_eq,
    UInt8.le_iff_toNat_le, UInt8.le_iff_toNat_le] at isDigit
  have range : 48 ≤ ch.toNat ∧ ch.toNat ≤ 57 := isDigit
  have same := Option.some.inj value
  omega

/-- A decimal reference of at most one digit stands for an ASCII character. -/
theorem digitsLoop_short {digits : Bytes} {ucs : Nat} (short : digits.length ≤ 1)
    (value : digitsLoop decimalDigit 10 digits 1 0 = some ucs) : ucs < 0x80 := by
  cases digits with
  | nil =>
    cases value
    norm_num
  | cons ch before =>
    obtain rfl : before = [] := List.length_eq_zero_iff.mp (Nat.le_zero.mp (by simpa using short))
    rw [digitsLoop] at value
    cases found : decimalDigit ch with
    | none =>
      rw [found] at value
      cases value
    | some digit =>
      have small := decimalDigit_lt found
      rw [found] at value
      have same := Option.some.inj value
      rw [← same]
      have bounded : (0 + 1 * digit % 2 ^ 32) % 2 ^ 64 = digit := by
        rw [Nat.zero_add, Nat.one_mul, Nat.mod_eq_of_lt, Nat.mod_eq_of_lt]
        · exact lt_trans small (by norm_num)
        · rw [Nat.mod_eq_of_lt]
          · exact lt_trans small (by norm_num)
          · exact lt_trans small (by norm_num)
      omega

theorem length_takeWhile_lt {q : Bytes} (found : semicolon ∈ q) :
    (q.takeWhile (· ≠ semicolon)).length < q.length := by
  refine lt_of_le_of_ne (List.takeWhile_sublist _).length_le fun same => ?_
  have all := (List.takeWhile_prefix (· ≠ semicolon)).eq_of_length same
  rw [List.takeWhile_eq_self_iff] at all
  simpa using all semicolon found

theorem reference_eq_some {digitOf : UInt8 → Option Nat} {base count : Nat} {mark : UInt8}
    {q value : Bytes} (found : reference digitOf base mark q = some (count, value)) :
    ∃ ucs,
      digitsLoop digitOf base ((q.takeWhile (· ≠ semicolon)).reverse.takeWhile (· ≠ mark)) 1 0 =
        some ucs ∧
      count = (q.takeWhile (· ≠ semicolon)).length ∧ value = convertUTF32ToUTF8 ucs ∧
      (q.takeWhile (· ≠ semicolon)).length < q.length := by
  rw [reference] at found
  split_ifs at found with listed
  obtain ⟨ucs, scanned, same⟩ := Option.map_eq_some_iff.mp found
  cases same
  exact ⟨ucs, scanned, rfl, rfl, length_takeWhile_lt listed⟩

/-- What a reference stands for is shorter than the reference. -/
theorem length_getCharacterRef {p value : Bytes} {count : Nat}
    (found : getCharacterRef p = some (count, value)) :
    value.length ≤ count ∧ count ≤ p.length + 1 := by
  cases p with
  | nil =>
    cases found
    exact ⟨Nat.le_refl _, Nat.zero_le _⟩
  | cons first q =>
    rw [getCharacterRef] at found
    split_ifs at found with hexadecimal
    · obtain ⟨⟨digits, bytes⟩, ends, same⟩ := Option.map_eq_some_iff.mp found
      cases same
      obtain ⟨ucs, scanned, rfl, rfl, shorter⟩ := reference_eq_some ends
      obtain ⟨four, -⟩ := length_convertUTF32ToUTF8 ucs
      refine ⟨?_, by rw [List.length_cons]; omega⟩
      by_cases none : (q.takeWhile (· ≠ semicolon)).length = 0
      · rw [List.length_eq_zero_iff] at none
        rw [none] at scanned
        cases scanned
        simp [convertUTF32ToUTF8]
      · omega
    · obtain ⟨⟨digits, bytes⟩, ends, same⟩ := Option.map_eq_some_iff.mp found
      cases same
      obtain ⟨ucs, scanned, rfl, rfl, shorter⟩ := reference_eq_some ends
      obtain ⟨four, one⟩ := length_convertUTF32ToUTF8 ucs
      rw [List.length_cons] at shorter
      refine ⟨?_, by rw [List.length_cons]; omega⟩
      by_cases short : ((first :: q).takeWhile (· ≠ semicolon)).length ≤ 1
      · have small := digitsLoop_short (le_trans ?_ short) scanned
        · rw [one small]
          omega
        · exact le_of_le_of_eq (List.takeWhile_sublist _).length_le List.length_reverse
      · omega

theorem length_decoded {p value : Bytes} {count : Nat} (found : decoded p = some (count, value)) :
    value.length ≤ count ∧ count ≤ p.length := by
  cases p with
  | nil => cases found
  | cons first p =>
    rw [decoded] at found
    split_ifs at found with numeric
    · rw [List.length_cons]
      exact length_getCharacterRef found
    · obtain ⟨entity, listed, same⟩ := Option.map_eq_some_iff.mp found
      cases same
      have chosen := List.find?_some listed
      have begins : entity.1 ++ [semicolon] <+: first :: p := of_decide_eq_true chosen
      have shorter := begins.length_le
      rw [List.length_append, List.length_singleton] at shorter
      exact ⟨by simp, shorter⟩

/-! ### When a text is kept -/

/-- A byte that is not a control character ends no line. -/
theorem not_lineEnd {byte : UInt8} (printable : 32 ≤ byte) :
    ¬ (byte = carriageReturn ∨ byte = newline) := by
  rintro (rfl | rfl) <;> exact absurd printable (by decide)

/-- What a round of `GetStr` does with a byte and the bytes behind it: where it goes on, and what it
writes. -/
inductive Reads (processEntities : Bool) (start written : Bytes) (byte : UInt8) (p : Bytes) :
    Bytes → Bytes → Prop
  | lineEnd (next : Bytes) (ending : byte = carriageReturn ∨ byte = newline)
      (suffix : next <:+ p) : Reads processEntities start written byte p next [newline]
  | reference (count : Nat) (value : Bytes) (entity : processEntities = true ∧ byte = ampersand)
      (found : decoded p = some (count, value)) :
      Reads processEntities start written byte p (p.drop count) value
  | passed (entity : processEntities = true ∧ byte = ampersand) (unknown : decoded p = none) :
      Reads processEntities start written byte p p [start.getD written.length ampersand]
  | copied (inside : byte ≠ carriageReturn ∧ byte ≠ newline)
      (unknown : processEntities = true → byte = ampersand → decoded p = none) :
      Reads processEntities start written byte p p [byte]

theorem reads_round (processEntities : Bool) (start : Bytes) (rounds : Nat) (byte : UInt8)
    (p written : Bytes) :
    ∃ next new, Reads processEntities start written byte p next new ∧
      getStrLoop processEntities start (rounds + 1) (byte :: p) written =
        getStrLoop processEntities start rounds next (written ++ new) := by
  have suffix (ending : UInt8) : (if p.head? = some ending then p.tail else p) <:+ p := by
    split_ifs
    · exact List.tail_suffix p
    · exact List.suffix_rfl
  by_cases cr : byte = carriageReturn
  · refine ⟨_, _, .lineEnd _ (Or.inl cr) (suffix newline), ?_⟩
    rw [getStrLoop, if_pos cr]
  by_cases lf : byte = newline
  · refine ⟨_, _, .lineEnd _ (Or.inr lf) (suffix carriageReturn), ?_⟩
    rw [getStrLoop, if_neg cr, if_pos lf]
  by_cases entity : processEntities = true ∧ byte = ampersand
  · cases found : decoded p with
    | some result =>
      refine ⟨_, _, .reference result.1 result.2 entity found, ?_⟩
      rw [getStrLoop, if_neg cr, if_neg lf, if_pos entity, found]
    | none =>
      by_cases numeric : p.head? = some hash
      · refine ⟨_, _, .copied ⟨cr, lf⟩ fun _ _ => found, ?_⟩
        rw [getStrLoop, if_neg cr, if_neg lf, if_pos entity, found]
        dsimp only
        rw [if_pos numeric]
      · refine ⟨_, _, .passed entity found, ?_⟩
        rw [getStrLoop, if_neg cr, if_neg lf, if_pos entity, found]
        dsimp only
        rw [if_neg numeric]
  · refine ⟨_, _, .copied ⟨cr, lf⟩ fun active same => absurd ⟨active, same⟩ entity, ?_⟩
    rw [getStrLoop, if_neg cr, if_neg lf, if_neg entity]

variable {start : Bytes}

/-- A round writes no more than it reads. -/
theorem Reads.length_le {processEntities : Bool} {written p next new : Bytes} {byte : UInt8}
    (reads : Reads processEntities start written byte p next new) :
    new.length + next.length ≤ p.length + 1 := by
  cases reads with
  | lineEnd _ ending suffix =>
    rw [List.length_singleton, Nat.add_comm]
    exact Nat.succ_le_succ suffix.length_le
  | reference count _ entity found =>
    obtain ⟨fewer, inside⟩ := length_decoded found
    rw [List.length_drop]
    omega
  | passed entity unknown => rw [List.length_singleton, Nat.add_comm]
  | copied inside unknown => rw [List.length_singleton, Nat.add_comm]

theorem length_getStrLoop (processEntities : Bool) (rounds : Nat) (p written : Bytes) :
    (getStrLoop processEntities start rounds p written).length ≤ written.length + p.length := by
  induction rounds generalizing p written with
  | zero => exact Nat.le_add_right _ _
  | succ rounds inductionHypothesis =>
    cases p with
    | nil => exact Nat.le_add_right _ _
    | cons byte p =>
      obtain ⟨next, new, reads, same⟩ := reads_round processEntities start rounds byte p written
      have rest := inductionHypothesis next (written ++ new)
      have shorter := reads.length_le
      rw [List.length_append] at rest
      rw [same, List.length_cons]
      omega

/-- A text in which a reference is decoded becomes shorter. -/
theorem length_getStrLoop_of_decodes {rounds : Nat} {p written : Bytes}
    (printable : ∀ byte ∈ p, 32 ≤ byte) (decodes : Decodes p) :
    (getStrLoop true start rounds p written).length < written.length + p.length := by
  induction rounds generalizing p written with
  | zero =>
    obtain ⟨before, after, rfl, -⟩ := decodes
    simp [getStrLoop]
  | succ rounds inductionHypothesis =>
    cases p with
    | nil =>
      obtain ⟨before, after, same, -⟩ := decodes
      cases before <;> cases same
    | cons byte p =>
      obtain ⟨next, new, reads, same⟩ := reads_round true start rounds byte p written
      obtain ⟨lower, later⟩ := List.forall_mem_cons.mp printable
      rw [same, List.length_cons]
      -- the reference is here, or behind a byte for which one byte is written
      have behind (unknown : byte = ampersand → decoded p = none) : Decodes p :=
        ((decodes_cons byte p).mp decodes).resolve_left fun here => here.2 (unknown here.1)
      cases reads with
      | lineEnd _ ending suffix => exact absurd ending (not_lineEnd lower)
      | reference count _ entity found =>
        obtain ⟨fewer, inside⟩ := length_decoded found
        have rest : (getStrLoop true start rounds (p.drop count) (written ++ new)).length ≤ _ :=
          length_getStrLoop true rounds (p.drop count) (written ++ new)
        rw [List.length_append, List.length_drop] at rest
        omega
      | passed entity unknown =>
        have rest : (getStrLoop true start rounds p
            (written ++ [start.getD written.length ampersand])).length < _ :=
          inductionHypothesis later (behind fun _ => unknown)
        rw [List.length_append, List.length_singleton] at rest
        omega
      | copied inside unknown =>
        have rest : (getStrLoop true start rounds p (written ++ [byte])).length < _ :=
          inductionHypothesis later (behind (unknown rfl))
        rw [List.length_append, List.length_singleton] at rest
        omega

/-- A text in which no reference is decoded is written as it is. -/
theorem getStrLoop_of_not_decodes {rounds : Nat} {p written : Bytes} (enough : p.length ≤ rounds)
    (printable : ∀ byte ∈ p, 32 ≤ byte) (whole : start = written ++ p) (plain : ¬ Decodes p) :
    getStrLoop true start rounds p written = start := by
  induction rounds generalizing p written with
  | zero =>
    rw [Nat.le_zero, List.length_eq_zero_iff] at enough
    rw [getStrLoop, whole, enough, List.append_nil]
  | succ rounds inductionHypothesis =>
    cases p with
    | nil => rw [getStrLoop, whole, List.append_nil]
    | cons byte p =>
      obtain ⟨next, new, reads, same⟩ := reads_round true start rounds byte p written
      obtain ⟨lower, later⟩ := List.forall_mem_cons.mp printable
      have behind : ¬ Decodes p := fun decodes => plain ((decodes_cons byte p).mpr (Or.inr decodes))
      rw [List.length_cons, Nat.add_le_add_iff_right] at enough
      rw [same]
      cases reads with
      | lineEnd _ ending suffix => exact absurd ending (not_lineEnd lower)
      | reference count _ entity found =>
        refine absurd ((decodes_cons byte p).mpr (Or.inl ⟨entity.2, ?_⟩)) plain
        rw [found]
        exact Option.some_ne_none _
      | passed entity unknown =>
        -- the byte at the write pointer is the ampersand itself
        have kept : start.getD written.length ampersand = byte := by
          rw [whole, List.getD_append_right _ _ _ _ le_rfl, Nat.sub_self, List.getD_cons_zero]
        rw [kept]
        exact inductionHypothesis enough later (by rw [whole, List.append_assoc]; rfl) behind
      | copied inside unknown =>
        exact inductionHypothesis enough later (by rw [whole, List.append_assoc]; rfl) behind

/-- A text without control characters is kept exactly when no reference in it is decoded. -/
theorem getStr_eq_iff {text : Bytes} (printable : ∀ byte ∈ text, 32 ≤ byte) :
    getStr true text = text ↔ ¬ Decodes text := by
  constructor
  · intro same decodes
    have shorter : (getStrLoop true text text.length text []).length < [].length + text.length :=
      length_getStrLoop_of_decodes printable decodes
    have ended : (getStr true text).length ≤ (getStrLoop true text text.length text []).length :=
      (List.takeWhile_sublist _).length_le
    rw [same] at ended
    rw [List.length_nil] at shorter
    omega
  · intro plain
    have kept : getStrLoop true text text.length text [] = text :=
      getStrLoop_of_not_decodes le_rfl printable rfl plain
    rw [getStr, kept, List.takeWhile_eq_self_iff]
    intro byte member
    have lower := printable byte member
    simp only [decide_eq_true_eq]
    rintro rfl
    exact absurd lower (by decide)

/-- Characters that are no line ends are copied where references are left alone. -/
theorem prefix_getStrLoop {rounds : Nat} {front back written : Bytes}
    (enough : front.length ≤ rounds) (printable : ∀ byte ∈ front, 32 ≤ byte) :
    written ++ front <+: getStrLoop false start rounds (front ++ back) written := by
  induction front generalizing rounds written with
  | nil =>
    -- what is written stays
    rw [List.append_nil, List.nil_append]
    clear enough printable
    induction rounds generalizing back written with
    | zero => exact List.prefix_rfl
    | succ rounds inductionHypothesis =>
      cases back with
      | nil => exact List.prefix_rfl
      | cons byte back =>
        obtain ⟨next, new, -, same⟩ := reads_round false start rounds byte back written
        rw [same]
        exact (List.prefix_append _ _).trans inductionHypothesis
  | cons byte front inductionHypothesis =>
    obtain ⟨lower, later⟩ := List.forall_mem_cons.mp printable
    cases rounds with
    | zero => cases enough
    | succ rounds =>
      rw [List.length_cons, Nat.add_le_add_iff_right] at enough
      obtain ⟨next, new, reads, same⟩ :=
        reads_round false start rounds byte (front ++ back) written
      rw [List.cons_append, same]
      cases reads with
      | lineEnd _ ending suffix => exact absurd ending (not_lineEnd lower)
      | reference count _ entity found => cases entity.1
      | passed entity unknown => cases entity.1
      | copied inside unknown =>
        have rest : written ++ [byte] ++ front <+: _ := inductionHypothesis enough later
        rw [List.append_assoc, List.singleton_append] at rest
        exact rest

theorem prefix_getStr {front : Bytes} (printable : ∀ byte ∈ front, 32 ≤ byte) (back : Bytes) :
    front <+: getStr false (front ++ back) := by
  obtain ⟨rest, same⟩ : [] ++ front <+: getStrLoop false (front ++ back) (front ++ back).length
      (front ++ back) [] := prefix_getStrLoop (by simp) printable
  have visible : ∀ byte ∈ front, decide (byte ≠ 0) = true := by
    intro byte member
    have lower := printable byte member
    rw [decide_eq_true_eq]
    rintro rfl
    exact absurd lower (by decide)
  rw [getStr, ← same, List.nil_append, List.takeWhile_append_of_pos visible]
  exact List.prefix_append _ _

theorem length_getStr (processEntities : Bool) (text : Bytes) :
    (getStr processEntities text).length ≤ text.length := by
  have whole : (getStrLoop processEntities text text.length text []).length ≤
      [].length + text.length :=
    length_getStrLoop processEntities text.length text []
  rw [List.length_nil, Nat.zero_add] at whole
  exact (List.takeWhile_sublist _).length_le.trans whole

end Tinyxml2

end SearchEngine
