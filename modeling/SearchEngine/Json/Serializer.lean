/-
This file models the JSON writer of the library the program carries,
`serializer::dump`, and determines what it writes.

A string is escaped byte by byte, over an automaton that checks UTF-8 on the way:
the bytes in front of the last one of a character are copied before it is known
whether they are escaped, which is harmless because only characters of one byte
are. The automaton accepts exactly the valid strings, so a value is written
unless one of its strings or names is not valid.
-/

import SearchEngine.Json.Sequences

namespace SearchEngine

open Utf8

/-! ### JSON -/

/-- `nlohmann::json` -/
inductive Json where
  | null
  | string (text : Bytes)
  | number (value : Int)
  | array (elements : List Json)
  | object (members : List (Bytes × Json))

namespace Json

mutual

/-- The strings of a value, with the names of the members. -/
def texts : Json → List Bytes
  | .null => []
  | .string text => [text]
  | .number _ => []
  | .array elements => arrayTexts elements
  | .object members => objectTexts members

/-- The strings of the elements of an array. -/
def arrayTexts : List Json → List Bytes
  | [] => []
  | element :: elements => element.texts ++ arrayTexts elements

/-- The strings of the members of an object. -/
def objectTexts : List (Bytes × Json) → List Bytes
  | [] => []
  | (name, member) :: members => name :: member.texts ++ objectTexts members

end

/-- A value that elements were pushed into. -/
def pushed (elements : List Json) : Json := if elements = [] then .null else .array elements

theorem arrayTexts_strings (texts : List Bytes) : arrayTexts (texts.map .string) = texts := by
  induction texts with
  | nil => rfl
  | cons text texts inductionHypothesis =>
    rw [List.map_cons, arrayTexts, inductionHypothesis, Json.texts]
    rfl

end Json

namespace Serializer

/-! ### The automaton -/

/-- The classes of the bytes in `utf8d`. -/
def byteTypes : List Nat :=
  List.replicate 128 0 ++ List.replicate 16 1 ++ List.replicate 16 9 ++ List.replicate 32 7 ++
    [8, 8] ++ List.replicate 30 2 ++
    [0xA, 0x3, 0x3, 0x3, 0x3, 0x3, 0x3, 0x3, 0x3, 0x3, 0x3, 0x3, 0x3, 0x4, 0x3, 0x3] ++
    [0xB, 0x6, 0x6, 0x6, 0x5, 0x8, 0x8, 0x8, 0x8, 0x8, 0x8, 0x8, 0x8, 0x8, 0x8, 0x8]

/-- The states in `utf8d`, by the state before and the class. -/
def transitions : List Nat :=
  [0x0, 0x1, 0x2, 0x3, 0x5, 0x8, 0x7, 0x1, 0x1, 0x1, 0x4, 0x6, 0x1, 0x1, 0x1, 0x1] ++
    [1, 1, 1, 1, 1, 1, 1, 1, 1, 1, 1, 1, 1, 1, 1, 1] ++
    [1, 0, 1, 1, 1, 1, 1, 0, 1, 0, 1, 1, 1, 1, 1, 1] ++
    [1, 2, 1, 1, 1, 1, 1, 2, 1, 2, 1, 1, 1, 1, 1, 1] ++
    [1, 1, 1, 1, 1, 1, 1, 2, 1, 1, 1, 1, 1, 1, 1, 1] ++
    [1, 2, 1, 1, 1, 1, 1, 1, 1, 2, 1, 1, 1, 1, 1, 1] ++
    [1, 1, 1, 1, 1, 1, 1, 3, 1, 3, 1, 1, 1, 1, 1, 1] ++
    [1, 3, 1, 1, 1, 1, 1, 3, 1, 3, 1, 1, 1, 1, 1, 1] ++
    [1, 3, 1, 1, 1, 1, 1, 1, 1, 1, 1, 1, 1, 1, 1, 1]

/-- `utf8d` -/
def utf8d : List Nat := byteTypes ++ transitions

/-- `UTF8_ACCEPT` -/
def utf8Accept : Nat := 0

/-- `UTF8_REJECT` -/
def utf8Reject : Nat := 1

/-- The state that `decode` goes to with a byte. -/
def nextState (state byte : Nat) : Nat :=
  utf8d.getD (256 + state * 16 + utf8d.getD byte 0) utf8Reject

/-- `decode`: the state and the code point after it. The masks are remainders. -/
def decode (state codep : Nat) (byte : UInt8) : Nat × Nat :=
  let codep :=
    if state ≠ utf8Accept then byte.toNat % 64 + codep * 64
    else byte.toNat % 2 ^ (8 - utf8d.getD byte.toNat 0)
  (nextState state byte.toNat, codep)

/-! ### Strings -/

/-- A digit of `%x` -/
def hexDigit (digit : Nat) : UInt8 := UInt8.ofNat (if digit < 10 then 48 + digit else 87 + digit)

/-- `%04x` -/
def hex4 (number : Nat) : Bytes :=
  [hexDigit (number / 4096 % 16), hexDigit (number / 256 % 16), hexDigit (number / 16 % 16),
    hexDigit (number % 16)]

/-- What is written for a code point that is escaped, where `ensure_ascii` is not set. -/
def escaped (codepoint : Nat) : Option Bytes :=
  if codepoint = 0x08 then some (ascii "\\b")
  else if codepoint = 0x09 then some (ascii "\\t")
  else if codepoint = 0x0a then some (ascii "\\n")
  else if codepoint = 0x0c then some (ascii "\\f")
  else if codepoint = 0x0d then some (ascii "\\r")
  else if codepoint = 0x22 then some (ascii "\\\"")
  else if codepoint = 0x5c then some (ascii "\\\\")
  else if codepoint ≤ 0x1f then some (ascii "\\u" ++ hex4 codepoint)
  else none

/-- The loop of `dump_escaped`; it returns what has been written. -/
def dumpEscapedLoop : Bytes → Nat → Nat → Bytes → Except Fault Bytes
  | [], state, _, written => if state = utf8Accept then .ok written else .error .jsonError
  | byte :: s, state, codepoint, written =>
    let (state, codepoint) := decode state codepoint byte
    if state = utf8Accept then
      dumpEscapedLoop s state codepoint (written ++ (escaped codepoint).getD [byte])
    else if state = utf8Reject then .error .jsonError
    else dumpEscapedLoop s state codepoint (written ++ [byte])

/-- `dump_escaped` with the error handler `strict`. -/
def dumpEscaped (s : Bytes) : Except Fault Bytes := dumpEscapedLoop s utf8Accept 0 []

/-! ### Integers -/

/-- An entry of `digits_to_99`. -/
def digitsTo99 (index : Nat) : Bytes := [UInt8.ofNat (48 + index / 10), UInt8.ofNat (48 + index % 10)]

/-- The loop of `dump_integer`, which writes two digits in a round, from the back. -/
def dumpDigits : Nat → Nat → Bytes → Bytes
  | 0, _, buffer => buffer
  | rounds + 1, absValue, buffer =>
    if absValue ≥ 100 then
      dumpDigits rounds (absValue / 100) (digitsTo99 (absValue % 100) ++ buffer)
    else if absValue ≥ 10 then digitsTo99 absValue ++ buffer
    else UInt8.ofNat (48 + absValue) :: buffer

/-- `dump_integer` -/
def dumpInteger (x : Int) : Bytes :=
  if x = 0 then ascii "0"
  else if x < 0 then ascii "-" ++ dumpDigits (x.natAbs + 1) x.natAbs []
  else dumpDigits (x.natAbs + 1) x.natAbs []

/-! ### Values -/

/-- `'"'` -/
def quote : UInt8 := 34

/-- `','` -/
def comma : UInt8 := 44

mutual

/-- `dump` without pretty printing. -/
def dump : Json → Except Fault Bytes
  | .null => .ok (ascii "null")
  | .string text => do
    let escaped ← dumpEscaped text
    return quote :: escaped ++ [quote]
  | .number value => .ok (dumpInteger value)
  | .array elements => do
    let written ← dumpElements elements
    return 91 :: written ++ [93]
  | .object members => do
    let written ← dumpMembers members
    return 123 :: written ++ [125]

/-- The elements of an array, each but the last with a comma behind it. -/
def dumpElements : List Json → Except Fault Bytes
  | [] => .ok []
  | element :: elements => do
    let first ← dump element
    let rest ← dumpElements elements
    return first ++ (if elements = [] then [] else [comma]) ++ rest

/-- The members of an object, each but the last with a comma behind it. -/
def dumpMembers : List (Bytes × Json) → Except Fault Bytes
  | [] => .ok []
  | (name, member) :: members => do
    let key ← dumpEscaped name
    let first ← dump member
    let rest ← dumpMembers members
    return quote :: key ++ [quote, 58] ++ first ++ (if members = [] then [] else [comma]) ++ rest

end

/-! ### What the automaton accepts -/

/-- The ranges of the bytes that a state waits for; nothing where it has rejected. -/
def awaited : Nat → Option (List (Nat × Nat))
  | 0 => some []
  | 2 => some [(0x80, 0xbf)]
  | 3 => some [(0x80, 0xbf), (0x80, 0xbf)]
  | 4 => some [(0xa0, 0xbf), (0x80, 0xbf)]
  | 5 => some [(0x80, 0x9f), (0x80, 0xbf)]
  | 6 => some [(0x90, 0xbf), (0x80, 0xbf), (0x80, 0xbf)]
  | 7 => some [(0x80, 0xbf), (0x80, 0xbf), (0x80, 0xbf)]
  | 8 => some [(0x80, 0x8f), (0x80, 0xbf), (0x80, 0xbf)]
  | _ => none

/-- What is waited for behind a byte. -/
def awaitedBehind (byte : Nat) : Option (List (Nat × Nat)) → Option (List (Nat × Nat))
  | none => none
  | some [] => trailRanges byte
  | some ((low, high) :: ranges) => if low ≤ byte ∧ byte ≤ high then some ranges else none

/-- The table is the automaton of the ranges. -/
theorem awaited_nextState : ∀ state < 9, ∀ byte < 256,
    awaited (nextState state byte) = awaitedBehind byte (awaited state) ∧
      nextState state byte < 9 := by decide +kernel

theorem lt_of_awaited {state : Nat} {ranges : List (Nat × Nat)}
    (waits : awaited state = some ranges) : state < 9 := by
  unfold awaited at waits
  split at waits <;> first | omega | cases waits

theorem awaited_eq_nil {state : Nat} : awaited state = some [] ↔ state = utf8Accept := by
  unfold awaited utf8Accept
  split <;> simp
  assumption

theorem eq_reject_of_awaited : ∀ state < 9, awaited state = none → state = utf8Reject := by decide

/-- The automaton goes on with what is waited for behind the byte, and the loop with it. -/
theorem dumpEscapedLoop_cons {state : Nat} {ranges : List (Nat × Nat)}
    (waits : awaited state = some ranges) (byte : UInt8) (s : Bytes) (codepoint : Nat)
    (written : Bytes) :
    (∃ next, awaited (nextState state byte.toNat) = some next ∧
      awaitedBehind byte.toNat (some ranges) = some next ∧
      dumpEscapedLoop (byte :: s) state codepoint written =
        dumpEscapedLoop s (nextState state byte.toNat) (decode state codepoint byte).2
          (written ++ if next = [] then (escaped (decode state codepoint byte).2).getD [byte]
            else [byte])) ∨
      awaitedBehind byte.toNat (some ranges) = none ∧
        dumpEscapedLoop (byte :: s) state codepoint written = .error .jsonError := by
  have small := lt_of_awaited waits
  obtain ⟨goes, inside⟩ := awaited_nextState state small byte.toNat byte.toNat_lt
  rw [waits] at goes
  rw [dumpEscapedLoop]
  dsimp only [decode]
  cases behind : awaitedBehind byte.toNat (some ranges) with
  | none =>
    rw [behind] at goes
    have rejects := eq_reject_of_awaited _ inside goes
    rw [rejects]
    exact .inr ⟨rfl, rfl⟩
  | some next =>
    rw [behind] at goes
    refine .inl ⟨next, goes, rfl, ?_⟩
    have live : nextState state byte.toNat ≠ utf8Reject := by
      intro rejects
      rw [rejects] at goes
      cases goes
    by_cases ended : next = []
    · rw [ended, awaited_eq_nil] at goes
      rw [if_pos goes, if_pos ended]
    · have going : nextState state byte.toNat ≠ utf8Accept := by
        intro accepts
        rw [awaited_eq_nil.mpr accepts] at goes
        exact ended (Option.some.inj goes).symm
      rw [if_neg going, if_neg live, if_neg ended]

/-- A string that is written is valid behind what the state waits for. -/
theorem valid_of_dumpEscapedLoop {s : Bytes} {state : Nat} {ranges : List (Nat × Nat)}
    (waits : awaited state = some ranges) {codepoint : Nat} {written result : Bytes}
    (dumps : dumpEscapedLoop s state codepoint written = .ok result) :
    ∃ trail rest, s = trail ++ rest ∧ InRanges trail ranges ∧ Valid rest := by
  induction s generalizing state ranges codepoint written with
  | nil =>
    rw [dumpEscapedLoop] at dumps
    split_ifs at dumps with accepts
    obtain rfl := Option.some.inj (waits.symm.trans (awaited_eq_nil.mpr accepts))
    exact ⟨[], [], rfl, .nil, [], rfl⟩
  | cons byte s inductionHypothesis =>
    rcases dumpEscapedLoop_cons waits byte s codepoint written with
      ⟨next, goes, behind, loops⟩ | ⟨-, fails⟩
    · rw [loops] at dumps
      obtain ⟨trail, rest, rfl, inside, valid⟩ := inductionHypothesis goes dumps
      cases ranges with
      | nil =>
        obtain ⟨letter, same⟩ := exists_letter_of_inRanges behind inside
        refine ⟨[], byte :: (trail ++ rest), rfl, .nil, ?_⟩
        rw [← List.cons_append, ← same]
        exact valid_utf8EncodeChar_append.mpr valid
      | cons range ranges =>
        rw [awaitedBehind] at behind
        split_ifs at behind with within
        obtain rfl := Option.some.inj behind
        exact ⟨byte :: trail, rest, rfl, .cons within inside, valid⟩
    · rw [fails] at dumps
      cases dumps

/-- The bits of a first byte that belong to the code point. -/
theorem masked_lead : ∀ byte < 256, (byte < 0x80 → byte % 2 ^ (8 - utf8d.getD byte 0) = byte) ∧
    (0xc2 ≤ byte → byte < 0xe0 → byte % 2 ^ (8 - utf8d.getD byte 0) = byte - 0xc0) ∧
    (0xe0 ≤ byte → byte < 0xf0 → byte % 2 ^ (8 - utf8d.getD byte 0) = byte - 0xe0) ∧
    (0xf0 ≤ byte → byte < 0xf5 → byte % 2 ^ (8 - utf8d.getD byte 0) = byte - 0xf0) := by
  decide +kernel

/-- The code point behind further bytes. -/
def codepBehind (codep : Nat) (trail : Bytes) : Nat :=
  trail.foldl (fun codep byte => byte.toNat % 64 + codep * 64) codep

/-- The loop copies the bytes that are waited for. -/
theorem dumpEscapedLoop_trail {trail : Bytes} {state : Nat} {ranges : List (Nat × Nat)}
    (waits : awaited state = some ranges) (inside : InRanges trail ranges) (nonempty : trail ≠ [])
    {codepoint : Nat} (plain : escaped (codepBehind codepoint trail) = none) (rest written : Bytes) :
    dumpEscapedLoop (trail ++ rest) state codepoint written =
      dumpEscapedLoop rest utf8Accept (codepBehind codepoint trail) (written ++ trail) := by
  induction trail generalizing state ranges codepoint written with
  | nil => exact absurd rfl nonempty
  | cons byte trail inductionHypothesis =>
    cases inside with
    | @cons _ range _ ranges within inside =>
      have going : state ≠ utf8Accept := by
        intro accepts
        rw [awaited_eq_nil.mpr accepts] at waits
        cases waits
      have number : (decode state codepoint byte).2 = byte.toNat % 64 + codepoint * 64 := by
        rw [decode, if_pos going]
      have behind : awaitedBehind byte.toNat (some (range :: ranges)) = some ranges := by
        rw [awaitedBehind, if_pos within]
      rcases dumpEscapedLoop_cons waits byte (trail ++ rest) codepoint written with
        ⟨next, goes, same, loops⟩ | ⟨nothing, -⟩
      · obtain rfl := Option.some.inj (behind.symm.trans same)
        rw [List.cons_append, loops, number]
        cases trail with
        | nil =>
          cases inside
          rw [codepBehind, List.foldl_cons, List.foldl_nil] at plain ⊢
          rw [if_pos rfl, plain, awaited_eq_nil.mp goes]
          rfl
        | cons other trail =>
          have more : ranges ≠ [] := by
            rintro rfl
            cases inside
          rw [if_neg more, inductionHypothesis goes inside (List.cons_ne_nil _ _) plain,
            List.append_assoc, List.singleton_append]
          rfl
      · cases behind.symm.trans nothing

theorem escaped_of_large {codepoint : Nat} (large : 0x80 ≤ codepoint) : escaped codepoint = none := by
  rw [escaped, if_neg (by omega), if_neg (by omega), if_neg (by omega), if_neg (by omega),
    if_neg (by omega), if_neg (by omega), if_neg (by omega), if_neg (by omega)]

/-- The code point behind the bytes of a character is the character. -/
theorem codepBehind_letter {letter : Char} {lead : UInt8} {trail : Bytes}
    (same : String.utf8EncodeChar letter = lead :: trail) :
    codepBehind (lead.toNat % 2 ^ (8 - utf8d.getD lead.toNat 0)) trail = letter.toNat ∧
      (trail ≠ [] → 0x80 ≤ letter.toNat) := by
  have valid : letter.toNat < 0xd800 ∨ 0xdfff < letter.toNat ∧ letter.toNat < 0x110000 :=
    letter.valid
  have value {number : Nat} (small : number < 256) : (UInt8.ofNat number).toNat = number :=
    UInt8.toNat_ofNat_of_lt' small
  obtain ⟨one, two, three, four⟩ := masked_lead lead.toNat lead.toNat_lt
  rw [utf8EncodeChar_eq] at same
  split_ifs at same with first second third
  all_goals
    obtain ⟨rfl, rfl⟩ := List.cons.inj same
    rw [value (by omega)] at one two three four ⊢
  · rw [one (by omega)]
    exact ⟨rfl, fun more => absurd rfl more⟩
  · rw [two (by omega) (by omega)]
    refine ⟨?_, fun _ => by omega⟩
    simp only [codepBehind, List.foldl_cons, List.foldl_nil, toNat_trail]
    omega
  · rw [three (by omega) (by omega)]
    refine ⟨?_, fun _ => by omega⟩
    simp only [codepBehind, List.foldl_cons, List.foldl_nil, toNat_trail]
    omega
  · rw [four (by omega) (by omega)]
    refine ⟨?_, fun _ => by omega⟩
    simp only [codepBehind, List.foldl_cons, List.foldl_nil, toNat_trail]
    omega

/-- What is written for a character. -/
def escapedLetter (letter : Char) : Bytes :=
  (escaped letter.toNat).getD (String.utf8EncodeChar letter)

/-- The loop escapes the character that is in front of it. -/
theorem dumpEscapedLoop_letter (letter : Char) (rest : Bytes) (codepoint : Nat) (written : Bytes) :
    dumpEscapedLoop (String.utf8EncodeChar letter ++ rest) utf8Accept codepoint written =
      dumpEscapedLoop rest utf8Accept letter.toNat (written ++ escapedLetter letter) := by
  obtain ⟨lead, trail, ranges, same, led, inside⟩ := utf8EncodeChar_inRanges letter
  obtain ⟨value, large⟩ := codepBehind_letter same
  have number : (decode utf8Accept codepoint lead).2 =
      lead.toNat % 2 ^ (8 - utf8d.getD lead.toNat 0) := rfl
  rw [same, List.cons_append]
  rcases dumpEscapedLoop_cons (awaited_eq_nil.mpr rfl) lead (trail ++ rest) codepoint written with
    ⟨next, goes, behind, loops⟩ | ⟨nothing, -⟩
  · obtain rfl := Option.some.inj (led.symm.trans behind)
    rw [loops, number]
    cases trail with
    | nil =>
      cases inside
      rw [if_pos rfl, awaited_eq_nil.mp goes, show lead.toNat % _ = letter.toNat from value,
        escapedLetter, same]
      rfl
    | cons byte trail =>
      have more : ranges ≠ [] := by
        rintro rfl
        cases inside
      have plain := escaped_of_large (large (List.cons_ne_nil _ _))
      rw [if_neg more, dumpEscapedLoop_trail goes inside (List.cons_ne_nil _ _)
        (by rw [value]; exact plain), value, escapedLetter, plain, same, List.append_assoc]
      rfl
  · cases led.symm.trans nothing

theorem dumpEscapedLoop_encode (letters : List Char) (codepoint : Nat) (written : Bytes) :
    dumpEscapedLoop (encode letters) utf8Accept codepoint written =
      .ok (written ++ letters.flatMap escapedLetter) := by
  induction letters generalizing codepoint written with
  | nil => rw [List.flatMap_nil, List.append_nil]; rfl
  | cons letter letters inductionHypothesis =>
    rw [encode_cons, dumpEscapedLoop_letter, inductionHypothesis, List.flatMap_cons,
      List.append_assoc]

/-- A valid string is escaped character by character. -/
theorem dumpEscaped_encode (letters : List Char) :
    dumpEscaped (encode letters) = .ok (letters.flatMap escapedLetter) :=
  dumpEscapedLoop_encode letters 0 []

/-- The only exception of the loop is that of the writer. -/
theorem dumpEscapedLoop_error {s : Bytes} {state codepoint : Nat} {written : Bytes} {fault : Fault}
    (fails : dumpEscapedLoop s state codepoint written = .error fault) : fault = .jsonError := by
  induction s generalizing state codepoint written with
  | nil =>
    rw [dumpEscapedLoop] at fails
    split_ifs at fails
    cases fails
    rfl
  | cons byte s inductionHypothesis =>
    rw [dumpEscapedLoop] at fails
    dsimp only at fails
    split_ifs at fails
    · exact inductionHypothesis fails
    · cases fails
      rfl
    · exact inductionHypothesis fails

/-- The writer throws on every string that is not valid. -/
theorem dumpEscaped_of_not_valid {s : Bytes} (invalid : ¬ Valid s) :
    dumpEscaped s = .error .jsonError := by
  cases dumps : dumpEscaped s with
  | error fault => rw [dumpEscapedLoop_error dumps]
  | ok result =>
    obtain ⟨trail, rest, rfl, inside, valid⟩ := valid_of_dumpEscapedLoop rfl dumps
    cases inside
    exact absurd valid invalid

/-! ### Which values are written -/

/-- The writer throws exactly when one of the texts is not valid. -/
def Writes (result : Except Fault Bytes) (texts : List Bytes) : Prop :=
  (∀ text ∈ texts, Valid text) ∧ (∃ written, result = .ok written) ∨
    (¬ ∀ text ∈ texts, Valid text) ∧ result = .error .jsonError

theorem Writes.ok (written : Bytes) : Writes (.ok written) [] :=
  .inl ⟨fun _ inside => absurd inside List.not_mem_nil, _, rfl⟩

theorem Writes.bind {first : Except Fault Bytes} {texts texts' : List Bytes}
    (writes : Writes first texts) {rest : Bytes → Except Fault Bytes}
    (writes' : ∀ written, Writes (rest written) texts') :
    Writes (first >>= rest) (texts ++ texts') := by
  rcases writes with ⟨valid, written, rfl⟩ | ⟨invalid, rfl⟩
  · rcases writes' written with ⟨valid', ends⟩ | ⟨invalid', fails⟩
    · exact .inl ⟨List.forall_mem_append.mpr ⟨valid, valid'⟩, ends⟩
    · exact .inr ⟨fun both => invalid' (List.forall_mem_append.mp both).2, fails⟩
  · exact .inr ⟨fun both => invalid (List.forall_mem_append.mp both).1, rfl⟩

theorem Writes.map {first : Except Fault Bytes} {texts : List Bytes} (writes : Writes first texts)
    (finish : Bytes → Bytes) : Writes (do let written ← first; return finish written) texts := by
  rw [← List.append_nil texts]
  exact writes.bind fun written => Writes.ok (finish written)

theorem writes_dumpEscaped (s : Bytes) : Writes (dumpEscaped s) [s] := by
  by_cases valid : Valid s
  · obtain ⟨letters, rfl⟩ := valid
    exact .inl ⟨List.forall_mem_singleton.mpr ⟨letters, rfl⟩, _, dumpEscaped_encode letters⟩
  · exact .inr ⟨fun all => valid (all s (List.mem_singleton_self s)), dumpEscaped_of_not_valid valid⟩

mutual

/-- A value is written unless one of its strings or names is not valid. -/
theorem writes_dump : ∀ json, Writes (dump json) json.texts
  | .null => Writes.ok _
  | .string text => (writes_dumpEscaped text).map _
  | .number _ => Writes.ok _
  | .array elements => (writes_dumpElements elements).map _
  | .object members => (writes_dumpMembers members).map _

theorem writes_dumpElements : ∀ elements, Writes (dumpElements elements) (Json.arrayTexts elements)
  | [] => Writes.ok _
  | element :: elements =>
    (writes_dump element).bind fun _ => (writes_dumpElements elements).map _

theorem writes_dumpMembers : ∀ members, Writes (dumpMembers members) (Json.objectTexts members)
  | [] => Writes.ok _
  | (name, member) :: members =>
    (writes_dumpEscaped name).bind fun _ => (writes_dump member).bind fun _ =>
      (writes_dumpMembers members).map _

end

theorem dump_isOk_iff (json : Json) :
    (∃ written, dump json = .ok written) ↔ ∀ text ∈ json.texts, Valid text := by
  rcases writes_dump json with ⟨valid, writes⟩ | ⟨invalid, fails⟩
  · exact iff_of_true writes valid
  · refine iff_of_false ?_ invalid
    rintro ⟨written, writes⟩
    cases fails.symm.trans writes

theorem isOk_dumpEscaped_iff (s : Bytes) : (dumpEscaped s).isOk = true ↔ Valid s := by
  rcases writes_dumpEscaped s with ⟨valid, written, writes⟩ | ⟨invalid, fails⟩
  · rw [writes]
    exact iff_of_true rfl (List.forall_mem_singleton.mp valid)
  · rw [fails]
    exact iff_of_false nofun fun valid => invalid (List.forall_mem_singleton.mpr valid)

end Serializer

/-- The automaton of the writer decides whether a string is UTF-8. -/
instance decidableValid (text : Bytes) : Decidable (Valid text) :=
  decidable_of_iff _ (Serializer.isOk_dumpEscaped_iff text)

end SearchEngine
