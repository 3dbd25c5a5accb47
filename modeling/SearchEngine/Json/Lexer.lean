/-
This file models the lexer of the JSON library, `lexer::scan`.

The input that is left over is a list of bytes, and `unget` is a byte that is not
taken off it. Wherever a token cannot be scanned the parser throws, so the token
`parse_error` is the exception `jsonError` here. Numbers that fit into 64 bits
are read, and of the others only the text is kept.
-/

import SearchEngine.Json.Sequences
import SearchEngine.Library.Text

namespace SearchEngine

open Utf8

namespace Lexer

/-- `token_type`. The tokens with a value have it. -/
inductive Token where
  | literalTrue
  | literalFalse
  | literalNull
  | valueString (text : Bytes)
  | valueUnsigned (number : Nat)
  | valueInteger (number : Int)
  | valueFloat (text : Bytes)
  | beginArray
  | beginObject
  | endArray
  | endObject
  | nameSeparator
  | valueSeparator
  | endOfInput
  deriving DecidableEq, Repr

/-! ### Strings -/

/-- The value of a digit of `get_codepoint`. -/
def hexValue (current : UInt8) : Option Nat :=
  if 48 ≤ current.toNat ∧ current.toNat ≤ 57 then some (current.toNat - 0x30)
  else if 65 ≤ current.toNat ∧ current.toNat ≤ 70 then some (current.toNat - 0x37)
  else if 97 ≤ current.toNat ∧ current.toNat ≤ 102 then some (current.toNat - 0x57)
  else none

/-- `get_codepoint`: the code point, and what is behind its four digits; nothing for `-1`. -/
def getCodepoint : Bytes → Option (Nat × Bytes)
  | first :: second :: third :: fourth :: rest => do
    let first ← hexValue first
    let second ← hexValue second
    let third ← hexValue third
    let fourth ← hexValue fourth
    return (first * 4096 + second * 256 + third * 16 + fourth, rest)
  | _ => none

/-- The bytes of a code point. What is put together with `|` has no bits in common. -/
def codepointBytes (codepoint : Nat) : Bytes :=
  if codepoint < 0x80 then [UInt8.ofNat codepoint]
  else if codepoint ≤ 0x7ff then
    [UInt8.ofNat (0xc0 + codepoint / 64), UInt8.ofNat (0x80 + codepoint % 64)]
  else if codepoint ≤ 0xffff then
    [UInt8.ofNat (0xe0 + codepoint / 4096), UInt8.ofNat (0x80 + codepoint / 64 % 64),
      UInt8.ofNat (0x80 + codepoint % 64)]
  else
    [UInt8.ofNat (0xf0 + codepoint / 262144), UInt8.ofNat (0x80 + codepoint / 4096 % 64),
      UInt8.ofNat (0x80 + codepoint / 64 % 64), UInt8.ofNat (0x80 + codepoint % 64)]

/-- What `\u` and the digits behind it are read as. -/
def scanUnicode (input : Bytes) : Option (Bytes × Bytes) := do
  let (codepoint1, rest) ← getCodepoint input
  if 0xd800 ≤ codepoint1 ∧ codepoint1 ≤ 0xdbff then
    match rest with
    | backslash :: letter :: rest =>
      if backslash = 92 ∧ letter = 117 then do
        let (codepoint2, rest) ← getCodepoint rest
        if 0xdc00 ≤ codepoint2 ∧ codepoint2 ≤ 0xdfff then
          return (codepointBytes (codepoint1 * 1024 + codepoint2 - 0x35fdc00), rest)
        else none
      else none
    | _ => none
  else if 0xdc00 ≤ codepoint1 ∧ codepoint1 ≤ 0xdfff then none
  else return (codepointBytes codepoint1, rest)

/-- What a character behind a backslash stands for, where this is one character. -/
def unescaped (current : UInt8) : Option UInt8 :=
  if current = 34 then some 34
  else if current = 92 then some 92
  else if current = 47 then some 47
  else if current = 98 then some 8
  else if current = 102 then some 12
  else if current = 110 then some 10
  else if current = 114 then some 13
  else if current = 116 then some 9
  else none

/-- What is behind a backslash: the bytes it stands for, and what follows. -/
def scanEscape : Bytes → Option (Bytes × Bytes)
  | [] => none
  | current :: rest =>
    match unescaped current with
    | some byte => some ([byte], rest)
    | none => if current = 117 then scanUnicode rest else none

/-- `next_byte_in_range`: the bytes that are in the ranges, and what follows. -/
def nextByteInRange : List (Nat × Nat) → Bytes → Option (Bytes × Bytes)
  | [], rest => some ([], rest)
  | (low, high) :: ranges, current :: rest =>
    if low ≤ current.toNat ∧ current.toNat ≤ high then do
      let (trail, rest) ← nextByteInRange ranges rest
      return (current :: trail, rest)
    else none
  | _ :: _, [] => none

/-- What a round of `scan_string` adds for a byte that does not end the string. -/
def scanLetter (current : UInt8) (rest : Bytes) : Option (Bytes × Bytes) :=
  if current = 92 then scanEscape rest
  else if current.toNat ≤ 0x1f then none
  else do
    let ranges ← trailRanges current.toNat
    let (trail, rest) ← nextByteInRange ranges rest
    return (current :: trail, rest)

/-- The loop of `scan_string`, with `token_buffer`. -/
def scanStringLoop : Nat → Bytes → Bytes → Except Fault (Bytes × Bytes)
  | 0, _, _ => .error .noReturn
  | _ + 1, _, [] => .error .jsonError
  | rounds + 1, tokenBuffer, current :: rest =>
    if current = 34 then .ok (tokenBuffer, rest)
    else
      match scanLetter current rest with
      | some (bytes, rest) => scanStringLoop rounds (tokenBuffer ++ bytes) rest
      | none => .error .jsonError

/-- `scan_string`, behind the opening quote. -/
def scanString (input : Bytes) : Except Fault (Token × Bytes) := do
  let (text, rest) ← scanStringLoop (input.length + 1) [] input
  return (.valueString text, rest)

/-! ### Numbers -/

/-- `number_type` -/
inductive NumberType where
  | unsigned
  | integer
  | float
  deriving DecidableEq

/-- `scan_number_done`: the conversion, where `errno` is set for what 64 bits do not hold. -/
def scanNumberDone (numberType : NumberType) (tokenBuffer : Bytes) : Token :=
  match numberType with
  | .unsigned =>
    if Text.digitsValue tokenBuffer < 2 ^ 64 then .valueUnsigned (Text.digitsValue tokenBuffer)
    else .valueFloat tokenBuffer
  | .integer =>
    if Text.digitsValue tokenBuffer.tail ≤ 2 ^ 63 then
      .valueInteger (-(Text.digitsValue tokenBuffer.tail : Int))
    else .valueFloat tokenBuffer
  | .float => .valueFloat tokenBuffer

/-- `scan_number_any2` -/
def scanNumberAny2 (tokenBuffer input : Bytes) : Token × Bytes :=
  (scanNumberDone .float (tokenBuffer ++ input.takeWhile Text.isDigit),
    input.dropWhile Text.isDigit)

/-- `scan_number_sign` -/
def scanNumberSign (tokenBuffer : Bytes) : Bytes → Except Fault (Token × Bytes)
  | [] => .error .jsonError
  | current :: rest =>
    if Text.isDigit current then .ok (scanNumberAny2 (tokenBuffer ++ [current]) rest)
    else .error .jsonError

/-- `scan_number_exponent` -/
def scanNumberExponent (tokenBuffer : Bytes) : Bytes → Except Fault (Token × Bytes)
  | [] => .error .jsonError
  | current :: rest =>
    if current = 43 ∨ current = 45 then scanNumberSign (tokenBuffer ++ [current]) rest
    else if Text.isDigit current then .ok (scanNumberAny2 (tokenBuffer ++ [current]) rest)
    else .error .jsonError

/-- `'e'` or `'E'` -/
def isExponent (current : UInt8) : Bool := current == 101 || current == 69

/-- `scan_number_decimal2` -/
def scanNumberDecimal2 (tokenBuffer input : Bytes) : Except Fault (Token × Bytes) :=
  let tokenBuffer := tokenBuffer ++ input.takeWhile Text.isDigit
  match input.dropWhile Text.isDigit with
  | [] => .ok (scanNumberDone .float tokenBuffer, [])
  | current :: rest =>
    if isExponent current then scanNumberExponent (tokenBuffer ++ [current]) rest
    else .ok (scanNumberDone .float tokenBuffer, current :: rest)

/-- `scan_number_decimal1` -/
def scanNumberDecimal1 (tokenBuffer : Bytes) : Bytes → Except Fault (Token × Bytes)
  | [] => .error .jsonError
  | current :: rest =>
    if Text.isDigit current then scanNumberDecimal2 (tokenBuffer ++ [current]) rest
    else .error .jsonError

/-- `scan_number_zero` -/
def scanNumberZero (numberType : NumberType) (tokenBuffer : Bytes) :
    Bytes → Except Fault (Token × Bytes)
  | [] => .ok (scanNumberDone numberType tokenBuffer, [])
  | current :: rest =>
    if current = 46 then scanNumberDecimal1 (tokenBuffer ++ [current]) rest
    else if isExponent current then scanNumberExponent (tokenBuffer ++ [current]) rest
    else .ok (scanNumberDone numberType tokenBuffer, current :: rest)

/-- `scan_number_any1`: behind the digits the cases are those behind a zero. -/
def scanNumberAny1 (numberType : NumberType) (tokenBuffer input : Bytes) :
    Except Fault (Token × Bytes) :=
  scanNumberZero numberType (tokenBuffer ++ input.takeWhile Text.isDigit)
    (input.dropWhile Text.isDigit)

/-- The digits `scan_number` and `scan_number_minus` go on with. -/
def scanNumberDigit (numberType : NumberType) (tokenBuffer : Bytes) (current : UInt8)
    (rest : Bytes) : Except Fault (Token × Bytes) :=
  if current = 48 then scanNumberZero numberType (tokenBuffer ++ [current]) rest
  else if Text.isDigit current then scanNumberAny1 numberType (tokenBuffer ++ [current]) rest
  else .error .jsonError

/-- `scan_number_minus` -/
def scanNumberMinus (tokenBuffer : Bytes) : Bytes → Except Fault (Token × Bytes)
  | [] => .error .jsonError
  | current :: rest => scanNumberDigit .integer tokenBuffer current rest

/-- `scan_number` -/
def scanNumber (current : UInt8) (rest : Bytes) : Except Fault (Token × Bytes) :=
  if current = 45 then scanNumberMinus [current] rest
  else scanNumberDigit .unsigned [] current rest

/-! ### Tokens -/

/-- `scan_literal`, behind the first letter. -/
def scanLiteral (literalText : Bytes) (returnType : Token) (input : Bytes) :
    Except Fault (Token × Bytes) :=
  if literalText <+: input then .ok (returnType, input.drop literalText.length)
  else .error .jsonError

/-- What `skip_whitespace` skips. -/
def isWhitespace (current : UInt8) : Bool :=
  current == 32 || current == 9 || current == 10 || current == 13

/-- The token that begins with a byte. -/
def scanToken (current : UInt8) (rest : Bytes) : Except Fault (Token × Bytes) :=
  if current = 91 then .ok (.beginArray, rest)
  else if current = 93 then .ok (.endArray, rest)
  else if current = 123 then .ok (.beginObject, rest)
  else if current = 125 then .ok (.endObject, rest)
  else if current = 58 then .ok (.nameSeparator, rest)
  else if current = 44 then .ok (.valueSeparator, rest)
  else if current = 116 then scanLiteral (ascii "rue") .literalTrue rest
  else if current = 102 then scanLiteral (ascii "alse") .literalFalse rest
  else if current = 110 then scanLiteral (ascii "ull") .literalNull rest
  else if current = 34 then scanString rest
  else if current = 45 ∨ Text.isDigit current then scanNumber current rest
  else if current = 0 then .ok (.endOfInput, rest)
  else .error .jsonError

/-- `scan` behind the first token; comments are not ignored. -/
def scan (input : Bytes) : Except Fault (Token × Bytes) :=
  match input.dropWhile isWhitespace with
  | [] => .ok (.endOfInput, [])
  | current :: rest => scanToken current rest

/-- `skip_bom` -/
def skipBom (input : Bytes) : Except Fault Bytes :=
  if input.head? = some 0xef then
    if [0xef, 0xbb, 0xbf] <+: input then .ok (input.drop 3) else .error .jsonError
  else .ok input

/-- `scan` of the first token. -/
def scanFirst (input : Bytes) : Except Fault (Token × Bytes) := do
  let input ← skipBom input
  scan input

/-! ### What strings are read as -/

theorem hexValue_lt {current : UInt8} {value : Nat} (found : hexValue current = some value) :
    value < 16 := by
  rw [hexValue] at found
  split_ifs at found
  all_goals
    obtain rfl := Option.some.inj found
    omega

theorem getCodepoint_eq_some {input rest : Bytes} {codepoint : Nat}
    (found : getCodepoint input = some (codepoint, rest)) :
    codepoint < 0x10000 ∧ rest.length < input.length := by
  unfold getCodepoint at found
  split at found
  · simp only [Option.bind_eq_bind, Option.bind_eq_some_iff, pure, Option.some.injEq,
      Prod.mk.injEq] at found
    obtain ⟨first, hex1, second, hex2, third, hex3, fourth, hex4, rfl, rfl⟩ := found
    have small1 := hexValue_lt hex1
    have small2 := hexValue_lt hex2
    have small3 := hexValue_lt hex3
    have small4 := hexValue_lt hex4
    simp only [List.length_cons]
    omega
  · cases found

/-- The bytes of a character are what UTF-8 has for it. -/
theorem codepointBytes_toNat (letter : Char) :
    codepointBytes letter.toNat = String.utf8EncodeChar letter := by
  have valid : letter.toNat < 0xd800 ∨ 0xdfff < letter.toNat ∧ letter.toNat < 0x110000 :=
    letter.valid
  have one {number : Nat} : UInt8.ofNat (0x80 + number % 64) =
      UInt8.ofNat (number % 0x40 + 0x80) := by rw [Nat.add_comm]
  rw [utf8EncodeChar_eq, codepointBytes]
  by_cases first : letter.toNat < 0x80
  · rw [if_pos first, if_pos (by omega)]
  by_cases second : letter.toNat ≤ 0x7ff
  · rw [if_neg first, if_pos second, if_neg (by omega), if_pos second, one,
      show 0xc0 + letter.toNat / 64 = letter.toNat / 64 % 0x20 + 0xc0 by omega]
  by_cases third : letter.toNat ≤ 0xffff
  · rw [if_neg first, if_neg second, if_pos third, if_neg (by omega), if_neg second, if_pos third,
      one, one, show 0xe0 + letter.toNat / 4096 = letter.toNat / 4096 % 0x10 + 0xe0 by omega]
  · rw [if_neg first, if_neg second, if_neg third, if_neg (by omega), if_neg second, if_neg third,
      one, one, one,
      show 0xf0 + letter.toNat / 262144 = letter.toNat / 262144 % 0x08 + 0xf0 by omega]

theorem exists_letter_codepointBytes {codepoint : Nat}
    (scalar : codepoint < 0xd800 ∨ 0xdfff < codepoint ∧ codepoint < 0x110000) :
    ∃ letter, codepointBytes codepoint = String.utf8EncodeChar letter := by
  obtain ⟨letter, rfl⟩ := exists_letter scalar
  exact ⟨letter, codepointBytes_toNat letter⟩

/-- Digits behind `\\u` are read as a character. -/
theorem scanUnicode_eq_some {input rest bytes : Bytes}
    (found : scanUnicode input = some (bytes, rest)) :
    (∃ letter, bytes = String.utf8EncodeChar letter) ∧ rest.length < input.length := by
  rw [scanUnicode] at found
  obtain ⟨⟨codepoint1, behind⟩, digits, found⟩ := Option.bind_eq_some_iff.mp found
  obtain ⟨small, shorter⟩ := getCodepoint_eq_some digits
  dsimp only at found
  split_ifs at found with high low
  · split at found
    · split_ifs at found
      obtain ⟨⟨codepoint2, last⟩, digits2, found⟩ := Option.bind_eq_some_iff.mp found
      obtain ⟨small2, shorter2⟩ := getCodepoint_eq_some digits2
      dsimp only at found
      split_ifs at found
      obtain ⟨rfl, rfl⟩ := Prod.mk.inj (Option.some.inj found)
      simp only [List.length_cons] at shorter
      exact ⟨exists_letter_codepointBytes (by omega), by omega⟩
    · cases found
  · obtain ⟨rfl, rfl⟩ := Prod.mk.inj (Option.some.inj found)
    exact ⟨exists_letter_codepointBytes (by omega), shorter⟩

theorem exists_letter_of_unescaped {current byte : UInt8} (found : unescaped current = some byte) :
    ∃ letter, [byte] = String.utf8EncodeChar letter := by
  have small : byte.toNat < 0x80 := by
    rw [unescaped] at found
    split_ifs at found
    all_goals
      obtain rfl := Option.some.inj found
      decide
  obtain ⟨letter, same⟩ := @exists_letter_of_inRanges _ [] _
    (show trailRanges byte.toNat = some [] by rw [trailRanges, if_pos small]) .nil
  exact ⟨letter, same.symm⟩

theorem scanEscape_eq_some {input rest bytes : Bytes}
    (found : scanEscape input = some (bytes, rest)) :
    (∃ letter, bytes = String.utf8EncodeChar letter) ∧ rest.length < input.length := by
  cases input with
  | nil => cases found
  | cons current input =>
    rw [scanEscape] at found
    split at found
    case h_1 byte single =>
      obtain ⟨rfl, rfl⟩ := Prod.mk.inj (Option.some.inj found)
      exact ⟨exists_letter_of_unescaped single, Nat.lt_succ_self _⟩
    · split_ifs at found
      obtain ⟨letter, shorter⟩ := scanUnicode_eq_some found
      exact ⟨letter, Nat.lt_succ_of_lt shorter⟩

/-- The bytes that are taken are in the ranges. -/
theorem nextByteInRange_eq_some {ranges : List (Nat × Nat)} {input trail rest : Bytes} :
    nextByteInRange ranges input = some (trail, rest) ↔
      input = trail ++ rest ∧ InRanges trail ranges := by
  induction ranges generalizing input trail with
  | nil =>
    rw [nextByteInRange, Option.some.injEq, Prod.mk.injEq]
    constructor
    · rintro ⟨rfl, rfl⟩
      exact ⟨rfl, .nil⟩
    · rintro ⟨rfl, inside⟩
      cases inside
      exact ⟨rfl, rfl⟩
  | cons range ranges inductionHypothesis =>
    cases input with
    | nil =>
      refine iff_of_false (fun found => by cases found) ?_
      rintro ⟨empty, inside⟩
      cases inside
      cases empty
    | cons current input =>
      rw [nextByteInRange]
      split_ifs with within
      · rw [Option.bind_eq_bind, Option.bind_eq_some_iff]
        constructor
        · rintro ⟨⟨others, behind⟩, found, same⟩
          obtain ⟨rfl, rfl⟩ := Prod.mk.inj (Option.some.inj same)
          obtain ⟨rfl, inside⟩ := inductionHypothesis.mp found
          exact ⟨rfl, .cons within inside⟩
        · rintro ⟨split, inside⟩
          cases inside with
          | cons here inside =>
            obtain ⟨rfl, rfl⟩ := List.cons.inj split
            exact ⟨(_, rest), inductionHypothesis.mpr ⟨rfl, inside⟩, rfl⟩
      · refine iff_of_false (fun found => by cases found) ?_
        rintro ⟨split, inside⟩
        cases inside with
        | cons here inside =>
          obtain ⟨rfl, rfl⟩ := List.cons.inj split
          exact within here

/-- A round adds a character. -/
theorem scanLetter_eq_some {current : UInt8} {input rest bytes : Bytes}
    (found : scanLetter current input = some (bytes, rest)) :
    (∃ letter, bytes = String.utf8EncodeChar letter) ∧ rest.length ≤ input.length := by
  rw [scanLetter] at found
  split_ifs at found
  · obtain ⟨letter, shorter⟩ := scanEscape_eq_some found
    exact ⟨letter, shorter.le⟩
  · obtain ⟨ranges, led, found⟩ := Option.bind_eq_some_iff.mp found
    obtain ⟨⟨trail, behind⟩, taken, found⟩ := Option.bind_eq_some_iff.mp found
    obtain ⟨rfl, rfl⟩ := Prod.mk.inj (Option.some.inj found)
    obtain ⟨rfl, inside⟩ := nextByteInRange_eq_some.mp taken
    obtain ⟨letter, same⟩ := exists_letter_of_inRanges led inside
    exact ⟨⟨letter, same.symm⟩, by simp⟩

/-- What the loop returns is valid, and less than the input is left. -/
theorem scanStringLoop_eq_ok {rounds : Nat} {tokenBuffer input text rest : Bytes}
    (valid : Valid tokenBuffer)
    (scanned : scanStringLoop rounds tokenBuffer input = .ok (text, rest)) :
    Valid text ∧ rest.length < input.length := by
  induction rounds generalizing tokenBuffer input with
  | zero => cases scanned
  | succ rounds inductionHypothesis =>
    cases input with
    | nil => cases scanned
    | cons current input =>
      rw [scanStringLoop] at scanned
      split_ifs at scanned
      · obtain ⟨rfl, rfl⟩ := Prod.mk.inj (Except.ok.inj scanned)
        exact ⟨valid, Nat.lt_succ_self _⟩
      · split at scanned
        case h_1 bytes behind found =>
          obtain ⟨⟨letter, rfl⟩, shorter⟩ := scanLetter_eq_some found
          obtain ⟨valid, left⟩ := inductionHypothesis
            (valid.append ⟨[letter], by rw [encode_cons, encode_nil, List.append_nil]⟩) scanned
          exact ⟨valid, by rw [List.length_cons]; omega⟩
        · cases scanned

/-- With a round for every byte the loop ends. -/
theorem scanStringLoop_eq_error {rounds : Nat} {tokenBuffer input : Bytes} {fault : Fault}
    (enough : input.length < rounds)
    (fails : scanStringLoop rounds tokenBuffer input = .error fault) : fault = .jsonError := by
  induction rounds generalizing tokenBuffer input with
  | zero => omega
  | succ rounds inductionHypothesis =>
    cases input with
    | nil =>
      cases fails
      rfl
    | cons current input =>
      rw [scanStringLoop] at fails
      split_ifs at fails
      split at fails
      case h_1 bytes behind found =>
        have shorter := (scanLetter_eq_some found).2
        rw [List.length_cons] at enough
        exact inductionHypothesis (by omega) fails
      · cases fails
        rfl

/-! ### What tokens are scanned -/

/-- The text of a string is valid. -/
def Token.WellFormed : Token → Prop
  | .valueString text => Valid text
  | _ => True

/-- A computation fails only with the exception of the library, and its results have a property. -/
def Ends {Result : Type} (property : Result → Prop) : Except Fault Result → Prop
  | .error fault => fault = .jsonError
  | .ok result => property result

theorem Ends.bind {First Second : Type} {property : First → Prop} {property' : Second → Prop}
    {first : Except Fault First} {second : First → Except Fault Second} (ends : Ends property first)
    (ends' : ∀ result, property result → Ends property' (second result)) :
    Ends property' (first >>= second) := by
  cases first with
  | error fault => exact ends
  | ok result => exact ends' result ends

theorem Ends.mono {Result : Type} {property property' : Result → Prop}
    {computation : Except Fault Result} (ends : Ends property computation)
    (implies : ∀ result, property result → property' result) : Ends property' computation := by
  cases computation with
  | error fault => exact ends
  | ok result => exact implies result ends

theorem Ends.ite' {Result : Type} {property : Result → Prop} {condition : Prop}
    [Decidable condition] {first second : Except Fault Result}
    (left : condition → Ends property first) (right : ¬ condition → Ends property second) :
    Ends property (if condition then first else second) := by
  split_ifs with holds
  · exact left holds
  · exact right holds

theorem Ends.ite {Result : Type} {property : Result → Prop} {condition : Prop}
    [Decidable condition] {first second : Except Fault Result} (left : Ends property first)
    (right : Ends property second) : Ends property (if condition then first else second) :=
  Ends.ite' (fun _ => left) fun _ => right

/-- A token in front of at most so many bytes. -/
def Sane (bound : Nat) : Except Fault (Token × Bytes) → Prop :=
  Ends fun found => found.2.length ≤ bound ∧ found.1.WellFormed

theorem Sane.mono {bound larger : Nat} {result : Except Fault (Token × Bytes)}
    (sane : Sane bound result) (le : bound ≤ larger) : Sane larger result :=
  Ends.mono sane fun _ both => ⟨both.1.trans le, both.2⟩

theorem wellFormed_scanNumberDone (numberType : NumberType) (tokenBuffer : Bytes) :
    (scanNumberDone numberType tokenBuffer).WellFormed := by
  cases numberType with
  | float => trivial
  | unsigned | integer =>
    unfold scanNumberDone
    dsimp only
    split_ifs <;> trivial

theorem sane_scanNumberDone (numberType : NumberType) (tokenBuffer : Bytes) {rest : Bytes}
    {bound : Nat} (le : rest.length ≤ bound) :
    Sane bound (.ok (scanNumberDone numberType tokenBuffer, rest)) :=
  ⟨le, wellFormed_scanNumberDone numberType tokenBuffer⟩

theorem length_dropDigits_le (input : Bytes) :
    (input.dropWhile Text.isDigit).length ≤ input.length :=
  (List.dropWhile_suffix _).length_le

theorem sane_scanNumberAny2 (tokenBuffer input : Bytes) :
    Sane input.length (.ok (scanNumberAny2 tokenBuffer input)) :=
  sane_scanNumberDone _ _ (length_dropDigits_le input)

theorem sane_scanNumberSign (tokenBuffer input : Bytes) :
    Sane input.length (scanNumberSign tokenBuffer input) := by
  cases input with
  | nil => rfl
  | cons current rest =>
    rw [scanNumberSign]
    exact Ends.ite ((sane_scanNumberAny2 _ rest).mono (Nat.le_succ _)) rfl

theorem sane_scanNumberExponent (tokenBuffer input : Bytes) :
    Sane input.length (scanNumberExponent tokenBuffer input) := by
  cases input with
  | nil => rfl
  | cons current rest =>
    rw [scanNumberExponent]
    refine Ends.ite ((sane_scanNumberSign _ rest).mono (Nat.le_succ _)) ?_
    exact Ends.ite ((sane_scanNumberAny2 _ rest).mono (Nat.le_succ _)) rfl

theorem sane_scanNumberDecimal2 (tokenBuffer input : Bytes) :
    Sane input.length (scanNumberDecimal2 tokenBuffer input) := by
  have shorter := length_dropDigits_le input
  rw [scanNumberDecimal2]
  cases behind : input.dropWhile Text.isDigit with
  | nil => exact sane_scanNumberDone _ _ (Nat.zero_le _)
  | cons current rest =>
    rw [behind, List.length_cons] at shorter
    exact Ends.ite ((sane_scanNumberExponent _ rest).mono (by omega))
      (sane_scanNumberDone _ _ shorter)

theorem sane_scanNumberDecimal1 (tokenBuffer input : Bytes) :
    Sane input.length (scanNumberDecimal1 tokenBuffer input) := by
  cases input with
  | nil => rfl
  | cons current rest =>
    rw [scanNumberDecimal1]
    exact Ends.ite ((sane_scanNumberDecimal2 _ rest).mono (Nat.le_succ _)) rfl

theorem sane_scanNumberZero (numberType : NumberType) (tokenBuffer input : Bytes) :
    Sane input.length (scanNumberZero numberType tokenBuffer input) := by
  cases input with
  | nil => exact sane_scanNumberDone _ _ (Nat.zero_le _)
  | cons current rest =>
    rw [scanNumberZero]
    refine Ends.ite ((sane_scanNumberDecimal1 _ rest).mono (Nat.le_succ _)) ?_
    exact Ends.ite ((sane_scanNumberExponent _ rest).mono (Nat.le_succ _))
      (sane_scanNumberDone _ _ le_rfl)

theorem sane_scanNumberDigit (numberType : NumberType) (tokenBuffer : Bytes) (current : UInt8)
    (rest : Bytes) : Sane rest.length (scanNumberDigit numberType tokenBuffer current rest) := by
  rw [scanNumberDigit]
  refine Ends.ite (sane_scanNumberZero _ _ rest) (Ends.ite ?_ rfl)
  exact (sane_scanNumberZero _ _ _).mono (length_dropDigits_le rest)

theorem sane_scanNumber (current : UInt8) (rest : Bytes) :
    Sane rest.length (scanNumber current rest) := by
  rw [scanNumber]
  refine Ends.ite ?_ (sane_scanNumberDigit _ _ current rest)
  cases rest with
  | nil => rfl
  | cons digit rest => exact (sane_scanNumberDigit _ _ digit rest).mono (Nat.le_succ _)

theorem sane_scanString (input : Bytes) : Sane input.length (scanString input) := by
  rw [scanString]
  cases scanned : scanStringLoop (input.length + 1) [] input with
  | error fault => exact scanStringLoop_eq_error (Nat.lt_succ_self _) scanned
  | ok found =>
    obtain ⟨valid, shorter⟩ := scanStringLoop_eq_ok ⟨[], rfl⟩ scanned
    exact ⟨shorter.le, valid⟩

theorem sane_scanLiteral (literalText : Bytes) {returnType : Token}
    (wellFormed : returnType.WellFormed) (input : Bytes) :
    Sane input.length (scanLiteral literalText returnType input) := by
  rw [scanLiteral]
  split_ifs
  · exact ⟨by rw [List.length_drop]; omega, wellFormed⟩
  · rfl

theorem sane_scanToken (current : UInt8) (rest : Bytes) :
    Sane rest.length (scanToken current rest) := by
  rw [scanToken]
  -- the six tokens of one character
  iterate 6 refine Ends.ite ⟨le_rfl, trivial⟩ ?_
  -- the literals, the strings and the numbers
  refine Ends.ite (@sane_scanLiteral _ .literalTrue trivial rest) ?_
  refine Ends.ite (@sane_scanLiteral _ .literalFalse trivial rest) ?_
  refine Ends.ite (@sane_scanLiteral _ .literalNull trivial rest) ?_
  refine Ends.ite (sane_scanString rest) ?_
  refine Ends.ite (sane_scanNumber current rest) ?_
  exact Ends.ite ⟨le_rfl, trivial⟩ rfl

/-- A token takes bytes of the input, unless the input is at its end. -/
def Taken (input : Bytes) (found : Token × Bytes) : Prop :=
  found.1.WellFormed ∧
    (found.2.length < input.length ∨ found.1 = .endOfInput ∧ found.2 = [])

theorem Taken.length_le {input : Bytes} {found : Token × Bytes} (taken : Taken input found) :
    found.2.length ≤ input.length := by
  obtain ⟨-, shorter | ⟨-, empty⟩⟩ := taken
  · exact shorter.le
  · rw [empty]
    exact Nat.zero_le _

theorem ends_scan (input : Bytes) : Ends (Taken input) (scan input) := by
  have shorter := (List.dropWhile_suffix (l := input) isWhitespace).length_le
  rw [scan]
  cases found : input.dropWhile isWhitespace with
  | nil => exact ⟨trivial, .inr ⟨rfl, rfl⟩⟩
  | cons current rest =>
    rw [found, List.length_cons] at shorter
    exact Ends.mono (sane_scanToken current rest) fun _ both =>
      ⟨both.2, .inl (lt_of_le_of_lt both.1 shorter)⟩

theorem ends_scanFirst (input : Bytes) :
    Ends (fun found => found.2.length ≤ input.length ∧ found.1.WellFormed) (scanFirst input) := by
  have skips : Ends (fun rest => rest.length ≤ input.length) (skipBom input) := by
    rw [skipBom]
    refine Ends.ite (Ends.ite ?_ rfl) le_rfl
    show (input.drop 3).length ≤ input.length
    rw [List.length_drop]
    omega
  exact skips.bind fun rest bound => (ends_scan rest).mono fun _ taken =>
    ⟨taken.length_le.trans bound, taken.1⟩

end Lexer

end SearchEngine
