/-
This file proves that the client reads what the server writes: a JSON value whose
names are in order and whose numbers have 64 bits is written as a text that the
parser of the library reads as the same value.

The parser is followed from a text behind a value. A value is read from the text
that was written for it, whatever stands on the stack and whatever closes it, and
the parser goes on behind it. This is carried through the elements of arrays and
the members of objects. An integer that is not negative comes back as an unsigned
one.
-/

import SearchEngine.Json.Parser
import SearchEngine.Json.Serializer

namespace SearchEngine

open Utf8 Lexer Serializer

/-! ### Strings -/

theorem hexValue_hexDigit : ∀ digit < 16, hexValue (hexDigit digit) = some digit := by decide

theorem getCodepoint_hex4 {codepoint : Nat} (small : codepoint < 0x10000) (rest : Bytes) :
    getCodepoint (hex4 codepoint ++ rest) = some (codepoint, rest) := by
  have digit (number : Nat) := hexValue_hexDigit (number % 16) (Nat.mod_lt _ (by decide))
  rw [hex4, List.cons_append, List.cons_append, List.cons_append, List.cons_append, List.nil_append,
    getCodepoint, digit, digit, digit, digit]
  show some (_, rest) = _
  rw [show codepoint / 4096 % 16 * 4096 + codepoint / 256 % 16 * 256 + codepoint / 16 % 16 * 16 +
    codepoint % 16 = codepoint by omega]

/-- A character that is escaped is read back. -/
theorem scanLetter_escaped {letter : Char} {bytes : Bytes}
    (written : escaped letter.toNat = some bytes) :
    ∃ tail, bytes = 92 :: tail ∧
      ∀ rest, scanLetter 92 (tail ++ rest) = some (String.utf8EncodeChar letter, rest) := by
  rw [← codepointBytes_toNat]
  rw [escaped] at written
  split_ifs at written with one two three four five six seven small
  all_goals obtain rfl := Option.some.inj written
  · rw [one]; exact ⟨_, rfl, fun rest => rfl⟩
  · rw [two]; exact ⟨_, rfl, fun rest => rfl⟩
  · rw [three]; exact ⟨_, rfl, fun rest => rfl⟩
  · rw [four]; exact ⟨_, rfl, fun rest => rfl⟩
  · rw [five]; exact ⟨_, rfl, fun rest => rfl⟩
  · rw [six]; exact ⟨_, rfl, fun rest => rfl⟩
  · rw [seven]; exact ⟨_, rfl, fun rest => rfl⟩
  · refine ⟨117 :: hex4 letter.toNat, rfl, fun rest => ?_⟩
    show scanUnicode (hex4 letter.toNat ++ rest) = _
    rw [scanUnicode, getCodepoint_hex4 (by omega)]
    show (if _ then _ else _) = _
    rw [if_neg (by omega), if_neg (by omega)]
    rfl

/-- What is written for a character is read back, and does not begin with a quote. -/
theorem scanLetter_escapedLetter (letter : Char) :
    ∃ current tail, escapedLetter letter = current :: tail ∧ current ≠ 34 ∧
      ∀ rest, scanLetter current (tail ++ rest) = some (String.utf8EncodeChar letter, rest) := by
  rw [escapedLetter]
  cases written : escaped letter.toNat with
  | some bytes =>
    obtain ⟨tail, rfl, scans⟩ := scanLetter_escaped written
    exact ⟨92, tail, rfl, by decide, scans⟩
  | none =>
    obtain ⟨lead, trail, ranges, same, led, inside⟩ := utf8EncodeChar_inRanges letter
    obtain ⟨value, -⟩ := codepBehind_letter same
    -- a first byte below 0x80 is the whole character
    have plain : lead.toNat < 0x80 → letter.toNat = lead.toNat := by
      intro ascii
      rw [trailRanges, if_pos ascii] at led
      obtain rfl := Option.some.inj led
      cases inside
      rw [← value, (masked_lead lead.toNat lead.toNat_lt).1 ascii]
      rfl
    have visible : ¬ lead.toNat ≤ 0x1f ∧ lead.toNat ≠ 0x22 ∧ lead.toNat ≠ 0x5c := by
      rw [escaped] at written
      split_ifs at written
      omega
    refine ⟨lead, trail, same, fun quoted => visible.2.1 (by rw [quoted]; rfl), fun rest => ?_⟩
    rw [scanLetter, if_neg (fun slash => visible.2.2 (by rw [slash]; rfl)), if_neg visible.1, led]
    show (nextByteInRange ranges (trail ++ rest) >>= _) = _
    rw [nextByteInRange_eq_some.mpr ⟨rfl, inside⟩, same]
    rfl

theorem scanStringLoop_escaped {letters : List Char} {rounds : Nat}
    (enough : (letters.flatMap escapedLetter).length < rounds) (tokenBuffer rest : Bytes) :
    scanStringLoop rounds tokenBuffer (letters.flatMap escapedLetter ++ 34 :: rest) =
      .ok (tokenBuffer ++ encode letters, rest) := by
  induction letters generalizing rounds tokenBuffer with
  | nil =>
    obtain ⟨rounds, rfl⟩ := Nat.exists_eq_add_of_le' (Nat.one_le_of_lt enough)
    rw [List.flatMap_nil, List.nil_append, scanStringLoop, if_pos rfl, encode_nil, List.append_nil]
  | cons letter letters inductionHypothesis =>
    obtain ⟨rounds, rfl⟩ := Nat.exists_eq_add_of_le' (Nat.one_le_of_lt enough)
    obtain ⟨current, tail, written, unquoted, scans⟩ := scanLetter_escapedLetter letter
    rw [List.flatMap_cons, written, List.length_append, List.length_cons] at enough
    rw [List.flatMap_cons, written, List.append_assoc, List.cons_append, scanStringLoop,
      if_neg unquoted, scans]
    dsimp only
    rw [inductionHypothesis (by omega), encode_cons, List.append_assoc]

/-- A string that is written is read back. -/
theorem scanString_dumped {text written : Bytes} (dumps : dumpEscaped text = .ok written)
    (rest : Bytes) : scanString (written ++ 34 :: rest) = .ok (.valueString text, rest) := by
  obtain ⟨trail, letters, rfl, inside, letters, rfl⟩ := valid_of_dumpEscapedLoop rfl dumps
  cases inside
  rw [List.nil_append] at dumps ⊢
  obtain rfl := Except.ok.inj ((dumpEscaped_encode letters).symm.trans dumps)
  rw [scanString, scanStringLoop_escaped (by rw [List.length_append]; omega)]
  rfl

/-! ### Numbers -/

/-- What may stand behind a value. -/
def Closes (rest : Bytes) : Prop := ∀ byte ∈ rest.head?, byte = 44 ∨ byte = 93 ∨ byte = 125

theorem closes_nil : Closes [] := by
  intro byte head
  cases head

theorem closes_cons {byte : UInt8} {rest : Bytes} (closing : byte = 44 ∨ byte = 93 ∨ byte = 125) :
    Closes (byte :: rest) := by
  intro first head
  obtain rfl := Option.some.inj head
  exact closing

theorem scanNumberZero_of_closes {rest : Bytes} (closes : Closes rest) (numberType : NumberType)
    (tokenBuffer : Bytes) : scanNumberZero numberType tokenBuffer rest =
      .ok (scanNumberDone numberType tokenBuffer, rest) := by
  cases rest with
  | nil => rfl
  | cons byte rest =>
    rw [scanNumberZero]
    rcases closes byte rfl with rfl | rfl | rfl <;> rfl

theorem isDigit_of_closes {rest : Bytes} (closes : Closes rest) :
    ∀ byte ∈ rest.head?, Text.isDigit byte = false := by
  intro byte first
  rcases closes byte first with rfl | rfl | rfl <;> rfl

/-- A run of digits that does not begin with a zero is read to its end. -/
theorem scanNumberDigit_decimal {number : Nat} (positive : 0 < number) (numberType : NumberType)
    (tokenBuffer : Bytes) {rest : Bytes} (closes : Closes rest) :
    ∃ current tail, Text.decimal number = current :: tail ∧ Text.isDigit current = true ∧
      scanNumberDigit numberType tokenBuffer current (tail ++ rest) =
        .ok (scanNumberDone numberType (tokenBuffer ++ Text.decimal number), rest) := by
  obtain ⟨current, tail, digits, nonzero⟩ := Text.decimal_of_pos positive
  have digit (byte : UInt8) (inside : byte ∈ current :: tail) : Text.isDigit byte = true :=
    Text.isDigit_of_mem_decimal (digits ▸ inside)
  refine ⟨current, tail, digits, digit current List.mem_cons_self, ?_⟩
  have all : ∀ byte ∈ tail, Text.isDigit byte = true := fun byte inside =>
    digit byte (List.mem_cons_of_mem _ inside)
  have taken : (tail ++ rest).takeWhile Text.isDigit = tail ∧
      (tail ++ rest).dropWhile Text.isDigit = rest := by
    rw [List.takeWhile_append_of_pos all, List.dropWhile_append_of_pos all]
    cases rest with
    | nil => exact ⟨List.append_nil _, rfl⟩
    | cons byte rest =>
      rw [List.takeWhile_cons, List.dropWhile_cons, isDigit_of_closes closes byte rfl]
      exact ⟨List.append_nil _, rfl⟩
  rw [scanNumberDigit, if_neg nonzero, if_pos (digit current List.mem_cons_self), scanNumberAny1,
    taken.1, taken.2, scanNumberZero_of_closes closes, digits, List.append_assoc,
    List.singleton_append]


/-- Two digits in a round are the digits one at a time. -/
theorem dumpDigits_eq {absValue rounds : Nat} (positive : 0 < absValue) (enough : absValue < rounds)
    (buffer : Bytes) : dumpDigits rounds absValue buffer = Text.decimal absValue ++ buffer := by
  induction rounds generalizing absValue buffer with
  | zero => omega
  | succ rounds inductionHypothesis =>
    rw [dumpDigits]
    split_ifs with large two
    · rw [inductionHypothesis (by omega) (by omega), Text.decimal_of_le (show 10 ≤ absValue by omega),
        Text.decimal_of_le (show 10 ≤ absValue / 10 by omega), Nat.div_div_eq_div_mul, digitsTo99,
        show absValue % 100 / 10 = absValue / 10 % 10 by omega,
        show absValue % 100 % 10 = absValue % 10 by omega]
      simp only [List.append_assoc, List.cons_append, List.nil_append, Nat.reduceMul]
    · rw [Text.decimal_of_le two, Text.decimal_of_lt (by omega), digitsTo99]
      rfl
    · rw [Text.decimal_of_lt (by omega)]
      rfl

/-- The token of an integer. -/
def numberToken (x : Int) : Token :=
  if 0 ≤ x then .valueUnsigned x.toNat else .valueInteger x

theorem scan_digit {current : UInt8} (digit : Text.isDigit current = true) (input : Bytes) :
    scan (current :: input) = scanNumber current input := by
  rw [Text.isDigit, Bool.and_eq_true, decide_eq_true_eq, decide_eq_true_eq, UInt8.le_iff_toNat_le,
    UInt8.le_iff_toNat_le] at digit
  obtain ⟨value, same⟩ : ∃ value, value = current.toNat := ⟨_, rfl⟩
  have low : 48 ≤ value := same ▸ digit.1
  have high : value ≤ 57 := same ▸ digit.2
  obtain rfl : current = UInt8.ofNat value := by rw [same, UInt8.ofNat_toNat]
  clear same digit
  interval_cases value <;> rfl

theorem scanNumberDone_unsigned {number : Nat} (small : number < 2 ^ 64) :
    scanNumberDone .unsigned (Text.decimal number) = .valueUnsigned number := by
  unfold scanNumberDone
  simp only [Text.digitsValue_decimal, if_pos small]

theorem scanNumberDone_integer {number : Nat} (small : number ≤ 2 ^ 63) :
    scanNumberDone .integer (45 :: Text.decimal number) = .valueInteger (-number) := by
  unfold scanNumberDone
  simp only [List.tail_cons, Text.digitsValue_decimal, if_pos small]

/-- An integer of 64 bits is read back. -/
theorem scan_dumpInteger {x : Int} (least : -2 ^ 63 ≤ x) (bound : x < 2 ^ 64) {rest : Bytes}
    (closes : Closes rest) : scan (dumpInteger x ++ rest) = .ok (numberToken x, rest) := by
  rw [dumpInteger]
  split_ifs with zero negative
  · rw [zero]
    exact scanNumberZero_of_closes closes .unsigned [48]
  · obtain ⟨current, tail, digits, digit, scans⟩ :=
      scanNumberDigit_decimal (show 0 < x.natAbs by omega) .integer [45] closes
    have token := @scanNumberDone_integer x.natAbs (by omega)
    rw [digits] at scans token
    rw [dumpDigits_eq (by omega) (Nat.lt_succ_self _), List.append_nil, digits, numberToken,
      if_neg (by omega), show x = -(x.natAbs : Int) by omega, ← token]
    exact scans
  · obtain ⟨current, tail, digits, digit, scans⟩ :=
      scanNumberDigit_decimal (show 0 < x.natAbs by omega) .unsigned [] closes
    have token := @scanNumberDone_unsigned x.natAbs (by omega)
    rw [digits] at scans token
    rw [dumpDigits_eq (by omega) (Nat.lt_succ_self _), List.append_nil, digits, List.cons_append,
      scan_digit digit, scanNumber, if_neg (Text.isDigit_ne_sign digit).2.1, scans, numberToken,
      if_pos (by omega), show x.toNat = x.natAbs by omega, ← token]
    rfl

/-! ### Values -/

namespace Json

mutual

/-- The value that is read for a value that was written. -/
def parsed : Json → Value
  | .null => .null
  | .string text => .string text
  | .number value => if 0 ≤ value then .unsigned value.toNat else .integer value
  | .array elements => .array (parsedElements elements)
  | .object members => .object (parsedMembers members)

def parsedElements : List Json → List Value
  | [] => []
  | element :: elements => element.parsed :: parsedElements elements

def parsedMembers : List (Bytes × Json) → List (Bytes × Value)
  | [] => []
  | (name, member) :: members => (name, member.parsed) :: parsedMembers members

end

/-- A value that can be stored: the names of its objects are in order, and its numbers have 64
bits. -/
inductive Proper : Json → Prop where
  | null : Proper .null
  | string (text : Bytes) : Proper (.string text)
  | number {value : Int} (least : -2 ^ 63 ≤ value) (bound : value < 2 ^ 64) :
      Proper (.number value)
  | array {elements : List Json} (each : ∀ element ∈ elements, Proper element) :
      Proper (.array elements)
  | object {members : List (Bytes × Json)}
      (ordered : members.Pairwise fun first second => bytesLess first.1 second.1)
      (each : ∀ member ∈ members, Proper member.2) : Proper (.object members)

theorem map_fst_parsedMembers (members : List (Bytes × Json)) :
    (parsedMembers members).map Prod.fst = members.map Prod.fst := by
  induction members with
  | nil => rfl
  | cons member members inductionHypothesis =>
    rw [parsedMembers, List.map_cons, List.map_cons, inductionHypothesis]

end Json

namespace Parser

open Fuel

/-! ### Runs of the parser -/

/-- A member that comes behind all others is assigned at the end. -/
theorem assign_of_behind {name : Bytes} (value : Value) {members : List (Bytes × Value)}
    (behind : ∀ member ∈ members, bytesLess member.1 name) :
    assign name value members = members ++ [(name, value)] := by
  induction members with
  | nil => rfl
  | cons member members inductionHypothesis =>
    obtain ⟨here, later⟩ := List.forall_mem_cons.mp behind
    have notBefore : ¬ bytesLess name member.1 := fun before =>
      bytesLess_irrefl _ (bytesLess_trans _ _ _ before here)
    have notSame : name ≠ member.1 := fun same => bytesLess_irrefl _ (same ▸ here)
    rw [assign, if_neg notBefore, if_neg notSame, inductionHypothesis later, List.cons_append]

/-- What handing a value over makes of the stack and the root. -/
inductive Hands (v : Value) : List Frame → Value → List Frame → Value → Prop where
  | root (root : Value) : Hands v [] root [] v
  | array (elements : List Value) (refStack : List Frame) (root : Value) :
      Hands v (.array elements :: refStack) root (.array (elements ++ [v]) :: refStack) root
  | object (members : List (Bytes × Value)) (name : Bytes) (refStack : List Frame) (root : Value) :
      Hands v (.object members (some name) :: refStack) root
        (.object (assign name v members) (some name) :: refStack) root

theorem Hands.handleValue {v : Value} {refStack refStack' : List Frame} {root root' : Value}
    (hands : Hands v refStack root refStack' root') (rest : Bytes) (lastToken : Token)
    (states : List Bool) (skip : Bool) :
    (⟨rest, lastToken, states, refStack, root, skip⟩ : State).handleValue v =
      .ok ⟨rest, lastToken, states, refStack', root', skip⟩ := by
  cases hands <;> rfl

namespace State

variable (isfinite : Bytes → Bool)

/-- The root that the loop ends with. -/
def run (s : State) (rounds : Nat) : Except Fault Value := (s.loop isfinite rounds).map State.root

variable {isfinite} {s s' : State} {result : Value}

theorem returns_of_goOn (goesOn : s.round isfinite = .ok (.goOn s'))
    (returns : Returns (s'.run isfinite) result) : Returns (s.run isfinite) result :=
  returns.of_round fun rounds => by rw [run, loop, goesOn]; rfl

theorem returns_of_done (done : s.round isfinite = .ok (.done s')) :
    Returns (s.run isfinite) s'.root := by
  refine ⟨1, fun rounds enough => ?_⟩
  obtain ⟨rounds, rfl⟩ := Nat.exists_eq_add_of_le' enough
  rw [run, loop, done]
  rfl

/-- States whose iterations do the same end with the same root. -/
theorem returns_of_same (same : s.round isfinite = s'.round isfinite)
    (returns : Returns (s'.run isfinite) result) : Returns (s.run isfinite) result := by
  obtain ⟨bound, ends⟩ := returns
  refine ⟨bound + 1, fun rounds enough => ?_⟩
  obtain ⟨rounds, rfl⟩ := Nat.exists_eq_add_of_le' (Nat.one_le_of_lt enough)
  rw [← ends (rounds + 1) (by omega), run, run, loop, loop, same]

end State

end Parser

namespace Parser

open Fuel State

variable (isfinite : Bytes → Bool)

/-- The parser goes on from a text behind a value. -/
def GoesOn (rest : Bytes) (states : List Bool) (refStack : List Frame) (root result : Value) :
    Prop :=
  ∀ lastToken, Returns (run isfinite ⟨rest, lastToken, states, refStack, root, true⟩) result

/-- The parser reads a value from a text that begins with one of its tokens. -/
def Starts (input : Bytes) (states : List Bool) (refStack : List Frame) (root result : Value) :
    Prop :=
  ∃ lastToken behind, scan input = .ok (lastToken, behind) ∧ lastToken ≠ .endArray ∧
    Returns (run isfinite ⟨behind, lastToken, states, refStack, root, false⟩) result

/-- What is written for a value is read, whatever is around it. -/
def Recovers (json : Json) : Prop :=
  ∀ {written : Bytes}, dump json = .ok written → json.Proper → ∀ {rest : Bytes}, Closes rest →
    ∀ {states : List Bool} {refStack refStack' : List Frame} {root root' result : Value},
      Hands json.parsed refStack root refStack' root' →
      GoesOn isfinite rest states refStack' root' result →
      Starts isfinite (written ++ rest) states refStack root result

/-- What is written for elements is read into an array. -/
def RecoversElements (elements : List Json) : Prop :=
  ∀ {written : Bytes}, dumpElements elements = .ok written →
    (∀ element ∈ elements, element.Proper) →
    ∀ {rest : Bytes} {states : List Bool} {refStack refStack' : List Frame}
      {root root' result : Value} (done : List Value),
      Hands (.array (done ++ Json.parsedElements elements)) refStack root refStack' root' →
      GoesOn isfinite rest states refStack' root' result →
      Starts isfinite (written ++ 93 :: rest) (true :: states) (.array done :: refStack) root result

/-- The parser reads a member of an object, and what follows it, from a text that begins with its
name. -/
def StartsMember (input : Bytes) (states : List Bool) (done : List (Bytes × Value))
    (refStack : List Frame) (root result : Value) : Prop :=
  ∃ name behind token rest, scan input = .ok (.valueString name, behind) ∧
    (∀ own objectElement, parseKey ⟨behind, .valueString name, own,
      .object done objectElement :: refStack, root, false⟩ =
        .ok ⟨rest, token, own, .object done (some name) :: refStack, root, false⟩) ∧
    Returns (run isfinite ⟨rest, token, false :: states, .object done (some name) :: refStack, root,
      false⟩) result

/-- What is written for members is read into an object. -/
def RecoversMembers (members : List (Bytes × Json)) : Prop :=
  ∀ {written : Bytes}, dumpMembers members = .ok written → (∀ member ∈ members, member.2.Proper) →
    ∀ {rest : Bytes} {states : List Bool} {refStack refStack' : List Frame}
      {root root' result : Value} (done : List (Bytes × Value)),
      ((done ++ Json.parsedMembers members).Pairwise
        fun first second => bytesLess first.1 second.1) →
      Hands (.object (done ++ Json.parsedMembers members)) refStack root refStack' root' →
      GoesOn isfinite rest states refStack' root' result →
      StartsMember isfinite (written ++ 125 :: rest) states done refStack root result

variable {isfinite}

/-- A value that the first half of an iteration completes. -/
theorem returns_of_parseValue {s : State} {rest : Bytes} (lastToken : Token) {states : List Bool}
    {refStack : List Frame} {root result : Value} (noSkip : s.skipToStateEvaluation = false)
    (parses : s.parseValue isfinite = .ok (true, ⟨rest, lastToken, states, refStack, root, false⟩))
    (goesOn : GoesOn isfinite rest states refStack root result) :
    Returns (s.run isfinite) result := by
  refine returns_of_same ?_ (goesOn lastToken)
  rw [State.round, if_neg (by rw [noSkip]; decide), parses]
  rfl

/-- A value of one token. -/
theorem starts_of_token {v : Value} {written rest : Bytes} {lastToken : Token} {states : List Bool}
    {refStack refStack' : List Frame} {root root' result : Value}
    (scans : scan (written ++ rest) = .ok (lastToken, rest)) (noEnd : lastToken ≠ .endArray)
    (hands : Hands v refStack root refStack' root')
    (goesOn : GoesOn isfinite rest states refStack' root' result)
    (parses : ∀ s : State, s.lastToken = lastToken →
      s.parseValue isfinite = do return (true, ← s.handleValue v)) :
    Starts isfinite (written ++ rest) states refStack root result := by
  refine ⟨lastToken, rest, scans, noEnd, returns_of_parseValue lastToken rfl ?_ goesOn⟩
  rw [parses _ rfl, hands.handleValue]
  rfl

theorem recovers_number (value : Int) : Recovers isfinite (.number value) := by
  intro written dumps proper rest closes states refStack refStack' root root' result hands goesOn
  obtain rfl := Except.ok.inj dumps
  cases proper with
  | number least bound =>
    have scans := scan_dumpInteger least bound closes
    rw [Json.parsed] at hands
    rw [numberToken] at scans
    by_cases negative : 0 ≤ value
    · rw [if_pos negative] at scans hands
      exact starts_of_token scans (by simp) hands goesOn fun s token => by rw [parseValue, token]
    · rw [if_neg negative] at scans hands
      exact starts_of_token scans (by simp) hands goesOn fun s token => by rw [parseValue, token]

theorem recovers_string (text : Bytes) : Recovers isfinite (.string text) := by
  intro written dumps proper rest closes states refStack refStack' root root' result hands goesOn
  obtain ⟨inner, escapes, same⟩ := bind_eq_ok.mp dumps
  obtain rfl := Except.ok.inj same
  have scans : scan (quote :: inner ++ [quote] ++ rest) = .ok (.valueString text, rest) := by
    rw [List.append_assoc]
    exact scanString_dumped escapes rest
  rw [Json.parsed] at hands
  exact starts_of_token scans (by simp) hands goesOn fun s token => by rw [parseValue, token]

theorem recovers_null : Recovers isfinite .null := by
  intro written dumps proper rest closes states refStack refStack' root root' result hands goesOn
  obtain rfl := Except.ok.inj dumps
  have scans : scan (ascii "null" ++ rest) = .ok (.literalNull, rest) := by
    have literal : scan (ascii "null" ++ rest) =
        scanLiteral [117, 108, 108] .literalNull ([117, 108, 108] ++ rest) := rfl
    rw [literal, scanLiteral, if_pos (List.prefix_append _ _)]
    rfl
  rw [Json.parsed] at hands
  exact starts_of_token scans (by simp) hands goesOn fun s token => by rw [parseValue, token]

/-! ### Arrays -/

section Rounds

variable {rest : Bytes} {lastToken : Token} {states : List Bool} {refStack refStack' : List Frame}
  {root root' : Value}

theorem round_closeArray {elements : List Value}
    (hands : Hands (.array elements) refStack root refStack' root') :
    State.round isfinite ⟨93 :: rest, lastToken, true :: states, .array elements :: refStack, root,
      true⟩ = .ok (.goOn ⟨rest, .endArray, states, refStack', root', true⟩) := by
  have finishes : (⟨rest, .endArray, true :: states, .array elements :: refStack, root,
      false⟩ : State).finish = .ok ⟨rest, .endArray, true :: states, refStack', root', false⟩ :=
    hands.handleValue _ _ _ _
  show (do
    let s ← (⟨rest, .endArray, true :: states, .array elements :: refStack, root,
      false⟩ : State).finish
    return Next.goOn { s with states, skipToStateEvaluation := true }) = _
  rw [finishes]
  rfl

theorem round_nextElement {token : Token} {behind : Bytes}
    (scans : scan rest = .ok (token, behind)) :
    State.round isfinite ⟨44 :: rest, lastToken, true :: states, refStack, root, true⟩ =
      .ok (.goOn ⟨behind, token, true :: states, refStack, root, false⟩) := by
  show (do return Next.goOn (← (⟨rest, .valueSeparator, true :: states, refStack, root,
    false⟩ : State).getToken)) = _
  rw [getToken, scans]
  rfl

theorem round_closeObject {members : List (Bytes × Value)} {objectElement : Option Bytes}
    (hands : Hands (.object members) refStack root refStack' root') :
    State.round isfinite ⟨125 :: rest, lastToken, false :: states,
      .object members objectElement :: refStack, root, true⟩ =
        .ok (.goOn ⟨rest, .endObject, states, refStack', root', true⟩) := by
  have finishes : (⟨rest, .endObject, false :: states, .object members objectElement :: refStack,
      root, false⟩ : State).finish = .ok ⟨rest, .endObject, false :: states, refStack', root',
        false⟩ := hands.handleValue _ _ _ _
  show (do
    let s ← (⟨rest, .endObject, false :: states, .object members objectElement :: refStack, root,
      false⟩ : State).finish
    return Next.goOn { s with states, skipToStateEvaluation := true }) = _
  rw [finishes]
  rfl

theorem round_nextMember {token : Token} {behind : Bytes} {s : State}
    (scans : scan rest = .ok (token, behind))
    (parses : parseKey ⟨behind, token, false :: states, refStack, root, false⟩ = .ok s) :
    State.round isfinite ⟨44 :: rest, lastToken, false :: states, refStack, root, true⟩ =
      .ok (.goOn s) := by
  show (do
    let s ← (⟨rest, .valueSeparator, false :: states, refStack, root, false⟩ : State).getToken
    return Next.goOn (← s.parseKey)) = _
  rw [getToken, scans]
  show (do return Next.goOn (← parseKey ⟨behind, token, false :: states, refStack, root, false⟩)) = _
  rw [parses]
  rfl

theorem round_openArray {token : Token} {behind : Bytes} (scans : scan rest = .ok (token, behind))
    (noEnd : token ≠ .endArray) :
    State.round isfinite ⟨rest, .beginArray, states, refStack, root, false⟩ =
      .ok (.goOn ⟨behind, token, true :: states, .array [] :: refStack, root, false⟩) := by
  have reads : getToken (start ⟨rest, .beginArray, states, refStack, root, false⟩ (.array [])) =
      .ok ⟨behind, token, states, .array [] :: refStack, root, false⟩ := by
    rw [start, getToken, scans]
    rfl
  have parses : parseValue isfinite ⟨rest, .beginArray, states, refStack, root, false⟩ =
      .ok (false, ⟨behind, token, true :: states, .array [] :: refStack, root, false⟩) := by
    rw [parseValue]
    dsimp only
    rw [reads, ok_bind, if_neg noEnd, pure_eq_ok]
  rw [State.round, if_neg Bool.false_ne_true, parses]
  rfl

theorem round_openObject {token : Token} {name behind later : Bytes}
    (scans : scan rest = .ok (.valueString name, behind))
    (parses : parseKey ⟨behind, .valueString name, states, .object [] none :: refStack, root,
      false⟩ = .ok ⟨later, token, states, .object [] (some name) :: refStack, root, false⟩) :
    State.round isfinite ⟨rest, .beginObject, states, refStack, root, false⟩ =
      .ok (.goOn ⟨later, token, false :: states, .object [] (some name) :: refStack, root,
        false⟩) := by
  have reads : getToken (start ⟨rest, .beginObject, states, refStack, root, false⟩
      (.object [] none)) =
        .ok ⟨behind, .valueString name, states, .object [] none :: refStack, root, false⟩ := by
    rw [start, getToken, scans]
    rfl
  have parsed : parseValue isfinite ⟨rest, .beginObject, states, refStack, root, false⟩ =
      .ok (false, ⟨later, token, false :: states, .object [] (some name) :: refStack, root,
        false⟩) := by
    rw [parseValue]
    dsimp only
    rw [reads, ok_bind, if_neg nofun, parses, ok_bind, pure_eq_ok]
  rw [State.round, if_neg Bool.false_ne_true, parsed]
  rfl

end Rounds

theorem recoversElements_cons {element : Json} {elements : List Json}
    (recovers : Recovers isfinite element)
    (others : elements ≠ [] → RecoversElements isfinite elements) :
    RecoversElements isfinite (element :: elements) := by
  intro written dumps proper rest states refStack refStack' root root' result done hands goesOn
  obtain ⟨here, later⟩ := List.forall_mem_cons.mp proper
  obtain ⟨first, dumpsFirst, dumps⟩ := bind_eq_ok.mp dumps
  obtain ⟨behind, dumpsOthers, same⟩ := bind_eq_ok.mp dumps
  obtain rfl := Except.ok.inj same
  rw [Json.parsedElements] at hands
  rw [List.append_assoc, List.append_assoc]
  cases elements with
  | nil =>
    obtain rfl := Except.ok.inj dumpsOthers
    rw [if_pos rfl, List.nil_append, List.nil_append]
    refine recovers dumpsFirst here (closes_cons (.inr (.inl rfl)))
      (Hands.array done refStack root) fun lastToken => ?_
    exact returns_of_goOn (round_closeArray hands) (goesOn .endArray)
  | cons next elements =>
    rw [if_neg (List.cons_ne_nil _ _)]
    refine recovers dumpsFirst here (closes_cons (.inl rfl))
      (Hands.array done refStack root) fun lastToken => ?_
    obtain ⟨token, left, scans, -, returns⟩ := others (List.cons_ne_nil _ _) dumpsOthers later
      (done ++ [element.parsed]) (by rw [List.append_assoc]; exact hands) goesOn
    exact returns_of_goOn (round_nextElement scans) returns

theorem recovers_array {elements : List Json}
    (others : elements ≠ [] → RecoversElements isfinite elements) :
    Recovers isfinite (.array elements) := by
  intro written dumps proper rest closes states refStack refStack' root root' result hands goesOn
  obtain ⟨inner, dumpsElements, same⟩ := bind_eq_ok.mp dumps
  obtain rfl := Except.ok.inj same
  rw [Json.parsed] at hands
  cases proper with
  | array each =>
    cases elements with
    | nil =>
      obtain rfl := Except.ok.inj dumpsElements
      refine ⟨.beginArray, 93 :: rest, rfl, by decide,
        returns_of_parseValue .endArray rfl ?_ goesOn⟩
      have finishes := hands.handleValue rest .endArray states false
      show (do
        let s ← (⟨rest, .endArray, states, .array [] :: refStack, root, false⟩ : State).finish
        return (true, s)) = _
      rw [show (⟨rest, .endArray, states, .array [] :: refStack, root, false⟩ : State).finish = _
        from finishes]
      rfl
    | cons element elements =>
      obtain ⟨token, left, scans, noEnd, returns⟩ := others (List.cons_ne_nil _ _) dumpsElements each
        [] hands goesOn
      refine ⟨.beginArray, inner ++ 93 :: rest, ?_, by decide,
        returns_of_goOn (round_openArray scans noEnd) returns⟩
      rw [List.append_assoc]
      rfl

/-! ### Objects -/

theorem parseKey_member {tail rest name : Bytes} {token : Token}
    (scans : scan tail = .ok (token, rest)) (own : List Bool) (objectElement : Option Bytes)
    (done : List (Bytes × Value)) (refStack : List Frame) (root : Value) :
    parseKey ⟨58 :: tail, .valueString name, own, .object done objectElement :: refStack, root,
      false⟩ = .ok ⟨rest, token, own, .object done (some name) :: refStack, root, false⟩ := by
  have separator : getToken ⟨58 :: tail, .valueString name, own,
      .object done (some name) :: refStack, root, false⟩ =
        .ok ⟨tail, .nameSeparator, own, .object done (some name) :: refStack, root, false⟩ := rfl
  have value : getToken ⟨tail, .nameSeparator, own, .object done (some name) :: refStack, root,
      false⟩ = .ok ⟨rest, token, own, .object done (some name) :: refStack, root, false⟩ := by
    rw [getToken, scans]
    rfl
  rw [parseKey]
  dsimp only
  rw [State.key]
  dsimp only
  rw [ok_bind, separator, ok_bind, if_pos rfl, value]

theorem recoversMembers_cons {name : Bytes} {member : Json} {members : List (Bytes × Json)}
    (recovers : Recovers isfinite member)
    (others : members ≠ [] → RecoversMembers isfinite members) :
    RecoversMembers isfinite ((name, member) :: members) := by
  intro written dumps proper rest states refStack refStack' root root' result done ordered hands
    goesOn
  obtain ⟨here, later⟩ := List.forall_mem_cons.mp proper
  obtain ⟨key, escapes, dumps⟩ := bind_eq_ok.mp dumps
  obtain ⟨first, dumpsFirst, dumps⟩ := bind_eq_ok.mp dumps
  obtain ⟨behind, dumpsOthers, same⟩ := bind_eq_ok.mp dumps
  obtain rfl := Except.ok.inj same
  rw [Json.parsedMembers] at hands ordered
  -- the name stands behind those that have been read
  have inOrder : assign name member.parsed done = done ++ [(name, member.parsed)] :=
    assign_of_behind member.parsed fun earlier listed =>
      (List.pairwise_append.mp ordered).2.2 earlier listed _ List.mem_cons_self
  have handsMember := Hands.object (v := member.parsed) done name refStack root
  rw [inOrder] at handsMember
  have starts : ∀ after, Closes after →
      GoesOn isfinite after (false :: states)
        (.object (done ++ [(name, member.parsed)]) (some name) :: refStack) root result →
      StartsMember isfinite (quote :: key ++ [quote, 58] ++ first ++ after) states done refStack root
        result := by
    intro after closes goesOnAfter
    obtain ⟨token, left, scans, -, returns⟩ :=
      recovers dumpsFirst here closes handsMember goesOnAfter
    refine ⟨name, 58 :: (first ++ after), token, left, ?_,
      fun own objectElement => parseKey_member scans own objectElement done refStack root, returns⟩
    have text : quote :: key ++ [quote, 58] ++ first ++ after =
        quote :: (key ++ 34 :: 58 :: (first ++ after)) := by
      simp [quote]
    rw [text]
    exact scanString_dumped escapes _
  cases members with
  | nil =>
    obtain rfl := Except.ok.inj dumpsOthers
    rw [if_pos rfl, List.append_nil, List.append_nil]
    refine starts _ (closes_cons (.inr (.inr rfl))) fun lastToken => ?_
    exact returns_of_goOn (round_closeObject hands) (goesOn .endObject)
  | cons next members =>
    rw [if_neg (List.cons_ne_nil _ _), List.append_assoc, List.append_assoc]
    refine starts _ (closes_cons (.inl rfl)) fun lastToken => ?_
    obtain ⟨other, behindName, token, left, scans, parses, returns⟩ :=
      others (List.cons_ne_nil _ _) dumpsOthers later (done ++ [(name, member.parsed)])
        (by rw [List.append_assoc]; exact ordered) (by rw [List.append_assoc]; exact hands) goesOn
    exact returns_of_goOn (round_nextMember scans (parses _ _)) returns

theorem recovers_object {members : List (Bytes × Json)}
    (others : members ≠ [] → RecoversMembers isfinite members) :
    Recovers isfinite (.object members) := by
  intro written dumps proper rest closes states refStack refStack' root root' result hands goesOn
  obtain ⟨inner, dumpsMembers, same⟩ := bind_eq_ok.mp dumps
  obtain rfl := Except.ok.inj same
  rw [Json.parsed] at hands
  cases proper with
  | object ordered each =>
    cases members with
    | nil =>
      obtain rfl := Except.ok.inj dumpsMembers
      refine ⟨.beginObject, 125 :: rest, rfl, by decide,
        returns_of_parseValue .endObject rfl ?_ goesOn⟩
      have finishes := hands.handleValue rest .endObject states false
      show (do
        let s ← (⟨rest, .endObject, states, .object [] none :: refStack, root, false⟩ : State).finish
        return (true, s)) = _
      rw [show (⟨rest, .endObject, states, .object [] none :: refStack, root, false⟩ : State).finish =
        _ from finishes]
      rfl
    | cons member members =>
      have names : ((Json.parsedMembers (member :: members)).map Prod.fst).Pairwise
          fun first second => bytesLess first second := by
        rw [Json.map_fst_parsedMembers]
        exact List.pairwise_map.mpr ordered
      obtain ⟨name, behind, token, left, scans, parses, returns⟩ :=
        others (List.cons_ne_nil _ _) dumpsMembers each [] (List.pairwise_map.mp names) hands goesOn
      refine ⟨.beginObject, inner ++ 125 :: rest, ?_, by decide,
        returns_of_goOn (round_openObject scans (parses _ _)) returns⟩
      rw [List.append_assoc]
      rfl

/-! ### Values -/

mutual

/-- What is written for a value is read as this value. -/
theorem recovers (isfinite : Bytes → Bool) : ∀ json, Recovers isfinite json
  | .null => recovers_null
  | .string text => recovers_string text
  | .number value => recovers_number value
  | .array elements => recovers_array (recoversElements isfinite elements)
  | .object members => recovers_object (recoversMembers isfinite members)

theorem recoversElements (isfinite : Bytes → Bool) :
    ∀ elements, elements ≠ [] → RecoversElements isfinite elements
  | [], nonempty => absurd rfl nonempty
  | element :: elements, _ =>
    recoversElements_cons (recovers isfinite element) (recoversElements isfinite elements)

theorem recoversMembers (isfinite : Bytes → Bool) :
    ∀ members, members ≠ [] → RecoversMembers isfinite members
  | [], nonempty => absurd rfl nonempty
  | (_, member) :: members, _ =>
    recoversMembers_cons (recovers isfinite member) (recoversMembers isfinite members)

end

/-! ### Responses -/

/-- A round more changes nothing for a loop that has ended. -/
theorem loop_succ {rounds : Nat} {s : State} (ended : s.loop isfinite rounds ≠ .error .noReturn) :
    s.loop isfinite (rounds + 1) = s.loop isfinite rounds := by
  induction rounds generalizing s with
  | zero => exact absurd rfl ended
  | succ rounds inductionHypothesis =>
    rw [State.loop] at ended
    rw [State.loop, State.loop]
    cases next : s.round isfinite with
    | error fault => rfl
    | ok next' =>
      rw [next, ok_bind] at ended
      rw [ok_bind, ok_bind]
      cases next' with
      | goOn s' => exact inductionHypothesis ended
      | done s' => rfl

/-- A loop that ends with enough rounds ends with this many. -/
theorem loop_of_returns {s : State} {rounds : Nat} {result : Value}
    (ended : s.loop isfinite rounds ≠ .error .noReturn)
    (returns : Returns (s.run isfinite) result) : s.run isfinite rounds = .ok result := by
  obtain ⟨bound, ends⟩ := returns
  have more (extra : Nat) : s.loop isfinite (rounds + extra) = s.loop isfinite rounds := by
    induction extra with
    | zero => rfl
    | succ extra inductionHypothesis =>
      rw [← Nat.add_assoc, loop_succ (by rw [inductionHypothesis]; exact ended), inductionHypothesis]
  have enough := ends (rounds + bound) (Nat.le_add_left _ _)
  rw [run, more] at enough
  exact enough

/-- A text that was written does not begin with a byte order mark. -/
theorem skipBom_of_scan {input behind : Bytes} {token : Token}
    (scans : scan input = .ok (token, behind)) : skipBom input = .ok input := by
  rw [skipBom, if_neg]
  intro mark
  cases input with
  | nil => cases mark
  | cons byte input =>
    obtain rfl : byte = 0xef := Option.some.inj mark
    cases scans

/-- The text that is written of a value is parsed as this value. -/
theorem parse_dump (isfinite : Bytes → Bool) {json : Json} (proper : json.Proper) {written : Bytes}
    (dumps : dump json = .ok written) : parse isfinite written = .ok json.parsed := by
  have ends : GoesOn isfinite [] [] [] json.parsed json.parsed := fun lastToken =>
    @returns_of_done isfinite _ ⟨[], lastToken, [], [], json.parsed, false⟩ rfl
  obtain ⟨token, behind, scans, -, returns⟩ := recovers isfinite json dumps proper
    closes_nil (Hands.root (v := json.parsed) .null) ends
  rw [List.append_nil] at scans
  have first : scanFirst written = .ok (token, behind) := by
    rw [scanFirst, skipBom_of_scan scans, ok_bind, scans]
  obtain ⟨shorter, wellFormed⟩ : behind.length ≤ written.length ∧ token.WellFormed := by
    have scanned := ends_scanFirst written
    rw [first] at scanned
    exact scanned
  have sound : State.Sound ⟨behind, token, [], [], .null, false⟩ := ⟨⟨.nil, .null⟩, wellFormed⟩
  have size := State.size_le ⟨behind, token, [], [], .null, false⟩
  dsimp only at size
  have ended : State.loop isfinite (2 * written.length + 2) ⟨behind, token, [], [], .null, false⟩ ≠
      .error .noReturn := by
    intro same
    have looped := @State.Sound.ends_loop _ sound isfinite (2 * written.length + 2) (by omega)
    rw [same] at looped
    cases looped
  have result := loop_of_returns ended returns
  rw [parse, first]
  exact result

end Parser

end SearchEngine
