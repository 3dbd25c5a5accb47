/-
This file models the two queries of the dictionary that do not rank words: random
words, and the words of a word chain.

`Dictionary::getRandKeys` draws five words; what `rand` returns is a parameter.
`Dictionary::getSolitaireKeys` looks for the last character of a key and collects
the first words that start with it. Its counting loop ends only where a character
ends exactly at the end of the key, and its comparison reads the NUL behind a
word. Neither throws, and both answer with words of the dictionary.
-/

import SearchEngine.Recommender.Exceptions

namespace SearchEngine

namespace Dictionary

/-! ### Random words -/

/-- The loop of `Dictionary::getRandKeys`. -/
def getRandKeysLoop (dict : List (Bytes × Int)) :
    List Nat → List Bytes → Except Fault (List Bytes)
  | [], keys => .ok keys
  | rand :: draws, keys =>
    if dict.length = 0 then .error .divisionByZero
    else do
      let idx := toInt (rand % dict.length)
      let (word, _) ← entryAt dict idx
      getRandKeysLoop dict draws (keys ++ [word])

/-- `Dictionary::getRandKeys`, with what the calls of `rand` return. -/
def getRandKeys (dictionary : Dictionary) (rand : Fin 5 → Nat) (keys : List Bytes) :
    Except Fault (List Bytes) := getRandKeysLoop dictionary.dict (List.ofFn rand) keys

/-! ### Word chains -/

/-- The loop of `Dictionary::length`. -/
def lengthLoop (str : Bytes) : Nat → Nat → Nat → Except Fault Nat
  | 0, _, _ => .error .noReturn
  | rounds + 1, idx, ilen =>
    if idx = str.length then .ok ilen
    else do
      let ch ← orFault .outOfBounds str[idx]?
      lengthLoop str rounds (idx + Utf8.nBytesCode ch) (ilen + 1)

/-- `Dictionary::length`; every round passes a byte or reads outside the string. -/
def length (str : Bytes) : Except Fault Nat := lengthLoop str (str.length + 1) 0 0

/-- `key_last_ch.push_back(key[i++])`, as often as a number says. -/
def pushBytes (key : Bytes) : Nat → Nat → Bytes → Except Fault Bytes
  | 0, _, key_last_ch => .ok key_last_ch
  | count + 1, i, key_last_ch => do
    let byte ← MinEditDist.charAt key i
    pushBytes key count (i + 1) (key_last_ch ++ [byte])

/-- The loop of `Dictionary::getSolitaireKeys` over the characters of the key, which runs at most
once for each byte. -/
def lastCharLoop (key : Bytes) (keyLen : Int) : Nat → Nat → Nat → Except Fault Bytes
  | 0, _, _ => .ok []
  | rounds + 1, i, idx_ch_key =>
    match key[i]? with
    | none => .ok []
    | some ch =>
      if (idx_ch_key : Int) = keyLen - 1 then pushBytes key (Utf8.nBytesCode ch) i []
      else lastCharLoop key keyLen rounds (i + Utf8.nBytesCode ch) (idx_ch_key + 1)

/-- The loop of `Dictionary::getSolitaireKeys` over the bytes of `key_last_ch`, from `idx` on. -/
def startsWithLoop (cur_key : Bytes) : Bytes → Nat → Except Fault Bool
  | [], _ => .ok true
  | byte :: key_last_ch, idx => do
    let ch ← MinEditDist.charAt cur_key idx
    if byte ≠ ch then return false else startsWithLoop cur_key key_last_ch (idx + 1)

/-- The loop of `Dictionary::getSolitaireKeys` over the words, from position `i` on. -/
def solitaireLoop (key_last_ch : Bytes) :
    Nat → List (Bytes × Int) → List Bytes → Except Fault (List Bytes)
  | _, [], keys => .ok keys
  | i, (cur_key, _) :: dict, keys => do
    let same ← startsWithLoop cur_key key_last_ch 0
    let keys := if same then keys ++ [cur_key] else keys
    if 5 ≤ keys.length then return keys
    else do
      let i ← increment i
      solitaireLoop key_last_ch i dict keys

/-- `Dictionary::getSolitaireKeys` -/
def getSolitaireKeys (dictionary : Dictionary) (key : Bytes) (keys : List Bytes) :
    Except Fault (List Bytes) := do
  let keyLen ← length key
  let key_last_ch ← lastCharLoop key (toInt keyLen) key.length 0 0
  solitaireLoop key_last_ch 0 dictionary.dict keys

/-! ### Exceptions -/

variable {good : Bytes → Prop}

end Dictionary

/-! ### `KeyRecommander` -/

namespace KeyRecommander

/-- `KeyRecommander::getRandDict` -/
def getRandDict (recommander : KeyRecommander) (rand : Fin 5 → Nat) (keys : List Bytes) :
    Except Fault (List Bytes) := recommander.dic.getRandKeys rand keys

/-- `KeyRecommander::getSolitaireKeys` -/
def getSolitaireKeys (recommander : KeyRecommander) (key : Bytes) (keys : List Bytes) :
    Except Fault (List Bytes) := recommander.dic.getSolitaireKeys key keys

end KeyRecommander

end SearchEngine
