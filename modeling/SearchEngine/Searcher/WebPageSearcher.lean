/-
This file models `WebPageSearcher::doQuery`: the splitter, the collection of
document ids, the scores, the pages and the response.

The searcher looks postings and offsets up through the subscript of its maps, so
a query inserts an empty entry under every key it does not know, and the state
is passed through every step. A page is read into an array of 65536 bytes and
parsed by the XML library, which is a parameter. The response is the list of
objects `outRes` puts in its JSON array.
-/

import SearchEngine.Json.Serializer
import SearchEngine.Library.Arithmetic
import SearchEngine.Library.Containers

namespace SearchEngine

open Containers

/-! ### Data -/

/-- `pair<int, pair<double, int>>`: a document, the weight of the keyword in it, and the position
of the keyword. -/
@[ext]
structure Posting (Weight : Type) where
  id : Int
  weight : Weight
  position : Int
  deriving DecidableEq

/-- `_invertIndexTable`, with every set of postings in iteration order. -/
abbrev InvertIndexTable (Weight : Type) := AList fun _ : Bytes => List (Posting Weight)

/-- The members of `WebPage` that are read from the page file. -/
structure Page where
  id : Int
  title : Bytes
  link : Bytes
  description : Bytes

/-- `WebPage` -/
structure WebPage (Weight : Type) extends Page where
  cos : Weight

/-- `WebPageSearcher` -/
structure WebPageSearcher (Weight : Type) where
  offset : AList fun _ : Int => Int × Int
  invertIndexTable : InvertIndexTable Weight

/-- An element below the root of an XML document, with what `GetText` returns. -/
structure XmlElement where
  name : Bytes
  text : Option Bytes

/-- What the searcher uses and does not change: the XML parser, which returns the children of the
root element, and the content of the page file. -/
structure PageSource where
  parse : Bytes → Option (List XmlElement)
  file : Bytes

variable {Weight : Type}

/-! ### Collecting document ids -/

/-- The loop that splits the query, with the bytes since the last space. -/
def splitKeys : Bytes → Bytes → List Bytes
  | [], tmp => [tmp]
  | byte :: key, tmp =>
    if byte ≠ space then splitKeys key (tmp ++ [byte]) else tmp :: splitKeys key []

/-- `_invertIndexTable[key]` -/
def WebPageSearcher.postings (searcher : WebPageSearcher Weight) (key : Bytes) :
    WebPageSearcher Weight × List (Posting Weight) :=
  let (invertIndexTable, found) := subscript searcher.invertIndexTable key
  ({ searcher with invertIndexTable }, found)

/-- `WebPageSearcher::singleQuery` -/
def WebPageSearcher.singleQuery (searcher : WebPageSearcher Weight) (key : Bytes) :
    WebPageSearcher Weight × List Int :=
  let (searcher, found) := searcher.postings key
  (searcher, found.map Posting.id)

/-- The loop of `WebPageSearcher::multiQuery` over the keys after the first. -/
def WebPageSearcher.multiQueryLoop (firstKeyId : List Int) :
    WebPageSearcher Weight → List Bytes → List Int → WebPageSearcher Weight × List Int
  | searcher, [], retId => (searcher, retId)
  | searcher, key :: keys, retId =>
    let (searcher, found) := searcher.postings key
    multiQueryLoop firstKeyId searcher keys
      (retId ++ (found.map Posting.id).filter (· ∈ firstKeyId))

/-- `WebPageSearcher::multiQuery` -/
def WebPageSearcher.multiQuery (searcher : WebPageSearcher Weight) :
    List Bytes → Except Fault (WebPageSearcher Weight × List Int)
  | [] => .error .outOfBounds
  | first :: keys =>
    let (searcher, found) := searcher.postings first
    .ok (multiQueryLoop (found.map Posting.id) searcher keys [])

/-- `WebPageSearcher::doQuery` up to the ids it collects; it returns the keys and the ids. -/
def WebPageSearcher.collect (searcher : WebPageSearcher Weight) (key : Bytes) :
    Except Fault (WebPageSearcher Weight × List Bytes × List Int) :=
  let keys := splitKeys key []
  if keys.length = 0 ∨ keys.length = 1 then
    let (searcher, calcId) := searcher.singleQuery key
    .ok (searcher, keys, calcId)
  else do
    let (searcher, calcId) ← searcher.multiQuery keys
    return (searcher, keys, calcId)

/-! ### Pages -/

/-- What `xml.Parse` is given: the bytes of the page file in a range, up to the first NUL of the
array they are read into. The length of the range is computed as an `int`. -/
def pageText (file : Bytes) (range : Int × Int) : Except Fault Bytes :=
  let readNum := range.2 - range.1
  let content := if range.1 < 0 then [] else (file.drop range.1.toNat).take readNum.toNat
  if readNum < -2 ^ 31 ∨ 2 ^ 31 ≤ readNum then .error .integerOverflow
  else if content.length < 65536 ∨ content.length = 65536 ∧ 0 ∈ content then
    .ok (content.takeWhile (· ≠ 0))
  else .error .outOfBounds

/-- `FirstChildElement(name)` or `NextSiblingElement(name)`, and `GetText` of it; the elements
behind it are returned for the next call. -/
def elementText (name : String) (siblings : List XmlElement) :
    Except Fault (Bytes × List XmlElement) :=
  match siblings.dropWhile (·.name ≠ ascii name) with
  | [] => .error .nullPointer
  | item :: later => do
    let text ← orFault .nullPointer item.text
    return (text, later)

/-- The page `WebPageSearcher::getWebPageSet` reads. -/
def readPage (source : PageSource) (range : Int × Int) : Except Fault Page := do
  let buf ← pageText source.file range
  let children ← orFault .nullPointer (source.parse buf)
  let (docid, later) ← elementText "docid" children
  let id ← stoi docid
  let (title, later) ← elementText "title" later
  let (link, later) ← elementText "link" later
  let (description, _) ← elementText "description" later
  return ⟨id, title, link, description⟩

section Scores

variable [Arithmetic Weight]

/-- `WebPage::operator<` -/
def WebPage.less (page rhs : WebPage Weight) : Bool := Arithmetic.less rhs.cos page.cos

/-- `WebPageSearcher::getWebPageSet` -/
def WebPageSearcher.getWebPageSet (source : PageSource) (searcher : WebPageSearcher Weight)
    (id : Int) (cos : Weight) (webPageSet : List (WebPage Weight)) :
    Except Fault (WebPageSearcher Weight × List (WebPage Weight)) := do
  let (offset, range) := subscript searcher.offset id
  let page ← readPage source range
  return ({ searcher with offset }, place WebPage.less ⟨page, cos⟩ webPageSet)

/-! ### Scores -/

/-- `wArr` -/
def queryWeights (Weight : Type) [Arithmetic Weight] (count : Nat) : List Weight :=
  let w : Weight := Arithmetic.log2
    (Arithmetic.ofInt 1 / Arithmetic.ofInt 1 + Arithmetic.ofInt 1)
  List.replicate count (w / Arithmetic.sqrt (w * w * Arithmetic.ofInt count))

/-- The loop that fills `obwArr`. -/
def WebPageSearcher.documentWeights (id : Int) :
    WebPageSearcher Weight → List Bytes → WebPageSearcher Weight × List Weight
  | searcher, [] => (searcher, [])
  | searcher, key :: keys =>
    let (searcher, found) := searcher.postings key
    let (searcher, obwArr) := documentWeights id searcher keys
    (searcher, (found.filter (·.id = id)).map Posting.weight ++ obwArr)

/-- The loop over `wArr` and `obwArr`, with `XY`, `modX` and `modY`. -/
def productLoop : List Weight → List Weight → Weight → Weight → Weight →
    Except Fault (Weight × Weight × Weight)
  | [], _, XY, modX, modY => .ok (XY, modX, modY)
  | _ :: _, [], _, _, _ => .error .outOfBounds
  | w :: wArr, obw :: obwArr, XY, modX, modY =>
    productLoop wArr obwArr (XY + w * obw) (modX + w * w) (modY + obw * obw)

/-- The score of a document with the weights `obwArr`. -/
def cosine (wArr obwArr : List Weight) : Except Fault Weight := do
  let (XY, modX, modY) ← productLoop wArr obwArr (Arithmetic.ofInt 0) (Arithmetic.ofInt 0)
    (Arithmetic.ofInt 0)
  return XY / (Arithmetic.sqrt modX * Arithmetic.sqrt modY)

/-- The loop of `WebPageSearcher::simCalc` over `calcId`. -/
def WebPageSearcher.simCalcLoop (source : PageSource) (keys : List Bytes) :
    WebPageSearcher Weight → List Int → List (WebPage Weight) →
      Except Fault (WebPageSearcher Weight × List (WebPage Weight))
  | searcher, [], webPageSet => .ok (searcher, webPageSet)
  | searcher, id :: calcId, webPageSet => do
    let (searcher, obwArr) := searcher.documentWeights id keys
    let cos ← cosine (queryWeights Weight keys.length) obwArr
    let (searcher, webPageSet) ← searcher.getWebPageSet source id cos webPageSet
    simCalcLoop source keys searcher calcId webPageSet

/-- The loop of `WebPageSearcher::simCalc` over the postings of a single key. -/
def WebPageSearcher.singleLoop (source : PageSource) :
    WebPageSearcher Weight → List (Posting Weight) → List (WebPage Weight) →
      Except Fault (WebPageSearcher Weight × List (WebPage Weight))
  | searcher, [], webPageSet => .ok (searcher, webPageSet)
  | searcher, posting :: pageSet, webPageSet => do
    let (searcher, webPageSet) ←
      searcher.getWebPageSet source posting.id posting.weight webPageSet
    singleLoop source searcher pageSet webPageSet

/-- `WebPageSearcher::simCalc` -/
def WebPageSearcher.simCalc (source : PageSource) (searcher : WebPageSearcher Weight)
    (keys : List Bytes) (calcId : List Int) :
    Except Fault (WebPageSearcher Weight × List (WebPage Weight)) :=
  if keys.length > 1 then searcher.simCalcLoop source keys calcId []
  else
    match keys with
    | [] => .error .outOfBounds
    | key :: _ =>
      let (searcher, pageSet) := searcher.postings key
      searcher.singleLoop source pageSet []

end Scores

/-! ### The response -/

/-- `WebPageSearcher::nBytesCode` -/
def WebPageSearcher.nBytesCode (ch : UInt8) : Nat := Utf8.nBytesCode ch

/-- The loop of `WebPageSearcher::outRes` over the characters of a description, with
`idx_byte_begin` and its flag; it returns `idx_byte_begin` and `idx_byte_end`. The loop runs at
most once for each byte. The subtraction wraps around as that of `size_t` does. -/
def windowLoop (description : Bytes) (idx : UInt64) : Nat → Nat → Nat → Bool → Nat × Nat
  | 0, _, idx_byte_begin, _ => (idx_byte_begin, 0)
  | rounds + 1, k, idx_byte_begin, ch_begin_flag =>
    match description[k]? with
    | none => (idx_byte_begin, 0)
    | some byte =>
      let k := k + WebPageSearcher.nBytesCode byte
      let begins := !ch_begin_flag && (idx - 30).toNat < k
      let idx_byte_begin := if begins then k else idx_byte_begin
      if (idx + 30).toNat < k then (idx_byte_begin, k)
      else windowLoop description idx rounds k idx_byte_begin (ch_begin_flag || begins)

/-- The bytes of a description around a position that `WebPageSearcher::outRes` writes. The byte
behind the last one reads as NUL. -/
def snippet (description : Bytes) (idx : UInt64) : Except Fault Bytes :=
  let (idx_byte_begin, idx_byte_end) := windowLoop description idx description.length 0 0 false
  let idx_byte_end := if idx_byte_end = 0 then description.length else idx_byte_end
  if idx_byte_end ≤ idx_byte_begin ∨ idx_byte_end ≤ description.length + 1 then
    .ok (((description ++ [0]).take idx_byte_end).drop idx_byte_begin)
  else .error .outOfBounds

/-- The loop of `WebPageSearcher::outRes` over the keys of one page; `text` is what `oss1` holds.
It returns the strings of `j["description"]`. -/
def WebPageSearcher.snippets (page : WebPage Weight) :
    WebPageSearcher Weight → List Bytes → Bytes →
      Except Fault (WebPageSearcher Weight × List Bytes)
  | searcher, [], _ => .ok (searcher, [])
  | searcher, key :: keys, text => do
    let (searcher, found) := searcher.postings key
    let idx : UInt64 :=
      match found.find? (·.id = page.id) with
      | some posting => UInt64.ofInt posting.position
      | none => 0
    let window ← snippet page.description idx
    let text := text ++ window
    let (searcher, description) ← snippets page searcher keys text
    return (searcher, text :: description)

/-- The JSON object of one page. -/
structure PageObject where
  id : Int
  title : Bytes
  link : Bytes
  description : List Bytes
  deriving DecidableEq

/-- The value of `WebPageSearcher::outRes` for a page. -/
def PageObject.toJson (object : PageObject) : Json :=
  .object [(ascii "description", .array (object.description.map .string)),
    (ascii "id", .number object.id), (ascii "link", .string object.link),
    (ascii "title", .string object.title)]

/-- `oss << jSum;` -/
def writePages (jSum : List PageObject) : Except Fault Bytes :=
  Serializer.dump (.pushed (jSum.map PageObject.toJson))

/-- The loop of `WebPageSearcher::outRes` over the pages; it returns the elements of `jSum`. -/
def WebPageSearcher.outResLoop (keys : List Bytes) :
    WebPageSearcher Weight → List (WebPage Weight) →
      Except Fault (WebPageSearcher Weight × List PageObject)
  | searcher, [] => .ok (searcher, [])
  | searcher, page :: webPageSet => do
    let (searcher, description) ← searcher.snippets page keys []
    let (searcher, jSum) ← outResLoop keys searcher webPageSet
    return (searcher, ⟨page.id, page.title, page.link, description⟩ :: jSum)

/-- `WebPageSearcher::outRes`; `dump` is the JSON writer. -/
def WebPageSearcher.outRes (dump : List PageObject → Except Fault Bytes)
    (searcher : WebPageSearcher Weight) (keys : List Bytes) (webPageSet : List (WebPage Weight)) :
    Except Fault (WebPageSearcher Weight × List PageObject × Bytes) := do
  let (searcher, jSum) ← searcher.outResLoop keys webPageSet
  let res ← dump jSum
  return (searcher, jSum, res)

/-- What `WebPageSearcher::doQuery` computes on its way to the response. -/
structure Answer where
  calcId : List Int
  jSum : List PageObject
  res : Bytes

/-- `WebPageSearcher::doQuery` -/
def WebPageSearcher.doQuery [Arithmetic Weight] (source : PageSource)
    (dump : List PageObject → Except Fault Bytes) (searcher : WebPageSearcher Weight)
    (key : Bytes) : Except Fault (WebPageSearcher Weight × Answer) := do
  let (searcher, keys, calcId) ← searcher.collect key
  let (searcher, webPageSet) ← searcher.simCalc source keys calcId
  let (searcher, jSum, res) ← searcher.outRes dump keys webPageSet
  return (searcher, ⟨calcId, jSum, res⟩)

end SearchEngine
