/-
This file determines which exceptions leave a query of the searcher.

Only two steps of a query throw. The pages are read one after the other, and
`stoi` throws on a page whose `docid` it does not accept; a page that cannot be
read ends the query, so the pages behind it are not read. At the end the JSON
writer throws on strings that are not UTF-8. The windows that are cut out of a
valid description begin and end between characters, so these are valid.
-/

import SearchEngine.Searcher.Answer

namespace SearchEngine

open Containers

variable {Weight : Type}

/-! ### Reading a page -/

theorem noThrow_elementText (name : String) (siblings : List XmlElement) :
    NoThrow (elementText name siblings) := by
  rw [elementText]
  cases siblings.dropWhile (·.name ≠ ascii name) with
  | nil => exact noThrow_error.mpr rfl
  | cons item later => exact (noThrow_orFault rfl _).bind fun _ _ => noThrow_ok _

/-- The text of the `docid` of a page. -/
def docidText (source : PageSource) (range : Int × Int) : Except Fault Bytes := do
  let buf ← pageText source.file range
  let children ← orFault .nullPointer (source.parse buf)
  let (docid, _) ← elementText "docid" children
  return docid

/-- An exception leaves the reading of a page exactly when `stoi` does not accept its `docid`. -/
theorem noThrow_readPage_iff (source : PageSource) (range : Int × Int) :
    NoThrow (readPage source range) ↔
      ∀ docid, docidText source range = .ok docid → NoThrow (stoi docid) := by
  have text : NoThrow (pageText source.file range) := by
    rw [pageText]
    split_ifs <;> first | exact noThrow_ok _ | exact noThrow_error.mpr rfl
  have elements (id : Int) (later : List XmlElement) : NoThrow (do
      let (title, later) ← elementText "title" later
      let (link, later) ← elementText "link" later
      let (description, _) ← elementText "description" later
      return (⟨id, title, link, description⟩ : Page)) :=
    (noThrow_elementText _ _).bind fun _ _ => (noThrow_elementText _ _).bind fun _ _ =>
      (noThrow_elementText _ _).bind fun _ _ => noThrow_ok _
  constructor
  · intro noThrow docid read
    obtain ⟨buf, bufRead, read⟩ := bind_eq_ok.mp read
    obtain ⟨children, parsed, read⟩ := bind_eq_ok.mp read
    obtain ⟨⟨found, later⟩, element, read⟩ := bind_eq_ok.mp read
    obtain rfl := Except.ok.inj read
    rw [readPage, bufRead, ok_bind, parsed, ok_bind, element, ok_bind] at noThrow
    exact (noThrow_bind.mp noThrow).1
  · intro accepted
    refine text.bind fun buf bufRead => (noThrow_orFault rfl _).bind fun children parsed =>
      (noThrow_elementText _ _).bind fun docid element => NoThrow.bind ?_ fun id _ =>
        elements id docid.2
    refine accepted docid.1 ?_
    rw [docidText, bufRead, ok_bind, parsed, ok_bind, element]
    rfl

/-! ### Reading the pages -/

/-- The documents that are reached when pages are read one after the other: those that can be
scored, up to the first one that cannot be scored or read. -/
def readUntil (stored : Int → Except Fault Page) (scorable : Int → Bool) : List Int → List Int
  | [] => []
  | id :: calcId =>
    if scorable id then
      id :: match stored id with
        | .ok _ => readUntil stored scorable calcId
        | .error _ => []
    else []

section Scores

variable [Arithmetic Weight] {source : PageSource}

/-- `obwArr` of a document is long enough. -/
def scorable (table : InvertIndexTable Weight) (keys : List Bytes) (id : Int) : Bool :=
  (cosine (queryWeights Weight keys.length) (weightsUnder table keys id)).isOk

theorem scorable_congr {searcher other : WebPageSearcher Weight} (reads : searcher.ReadsAs other)
    (keys : List Bytes) :
    scorable searcher.invertIndexTable keys = scorable other.invertIndexTable keys := by
  funext id
  simp only [scorable, weightsUnder, reads.table]

theorem scorable_of_error {table : InvertIndexTable Weight} {keys : List Bytes} {id : Int}
    {fault : Fault}
    (scored : cosine (queryWeights Weight keys.length) (weightsUnder table keys id) =
      .error fault) : scorable table keys id = false := by
  rw [scorable, scored]
  rfl

theorem scorable_of_ok {table : InvertIndexTable Weight} {keys : List Bytes} {id : Int}
    {cos : Weight}
    (scored : cosine (queryWeights Weight keys.length) (weightsUnder table keys id) = .ok cos) :
    scorable table keys id = true := by
  rw [scorable, scored]
  rfl

/-- `getWebPageSet` reads the stored page. -/
theorem getWebPageSet_eq (searcher : WebPageSearcher Weight) (id : Int) (cos : Weight)
    (webPageSet : List (WebPage Weight)) :
    searcher.getWebPageSet source id cos webPageSet = (do
      let page ← storedPage source searcher id
      return ({ searcher with offset := (subscript searcher.offset id).1 },
        place WebPage.less ⟨page, cos⟩ webPageSet)) := by
  simp only [WebPageSearcher.getWebPageSet, subscript_snd, storedPage]

/-- The documents whose pages a query reads. -/
def documentsRead (source : PageSource) (searcher : WebPageSearcher Weight) (query : Bytes) :
    List Int :=
  let keys := pieces query
  let accepts := if keys.length > 1 then scorable searcher.invertIndexTable keys else fun _ => true
  readUntil (storedPage source searcher) accepts (collectedIds searcher.invertIndexTable query)

end Scores

/-! ### Valid pages -/

section Windows

open Utf8

/-- The loop stops between characters, and so does the beginning it finds. -/
theorem windowLoop_boundary {letters before after : List Char} (split : letters = before ++ after)
    (idx : UInt64) (rounds idx_byte_begin : Nat) (ch_begin_flag : Bool)
    (begins : Boundary letters idx_byte_begin) :
    let window := windowLoop (encode letters) idx rounds (encode before).length idx_byte_begin
      ch_begin_flag
    Boundary letters window.1 ∧ Boundary letters window.2 := by
  induction rounds generalizing before after idx_byte_begin ch_begin_flag with
  | zero => exact ⟨begins, boundary_zero letters⟩
  | succ rounds inductionHypothesis =>
    cases after with
    | nil =>
      have ended : (encode letters)[(encode before).length]? = none := by
        rw [split, List.append_nil]
        exact List.getElem?_eq_none (le_refl _)
      rw [windowLoop, ended]
      exact ⟨begins, boundary_zero letters⟩
    | cons letter after =>
      obtain ⟨lead, trail, bytes, length⟩ := nBytesCode_utf8EncodeChar letter
      have found : (encode letters)[(encode before).length]? = some lead := by
        rw [split, encode_append, List.getElem?_append_right (le_refl _), Nat.sub_self,
          encode_cons, bytes]
        rfl
      have next : (encode before).length + WebPageSearcher.nBytesCode lead =
          (encode (before ++ [letter])).length := by
        rw [WebPageSearcher.nBytesCode, length, encode_append, List.length_append, encode_cons,
          encode_nil, List.append_nil]
      have longer : letters = (before ++ [letter]) ++ after := by
        rw [split, List.append_assoc, List.singleton_append]
      have here : Boundary letters (encode (before ++ [letter])).length :=
        ⟨before ++ [letter], ⟨after, longer.symm⟩, rfl⟩
      rw [windowLoop, found]
      dsimp only
      rw [next]
      split_ifs
      · exact ⟨here, here⟩
      · exact ⟨begins, here⟩
      · exact inductionHypothesis longer _ _ here
      · exact inductionHypothesis longer _ _ begins

/-- The window of a valid description is valid. -/
theorem valid_snippet {description : Bytes} (valid : Valid description) {idx : UInt64}
    {window : Bytes} (cut : snippet description idx = .ok window) : Valid window := by
  obtain ⟨letters, rfl⟩ := valid
  have boundaries := windowLoop_boundary (List.nil_append letters).symm idx
    (encode letters).length 0 false (boundary_zero letters)
  have inside (last : Nat) (ends : Boundary letters last) :
      (encode letters ++ [0]).take last = (encode letters).take last := by
    obtain ⟨front, ⟨rest, rfl⟩, rfl⟩ := ends
    rw [List.take_append_of_le_length]
    rw [encode_append, List.length_append]
    exact Nat.le_add_right _ _
  obtain ⟨begins, ends⟩ := boundaries
  rw [encode_nil, List.length_nil] at begins ends
  rw [snippet] at cut
  dsimp only at cut
  split_ifs at cut with atEnd
  · obtain rfl := Except.ok.inj cut
    rw [inside _ (boundary_length letters)]
    exact begins.valid (boundary_length letters)
  · obtain rfl := Except.ok.inj cut
    rw [inside _ ends]
    exact begins.valid ends

/-- A page whose texts are valid. -/
structure ValidPage (page : Page) : Prop where
  title : Valid page.title
  link : Valid page.link
  description : Valid page.description

/-- The strings of a JSON object. -/
def PageObject.texts (object : PageObject) : List Bytes :=
  object.title :: object.link :: object.description

theorem texts_toJson (object : PageObject) :
    (∀ text ∈ object.toJson.texts, Valid text) ↔ ∀ text ∈ object.texts, Valid text := by
  have description : Valid (ascii "description") := by decide
  have id : Valid (ascii "id") := by decide
  have link : Valid (ascii "link") := by decide
  have title : Valid (ascii "title") := by decide
  have texts : object.toJson.texts = ascii "description" :: object.description ++
      [ascii "id", ascii "link", object.link, ascii "title", object.title] := by
    simp [PageObject.toJson, Json.texts, Json.objectTexts, Json.arrayTexts_strings]
  rw [texts, PageObject.texts]
  simp only [List.cons_append, List.forall_mem_cons, List.forall_mem_append, description, id, link,
    title, true_and]
  tauto

theorem texts_pages (jSum : List PageObject) :
    (∀ text ∈ (Json.pushed (jSum.map PageObject.toJson)).texts, Valid text) ↔
      ∀ object ∈ jSum, ∀ text ∈ object.texts, Valid text := by
  have elements : (∀ text ∈ Json.arrayTexts (jSum.map PageObject.toJson), Valid text) ↔
      ∀ object ∈ jSum, ∀ text ∈ object.texts, Valid text := by
    induction jSum with
    | nil => simp [Json.arrayTexts]
    | cons object jSum inductionHypothesis =>
      rw [List.map_cons, Json.arrayTexts, List.forall_mem_append, inductionHypothesis,
        texts_toJson, List.forall_mem_cons]
  rw [Json.pushed]
  split_ifs with empty
  · rw [List.map_eq_nil_iff.mp empty]
    simp [Json.texts]
  · exact elements

/-- The pages are written exactly when their texts are valid. -/
theorem writePages_isOk_iff (jSum : List PageObject) :
    (∃ res, writePages jSum = .ok res) ↔ ∀ object ∈ jSum, ∀ text ∈ object.texts, Valid text :=
  (Serializer.dump_isOk_iff _).trans (texts_pages jSum)

theorem snippets_valid {page : WebPage Weight} (valid : Valid page.description)
    {searcher next : WebPageSearcher Weight} {keys : List Bytes} {text : Bytes}
    (start : Valid text) {description : List Bytes}
    (ended : searcher.snippets page keys text = .ok (next, description)) :
    ∀ text ∈ description, Valid text := by
  induction keys generalizing searcher next text description with
  | nil =>
    obtain ⟨-, rfl⟩ := Prod.mk.inj (Except.ok.inj ended)
    exact List.forall_mem_nil _
  | cons key keys inductionHypothesis =>
    rw [WebPageSearcher.snippets] at ended
    obtain ⟨window, cut, ended⟩ := bind_eq_ok.mp ended
    obtain ⟨⟨last, later⟩, rest, ended⟩ := bind_eq_ok.mp ended
    obtain ⟨-, rfl⟩ := Prod.mk.inj (Except.ok.inj ended)
    have longer := start.append (valid_snippet valid cut)
    exact List.forall_mem_cons.mpr ⟨longer, inductionHypothesis longer rest⟩

theorem outResLoop_valid {searcher next : WebPageSearcher Weight} {keys : List Bytes}
    {webPageSet : List (WebPage Weight)} (valid : ∀ page ∈ webPageSet, ValidPage page.toPage)
    {jSum : List PageObject} (ended : searcher.outResLoop keys webPageSet = .ok (next, jSum)) :
    ∀ object ∈ jSum, ∀ text ∈ object.texts, Valid text := by
  induction webPageSet generalizing searcher next jSum with
  | nil =>
    obtain ⟨-, rfl⟩ := Prod.mk.inj (Except.ok.inj ended)
    exact List.forall_mem_nil _
  | cons page webPageSet inductionHypothesis =>
    obtain ⟨first, others⟩ := List.forall_mem_cons.mp valid
    rw [WebPageSearcher.outResLoop] at ended
    obtain ⟨⟨middle, description⟩, cut, ended⟩ := bind_eq_ok.mp ended
    obtain ⟨⟨last, later⟩, rest, ended⟩ := bind_eq_ok.mp ended
    obtain ⟨-, rfl⟩ := Prod.mk.inj (Except.ok.inj ended)
    refine List.forall_mem_cons.mpr ⟨?_, inductionHypothesis others rest⟩
    exact List.forall_mem_cons.mpr ⟨first.title, List.forall_mem_cons.mpr
      ⟨first.link, snippets_valid first.description ⟨[], rfl⟩ cut⟩⟩

end Windows

end SearchEngine
