/-
This file proves what the preprocessor reads of the page file that the producer
has written.

The page file is parsed as one XML document with an element for each page next to
each other, and the loop of `invertProcess` goes through these. When no text has
a `'<'` or a NUL in it, every page is read as one document element, in order,
with its id and with what the parser makes of its description. This is the
description itself where it survives.
-/

import SearchEngine.PageDump.Counting
import SearchEngine.PageDump.RoundTrip
import SearchEngine.Xml.Navigation

namespace SearchEngine

open Tinyxml2

/-! ### Document elements -/

/-- What the loop of `PagePreProcessor::invertProcess` reads of an element. -/
def docElement (doc : XMLElement) : DocElement :=
  match doc.firstChildElement (some (ascii "docid")) with
  | none => ⟨none, none⟩
  | some docid =>
    ⟨some docid.getText,
      (docid.nextSiblingElement (some (ascii "description"))).map XMLElement.getText⟩

/-- The elements `PagePreProcessor::invertProcess` goes through: the root and its siblings. -/
def docElements (nodes : List XMLNode) : List DocElement :=
  (siblingsFrom (rootElement nodes)).map docElement

/-- The elements of the page file, where it can be parsed. -/
def pageDocuments (file : Bytes) : Option (List DocElement) := (loadFile file).map docElements

namespace PageProducer

/-! ### One page -/

/-- A text that the parser reads as one node at most. -/
structure Unmarked (text : Bytes) : Prop where
  noMarkup : lessThan ∉ text
  noNul : (0 : UInt8) ∉ text

instance : DecidablePred Unmarked := fun text =>
  decidable_of_iff (lessThan ∉ text ∧ (0 : UInt8) ∉ text)
    ⟨fun both => ⟨both.1, both.2⟩, fun unmarked => ⟨unmarked.noMarkup, unmarked.noNul⟩⟩

/-- The children of the element of a page. -/
def pageNodes (id : Nat) (item : RssItem) : List XMLNode :=
  [.element (ascii "docid") (textNodes (Text.decimal id)),
    .element (ascii "title") (textNodes item.title),
    .element (ascii "link") (textNodes item.link),
    .element (ascii "description") (textNodes item.description)]

theorem page_append (id : Nat) (item : RssItem) (rest : Bytes) :
    page id item ++ rest = lessThan :: (ascii "doc" ++ greaterThan ::
      (gap ++ leaf (ascii "docid") (Text.decimal id)
        (gap ++ leaf (ascii "title") item.title
          (gap ++ leaf (ascii "link") item.link
            (gap ++ leaf (ascii "description") item.description
              (newline :: lessThan :: closing (ascii "doc") (newline :: rest))))))) := by
  rw [page_eq]
  simp only [afterDocid, afterTitle, afterLink, afterDescription, leaf, closing, List.append_assoc,
    List.cons_append, List.nil_append]

variable {item : RssItem} (unmarked : ∀ text ∈ item.fields, Unmarked text)
include unmarked

/-- The document goes on behind a page with one element more. -/
theorem parseDeep_page (rounds id : Nat) (rest : Bytes) (nodes : List XMLNode) :
    parseDeep true (rounds + 7) 1 (page id item ++ rest) nodes =
      parseDeep true (rounds + 6) 1 (newline :: rest)
        (nodes ++ [.element (ascii "doc") (pageNodes id item)]) := by
  obtain ⟨title, link, description⟩ := item.forall_fields.mp fun text member =>
    (unmarked text member).noMarkup
  have blank : Blank [newline] := List.all_eq_true.mp (by decide)
  rw [page_append, parseDeep_open isName_doc, if_neg (by simp [gap]),
    parseDeep_gap_leaf isName_docid (lessThan_notMem_decimal id) (by decide),
    parseDeep_gap_leaf isName_title title (by decide),
    parseDeep_gap_leaf isName_link link (by decide),
    parseDeep_gap_leaf isName_description description (by decide)]
  have ends (inner : List XMLNode) :
      parseDeep false (rounds + 2) 2 (newline :: lessThan :: closing (ascii "doc") (newline :: rest))
        inner = some (inner, some (ascii "doc", newline :: rest)) :=
    (parseDeep_append_lessThan blank _).trans (parseDeep_close isName_doc _)
  rw [ends]
  dsimp only
  rw [if_pos rfl]
  rfl

theorem zero_notMem_page_of_unmarked (id : Nat) : (0 : UInt8) ∉ page id item := by
  obtain ⟨title, link, description⟩ := item.forall_fields.mp fun text member =>
    (unmarked text member).noNul
  have digits : (0 : UInt8) ∉ Text.decimal id :=
    fun zero => absurd (Text.isDigit_of_mem_decimal zero) (by decide)
  rw [page_eq]
  simp [leaf, closing, gap, afterDocid, afterTitle, afterLink, afterDescription, ascii, lessThan,
    greaterThan, slash, newline, title, link, description, digits]

omit unmarked in
/-- What is read of the element of a page. -/
theorem docElement_pageNodes (id : Nat) (siblings : List XMLNode) :
    docElement ⟨pageNodes id item, siblings⟩ =
      ⟨some (some (Text.decimal id)), some (getText (textNodes item.description))⟩ := by
  have title : ascii "description" ≠ ascii "title" := by decide
  have link : ascii "description" ≠ ascii "link" := by decide
  rw [docElement, XMLElement.firstChildElement, pageNodes, seekElement_self]
  dsimp only
  rw [XMLElement.nextSiblingElement, seekElement_other title, seekElement_other link,
    seekElement_self, XMLElement.getText, getText_decimal]
  rfl

end PageProducer

/-! ### The file -/

namespace PageProducer

/-- The elements of the pages, from an index on. -/
def storedNodes : Nat → List RssItem → List XMLNode
  | _, [] => []
  | i, item :: rss => .element (ascii "doc") (pageNodes (i + 1) item) :: storedNodes (i + 1) rss

/-- What is read of the pages, from an index on. -/
def storedElements : Nat → List RssItem → List DocElement
  | _, [] => []
  | i, item :: rss =>
    ⟨some (some (Text.decimal (i + 1))), some (getText (textNodes item.description))⟩ ::
      storedElements (i + 1) rss

theorem elements_storedNodes (i : Nat) (rss : List RssItem) :
    (elements (storedNodes i rss)).map docElement = storedElements i rss := by
  induction rss generalizing i with
  | nil => rfl
  | cons item rss inductionHypothesis =>
    rw [storedNodes, elements, List.map_cons, docElement_pageNodes, inductionHypothesis]
    rfl

theorem length_le_written (i : Nat) (rss : List RssItem) :
    rss.length * 7 ≤ (written i rss).length := by
  induction rss generalizing i with
  | nil => exact Nat.zero_le _
  | cons item rss inductionHypothesis =>
    have page := length_page (i + 1) item
    have rest := inductionHypothesis (i + 1)
    rw [List.length_cons, written, List.length_append]
    omega

/-- The pages are read from an index on, behind the end of a line. -/
theorem parseDeep_written {rss : List RssItem}
    (unmarked : ∀ item ∈ rss, ∀ text ∈ item.fields, Unmarked text) {rounds : Nat}
    (enough : rss.length + 7 ≤ rounds) (i : Nat) (nodes : List XMLNode) :
    parseDeep true rounds 1 (newline :: written i rss) nodes =
      some (nodes ++ storedNodes i rss, none) := by
  induction rss generalizing rounds i nodes with
  | nil =>
    obtain ⟨rounds, rfl⟩ := Nat.exists_eq_add_of_le' enough
    rw [written, storedNodes, List.append_nil]
    exact parseDeep_newline true _ 1 nodes
  | cons item rss inductionHypothesis =>
    obtain ⟨here, later⟩ := List.forall_mem_cons.mp unmarked
    rw [List.length_cons] at enough
    obtain ⟨left, rfl⟩ := Nat.exists_eq_add_of_le' (le_trans (Nat.le_add_left 7 _) enough)
    have blank : Blank [newline] := List.all_eq_true.mp (by decide)
    have begins : parseDeep true (left + 7) 1 (newline :: (page (i + 1) item ++ written (i + 1) rss))
        nodes = parseDeep true (left + 7) 1 (page (i + 1) item ++ written (i + 1) rss) nodes := by
      rw [page_append]
      exact parseDeep_append_lessThan blank _
    rw [written, begins, parseDeep_page here, inductionHypothesis later (by omega), storedNodes,
      List.append_assoc, List.singleton_append]

theorem zero_notMem_written {rss : List RssItem}
    (unmarked : ∀ item ∈ rss, ∀ text ∈ item.fields, Unmarked text) (i : Nat) :
    (0 : UInt8) ∉ written i rss := by
  induction rss generalizing i with
  | nil => exact List.not_mem_nil
  | cons item rss inductionHypothesis =>
    obtain ⟨here, later⟩ := List.forall_mem_cons.mp unmarked
    rw [written, List.mem_append, not_or]
    exact ⟨zero_notMem_page_of_unmarked here (i + 1), inductionHypothesis later (i + 1)⟩

/-- The file of a library that is not empty is read as its document elements. -/
theorem pageDocuments_written {item : RssItem} {rss : List RssItem}
    (unmarked : ∀ other ∈ item :: rss, ∀ text ∈ other.fields, Unmarked text) :
    pageDocuments (written 0 (item :: rss)) = some (storedElements 0 (item :: rss)) := by
  obtain ⟨here, later⟩ := List.forall_mem_cons.mp unmarked
  have visible : (written 0 (item :: rss)).takeWhile (· ≠ 0) = written 0 (item :: rss) := by
    refine List.takeWhile_eq_self_iff.mpr fun byte member => ?_
    rw [decide_eq_true_eq]
    rintro rfl
    exact zero_notMem_written unmarked 0 member
  have begins : readBOM (skipWhiteSpace (written 0 (item :: rss))) =
      page 1 item ++ written 1 rss := by
    rw [written, page_append, skipWhiteSpace_cons rfl, readBOM, if_neg]
    rw [List.cons_prefix_cons]
    exact fun both => absurd both.1 (by decide)
  have size : (page 1 item ++ written 1 rss).length = (page 1 item).length + (written 1 rss).length :=
    List.length_append
  have page := length_page 1 item
  have rest := length_le_written 1 rss
  obtain ⟨left, rounds⟩ : ∃ left, (PageProducer.page 1 item ++ written 1 rss).length + 1 =
      left + 7 := Nat.exists_eq_add_of_le' (by omega)
  have nonempty : PageProducer.page 1 item ++ written 1 rss ≠ [] :=
    List.ne_nil_of_length_pos (by omega)
  have parsed := parseDeep_page here left 1 (written 1 rss) []
  rw [parseDeep_written later (by omega) 1, List.nil_append, List.singleton_append] at parsed
  have loaded : loadFile (written 0 (item :: rss)) = some (storedNodes 0 (item :: rss)) := by
    rw [loadFile, visible, begins, if_neg nonempty, rounds, parsed]
    rfl
  rw [pageDocuments, loaded, Option.map_some, docElements, rootElement, siblingsFrom_seekElement,
    elements_storedNodes]

/-- Where the descriptions survive, they are what is read. -/
theorem storedElements_eq_mapIdx {rss : List RssItem}
    (survives : ∀ item ∈ rss, getText (textNodes item.description) = some item.description)
    (i : Nat) :
    storedElements i rss = rss.mapIdx fun k item =>
      ⟨some (some (Text.decimal (i + k + 1))), some (some item.description)⟩ := by
  induction rss generalizing i with
  | nil => rfl
  | cons item rss inductionHypothesis =>
    obtain ⟨here, later⟩ := List.forall_mem_cons.mp survives
    have behind (k : Nat) : i + 1 + k + 1 = i + (k + 1) + 1 := by omega
    rw [storedElements, here, inductionHypothesis later, List.mapIdx_cons]
    simp only [behind, Nat.add_zero]

/-- Where no text has a `'<'` or a NUL in it and the descriptions survive the parser, every page of a
stored library is read as a document element, in order, with its id and its description. An empty
library cannot be parsed. -/
theorem pageDocuments_store {rss : List RssItem}
    (unmarked : ∀ item ∈ rss, ∀ text ∈ item.fields, Unmarked text)
    (printable : ∀ item ∈ rss, ∀ byte ∈ item.description, 32 ≤ byte)
    (survives : ∀ item ∈ rss, Survives item.description) :
    pageDocuments (store rss).1 = if rss = [] then none else some (rss.mapIdx fun i item =>
      ⟨some (some (Text.decimal (i + 1))), some (some item.description)⟩) := by
  have file : (store rss).1 = written 0 rss := storeLoop_fst 0 [] rss
  have read : ∀ item ∈ rss, getText (textNodes item.description) = some item.description :=
    fun item member => (getText_textNodes (printable item member)).mpr
      ⟨(survives item member).visible, (survives item member).noReference⟩
  rw [file]
  cases rss with
  | nil => rfl
  | cons item rss =>
    rw [pageDocuments_written unmarked, storedElements_eq_mapIdx read, if_neg (List.cons_ne_nil _ _)]
    simp only [Nat.zero_add]

/-- Two pages, the second of which has no title and no link. -/
theorem pageDocuments_store_sample :
    pageDocuments (store [⟨ascii "a", ascii "l", ascii "d"⟩, ⟨[], [], ascii "e & f"⟩]).1 =
      some [⟨some (some (ascii "1")), some (some (ascii "d"))⟩,
        ⟨some (some (ascii "2")), some (some (ascii "e & f"))⟩] :=
  pageDocuments_store (by decide) (by decide +kernel) (by decide +kernel)

/-! ### The documents of a library -/

/-- The documents of a library whose texts survive, from an index on. -/
def libraryDocuments : Nat → List RssItem → List Document
  | _, [] => []
  | i, item :: rss => ⟨(i + 1 : Nat), some item.description⟩ :: libraryDocuments (i + 1) rss

theorem mem_libraryDocuments {rss : List RssItem} {i : Nat} {document : Document} :
    document ∈ libraryDocuments i rss ↔
      ∃ k item, rss[k]? = some item ∧ document = ⟨(i + k + 1 : Nat), some item.description⟩ := by
  induction rss generalizing i with
  | nil => simp [libraryDocuments]
  | cons item rss inductionHypothesis =>
    rw [libraryDocuments, List.mem_cons, inductionHypothesis]
    constructor
    · rintro (rfl | ⟨k, other, stored, rfl⟩)
      · exact ⟨0, item, rfl, rfl⟩
      · refine ⟨k + 1, other, stored, ?_⟩
        rw [Nat.add_right_comm i 1 k, Nat.add_assoc i k 1]
    · rintro ⟨k, other, stored, rfl⟩
      cases k with
      | zero =>
        obtain rfl := Option.some.inj stored
        exact Or.inl rfl
      | succ k =>
        refine Or.inr ⟨k, other, stored, ?_⟩
        rw [Nat.add_right_comm i 1 k, Nat.add_assoc i k 1]

theorem nodup_libraryDocuments (i : Nat) (rss : List RssItem) :
    ((libraryDocuments i rss).map Document.id).Nodup := by
  have ids : (libraryDocuments i rss).map Document.id =
      (List.range' (i + 1) rss.length).map Nat.cast := by
    induction rss generalizing i with
    | nil => rfl
    | cons item rss inductionHypothesis =>
      rw [libraryDocuments, List.map_cons, inductionHypothesis, List.length_cons, List.range'_succ]
      rfl
  have distinct : (List.range' (i + 1) rss.length).Nodup := List.nodup_range'
  rw [ids]
  exact distinct.map Nat.cast_injective

/-- The elements of a library are read as its documents. -/
theorem reads_storedElements {rss : List RssItem}
    (survives : ∀ item ∈ rss, getText (textNodes item.description) = some item.description)
    {i : Nat} (small : i + rss.length < 2 ^ 31) :
    List.Forall₂ DocElement.Reads (storedElements i rss) (libraryDocuments i rss) := by
  induction rss generalizing i with
  | nil => exact .nil
  | cons item rss inductionHypothesis =>
    obtain ⟨here, later⟩ := List.forall_mem_cons.mp survives
    rw [List.length_cons] at small
    refine .cons ⟨Text.decimal (i + 1), rfl, ?_, ?_⟩ (inductionHypothesis later (by omega))
    · rw [WebPageSearcher.stoi_decimal, if_pos (by omega)]
    · rw [here]

end PageProducer

end SearchEngine
