/-
This file proves which pages of the page library the server reads back as they
were stored.

A page is the text of an XML document, and the texts of its item stand in it as
they are. `getWebPageSet` reads its range into an array, parses it, and takes the
texts of four elements. An item comes back exactly when the page fits into the
array, its positions into an `int`, and every text of it has a visible character,
no `'<'` and no reference that the parser decodes.
-/

import SearchEngine.PageDump.PageProducer
import SearchEngine.Xml.Malformed

namespace SearchEngine

namespace PageProducer

open Tinyxml2

/-! ### The text of a page -/

/-- What stands in front of the tags inside the document. -/
def gap : Bytes := [newline, 9]

/-- An end tag, from behind its `'<'` on. -/
def closing (name rest : Bytes) : Bytes := slash :: (name ++ greaterThan :: rest)

/-- A text between its tags. -/
def leaf (name text rest : Bytes) : Bytes :=
  lessThan :: (name ++ greaterThan :: (text ++ lessThan :: closing name rest))

/-- What is behind the last text. -/
def afterDescription : Bytes := newline :: lessThan :: closing (ascii "doc") [newline]

/-- What is behind the link. -/
def afterLink (description : Bytes) : Bytes :=
  gap ++ leaf (ascii "description") description afterDescription

/-- What is behind the title. -/
def afterTitle (link description : Bytes) : Bytes :=
  gap ++ leaf (ascii "link") link (afterLink description)

/-- What is behind the id. -/
def afterDocid (item : RssItem) : Bytes :=
  gap ++ leaf (ascii "title") item.title (afterTitle item.link item.description)

theorem page_eq (id : Nat) (item : RssItem) :
    page id item = lessThan :: (ascii "doc" ++ greaterThan ::
      (gap ++ leaf (ascii "docid") (Text.decimal id) (afterDocid item))) := by
  have doc : ascii "<doc>\n" = lessThan :: (ascii "doc" ++ [greaterThan, newline]) := by
    simp [ascii, lessThan, greaterThan, newline]
  have docid : ascii "\t<docid>" = 9 :: lessThan :: (ascii "docid" ++ [greaterThan]) := by
    simp [ascii, lessThan, greaterThan]
  have docidEnd : ascii "</docid>\n" =
      lessThan :: slash :: (ascii "docid" ++ [greaterThan, newline]) := by
    simp [ascii, lessThan, greaterThan, slash, newline]
  have title : ascii "\t<title>" = 9 :: lessThan :: (ascii "title" ++ [greaterThan]) := by
    simp [ascii, lessThan, greaterThan]
  have titleEnd : ascii "</title>\n" =
      lessThan :: slash :: (ascii "title" ++ [greaterThan, newline]) := by
    simp [ascii, lessThan, greaterThan, slash, newline]
  have link : ascii "\t<link>" = 9 :: lessThan :: (ascii "link" ++ [greaterThan]) := by
    simp [ascii, lessThan, greaterThan]
  have linkEnd : ascii "</link>\n" =
      lessThan :: slash :: (ascii "link" ++ [greaterThan, newline]) := by
    simp [ascii, lessThan, greaterThan, slash, newline]
  have description : ascii "\t<description>" =
      9 :: lessThan :: (ascii "description" ++ [greaterThan]) := by
    simp [ascii, lessThan, greaterThan]
  have descriptionEnd : ascii "</description>\n" =
      lessThan :: slash :: (ascii "description" ++ [greaterThan, newline]) := by
    simp [ascii, lessThan, greaterThan, slash, newline]
  have docEnd : ascii "</doc>\n" =
      lessThan :: slash :: (ascii "doc" ++ [greaterThan, newline]) := by
    simp [ascii, lessThan, greaterThan, slash, newline]
  simp only [page, doc, docid, docidEnd, title, titleEnd, link, linkEnd, description,
    descriptionEnd, docEnd, afterDocid, afterTitle, afterLink, afterDescription, leaf, closing, gap,
    List.append_assoc, List.cons_append, List.nil_append]

theorem isName_doc : IsName (ascii "doc") := ⟨by decide, List.all_eq_true.mp (by decide)⟩
theorem isName_docid : IsName (ascii "docid") := ⟨by decide, List.all_eq_true.mp (by decide)⟩
theorem isName_title : IsName (ascii "title") := ⟨by decide, List.all_eq_true.mp (by decide)⟩
theorem isName_link : IsName (ascii "link") := ⟨by decide, List.all_eq_true.mp (by decide)⟩
theorem isName_description : IsName (ascii "description") :=
  ⟨by decide, List.all_eq_true.mp (by decide)⟩

theorem blank_gap : Blank gap := List.all_eq_true.mp (by decide)

variable {document : Bool} {rounds depth : Nat} {nodes : List XMLNode}

/-- A text without markup is read as an element. -/
theorem parseDeep_gap_leaf {name : Bytes} (isName : IsName name) {text : Bytes}
    (absent : lessThan ∉ text) (shallow : depth + 1 ≠ 100) (p : Bytes) :
    parseDeep document (rounds + 3) depth (gap ++ leaf name text p) nodes =
      parseDeep document (rounds + 2) depth p (nodes ++ [.element name (textNodes text)]) := by
  rw [leaf, parseDeep_append_lessThan blank_gap]
  exact parseDeep_leaf isName absent shallow p

theorem lessThan_notMem_decimal (number : Nat) : lessThan ∉ Text.decimal number :=
  fun member => absurd (Text.isDigit_of_mem_decimal member) (by decide)

/-- What `parse` makes of the document element. -/
def rootElements (rounds : Nat) : Option Parsed → Option (List XmlElement)
  | some (children, some (endTag, p)) =>
    if endTag = ascii "doc" then
      (parseDeep true rounds 1 p [.element (ascii "doc") children]).bind fun result =>
        (result.1.findSome? XMLNode.elementChildren).map fun children =>
          children.filterMap XMLNode.toElement
    else none
  | _ => none

/-- The parser is in the document, behind the id. -/
theorem parse_page (id : Nat) (item : RssItem) :
    ∃ rounds, Tinyxml2.parse (page id item) = rootElements (rounds + 6)
      (parseDeep false (rounds + 5) 2 (afterDocid item)
        [.element (ascii "docid") (textNodes (Text.decimal id))]) := by
  have long : 6 ≤ (page id item).length := by
    rw [page]
    simp only [List.append_assoc, List.length_append]
    exact Nat.le_add_right_of_le (by decide)
  obtain ⟨rounds, length⟩ := Nat.exists_eq_add_of_le' long
  refine ⟨rounds, ?_⟩
  have begins : readBOM (skipWhiteSpace (page id item)) = page id item := by
    rw [page_eq, skipWhiteSpace_cons rfl, readBOM, if_neg]
    rw [List.cons_prefix_cons]
    exact fun both => absurd both.1 (by decide)
  have nonempty : page id item ≠ [] := by
    rw [page_eq]
    exact List.cons_ne_nil _ _
  have inside : ¬ (gap ++ leaf (ascii "docid") (Text.decimal id) (afterDocid item) = [] ∨
      1 + 1 = 100) := by
    simp [gap]
  rw [Tinyxml2.parse, begins, if_neg nonempty, length]
  have opens : parseDeep true (rounds + 6 + 1) 1 (page id item) [] =
      match parseDeep false (rounds + 5) 2 (afterDocid item)
          [.element (ascii "docid") (textNodes (Text.decimal id))] with
      | some (children, some (endTag, p)) =>
        if endTag = ascii "doc" then
          parseDeep true (rounds + 6) 1 p [.element (ascii "doc") children]
        else none
      | _ => none := by
    rw [page_eq, parseDeep_open isName_doc, if_neg inside,
      parseDeep_gap_leaf isName_docid (lessThan_notMem_decimal id) (by decide)]
    rfl
  rw [opens]
  cases parseDeep false (rounds + 5) 2 (afterDocid item)
      [.element (ascii "docid") (textNodes (Text.decimal id))] with
  | none => rfl
  | some result =>
    obtain ⟨children, ending⟩ := result
    cases ending with
    | none => rfl
    | some ending =>
      obtain ⟨endTag, p⟩ := ending
      rw [rootElements]
      dsimp only
      split_ifs
      · cases parseDeep true (rounds + 6) 1 p [.element (ascii "doc") children] <;> rfl
      · rfl

/-- What is read of a document is read of its element. -/
theorem children_of_rootElements {rounds : Nat} {content : Option Parsed}
    {elements : List XmlElement} (found : rootElements rounds content = some elements) :
    ∃ children p, content = some (children, some (ascii "doc", p)) ∧
      elements = children.filterMap XMLNode.toElement := by
  match content with
  | none => cases found
  | some (children, none) => cases found
  | some (children, some (endTag, p)) =>
    rw [rootElements] at found
    split_ifs at found with same
    obtain ⟨result, reads, selected⟩ := Option.bind_eq_some_iff.mp found
    obtain ⟨others, whole⟩ := nodes_prefix_of_parseDeep reads
    rw [← whole] at selected
    cases selected
    exact ⟨children, p, by rw [same], rfl⟩

/-! ### Markup in a text -/

/-- The tags behind the description, from behind their first `'<'` on. -/
def descriptionEnd : Bytes := closing (ascii "description") afterDescription

theorem quiet_descriptionEnd : ∀ byte ∈ descriptionEnd, isQuote byte = false := fun byte member =>
  Bool.eq_false_of_not_eq_true (List.any_eq_false.mp (by decide) byte member)

theorem dash_notMem_descriptionEnd : (45 : UInt8) ∉ descriptionEnd := by decide

theorem bracket_notMem_descriptionEnd : (93 : UInt8) ∉ descriptionEnd := by decide

/-- The elements among nodes. -/
def elementsOf (nodes : List XMLNode) : List XmlElement := nodes.filterMap XMLNode.toElement

theorem elementsOf_append_textNodes (nodes : List XMLNode) (text : Bytes) :
    elementsOf (nodes ++ textNodes text) = elementsOf nodes := by
  rw [elementsOf, List.filterMap_append, textNodes]
  split_ifs
  · rw [List.filterMap_nil, List.append_nil]
    rfl
  · exact List.append_nil _

theorem parseDeep_afterDescription (document : Bool) (rounds depth : Nat) (nodes : List XMLNode) :
    parseDeep document (rounds + 1) depth afterDescription nodes =
      some (nodes, some (ascii "doc", [newline])) := by
  have blank : Blank [newline] := List.all_eq_true.mp (by decide)
  exact (parseDeep_append_lessThan blank _).trans (parseDeep_close isName_doc _)

theorem reads_afterDescription {result : Parsed}
    (reads : parseDeep document rounds depth afterDescription nodes = some result) :
    result = (nodes, some (ascii "doc", [newline])) := by
  cases rounds with
  | zero => cases reads
  | succ rounds =>
    rw [parseDeep_afterDescription] at reads
    exact (Option.some.inj reads).symm

/-- From inside the description, an element is closed behind the description or at the end of the
document, and no element is read before. -/
theorem reads_description {text : Bytes} (unclosed : Unclosed text) {children : List XMLNode}
    {endTag later : Bytes}
    (reads : parseDeep false rounds depth (text ++ lessThan :: descriptionEnd) nodes =
      some (children, some (endTag, later))) :
    (endTag = ascii "description" ∧ later = afterDescription ∨
        endTag = ascii "doc" ∧ later = [newline]) ∧
      elementsOf children = elementsOf nodes := by
  by_cases present : lessThan ∈ text
  · obtain ⟨front, behind, rfl, absent⟩ := List.eq_append_cons_of_mem present
    have unclosedBehind := unclosed front behind rfl
    have tagless : parseTag (behind ++ lessThan :: descriptionEnd) = none :=
      parseTag_eq_none unclosedBehind quiet_descriptionEnd
    rw [List.append_assoc, List.cons_append] at reads
    obtain ⟨left, reads⟩ := parseDeep_behind_text absent (by simp) reads
    -- a section is not closed, and a tag is none
    have noSection {first : UInt8} {begin c value later : Bytes} (different : first ≠ lessThan)
        (missing : first ∉ descriptionEnd) (plain : lessThan ∉ begin) (nonempty : begin ≠ [])
        (begins : behind ++ lessThan :: descriptionEnd = begin ++ c)
        (ends : Text.cut [first, first, greaterThan] c = some (value, later)) : False := by
      obtain ⟨x, -, rfl, inside⟩ := begins_inside plain nonempty unclosedBehind begins
      rw [cut_section_eq_none different inside missing] at ends
      cases ends
    cases markup_of_parseDeep reads with
    | comment c value _ _ begins ends goesOn =>
      exact (noSection (by decide) dash_notMem_descriptionEnd (by decide) (by decide) begins
        ends).elim
    | cData c value _ _ begins ends goesOn =>
      exact (noSection (by decide) bracket_notMem_descriptionEnd (by decide)
        (by decide) begins ends).elim
    | unknown c value behindTag _ begins ends goesOn =>
      have plain : lessThan ∉ [exclamationMark] := by decide
      obtain ⟨x, -, rfl, absentInside⟩ :=
        begins_inside plain (List.cons_ne_nil _ _) unclosedBehind begins
      -- the end tag of the description is taken for the rest of the tag
      have inside : greaterThan ∉ x ++ lessThan :: slash :: ascii "description" := by
        rw [List.mem_append, not_or]
        exact ⟨absentInside, by decide⟩
      have found : Text.cut [greaterThan] (x ++ lessThan :: descriptionEnd) =
          some (x ++ lessThan :: slash :: ascii "description", afterDescription) := by
        rw [← Text.cut_singleton inside, List.append_assoc]
        rfl
      rw [found] at ends
      cases ends
      cases reads_afterDescription goesOn
      refine ⟨Or.inr ⟨rfl, rfl⟩, ?_⟩
      rw [← elementsOf_append_textNodes nodes front]
      exact (List.filterMap_append ..).trans (List.append_nil _)
    | closes name _ tag => rw [tagless] at tag; cases tag
    | closed name _ _ tag goesOn => rw [tagless] at tag; cases tag
    | element name _ _ _ _ tag content goesOn => rw [tagless] at tag; cases tag
  · -- the text ends at the end tag
    obtain ⟨left, reads⟩ := parseDeep_behind_text present (List.cons_ne_nil _ _) reads
    have closes := (parseDeep_close isName_description afterDescription).symm.trans reads
    cases closes
    exact ⟨Or.inl ⟨rfl, rfl⟩, elementsOf_append_textNodes _ _⟩

theorem parseDeep_newline (document : Bool) (rounds depth : Nat) (nodes : List XMLNode) :
    parseDeep document (rounds + 1) depth [newline] nodes = some (nodes, none) := by
  have nothing : identify [newline] = none := by decide
  rw [parseDeep, nothing]

theorem reads_newline {result : Parsed}
    (reads : parseDeep document rounds depth [newline] nodes = some result) :
    result = (nodes, none) := by
  cases rounds with
  | zero => cases reads
  | succ rounds =>
    rw [parseDeep_newline] at reads
    exact (Option.some.inj reads).symm

/-- Behind an element whose content ends inside the description or behind it, only the end tag of
the document is left. -/
theorem reads_behind_element {text : Bytes} (unclosed : Unclosed text)
    {content children nodes : List XMLNode} {name behind endTag later : Bytes}
    (reads : parseDeep false rounds (depth + 1) (text ++ lessThan :: descriptionEnd) [] =
      some (content, some (name, behind)))
    (goesOn : parseDeep false rounds depth behind nodes =
      some (children, some (endTag, later))) : endTag = ascii "doc" := by
  rcases (reads_description unclosed reads).1 with ⟨-, rfl⟩ | ⟨-, rfl⟩
  · cases reads_afterDescription goesOn
    rfl
  · cases reads_newline goesOn

/-- What stands between the link and the description, from behind its first `'<'` on. -/
def linkEnd : Bytes :=
  closing (ascii "link") (gap ++ lessThan :: (ascii "description" ++ [greaterThan]))

theorem quiet_linkEnd : ∀ byte ∈ linkEnd, isQuote byte = false := fun byte member =>
  Bool.eq_false_of_not_eq_true (List.any_eq_false.mp (by decide) byte member)

theorem dash_notMem_linkEnd : (45 : UInt8) ∉ linkEnd := by decide

theorem bracket_notMem_linkEnd : (93 : UInt8) ∉ linkEnd := by decide

theorem closing_link (description : Bytes) :
    closing (ascii "link") (afterLink description) =
      linkEnd ++ (description ++ lessThan :: descriptionEnd) := by
  simp [closing, linkEnd, afterLink, leaf, descriptionEnd]

/-- What stands between the title and the link, from behind its first `'<'` on. -/
def titleEnd : Bytes :=
  closing (ascii "title") (gap ++ lessThan :: (ascii "link" ++ [greaterThan]))

theorem dash_notMem_titleEnd : (45 : UInt8) ∉ titleEnd := by decide

theorem closing_title (link description : Bytes) :
    closing (ascii "title") (afterTitle link description) =
      titleEnd ++
        (link ++ lessThan :: (linkEnd ++ (description ++ lessThan :: descriptionEnd))) := by
  rw [← closing_link]
  simp [closing, titleEnd, afterTitle, leaf]

/-- From inside the link, no element but one that is called link, description or doc is closed,
other than by a tag that ends in the description. -/
theorem reads_link {text description : Bytes} (unclosed : Unclosed text)
    (unclosedDescription : Unclosed description) {children : List XMLNode} {endTag later : Bytes}
    (reads : parseDeep false rounds depth
        (text ++ lessThan :: (linkEnd ++ (description ++ lessThan :: descriptionEnd))) nodes =
      some (children, some (endTag, later))) :
    endTag = ascii "link" ∨ endTag = ascii "description" ∨ endTag = ascii "doc" ∨
      ∃ c, c <:+ description ∧ later = c ++ lessThan :: descriptionEnd := by
  -- from a place inside the description on
  have inside {rounds depth : Nat} {nodes : List XMLNode} {text : Bytes}
      (place : ∃ c, c <:+ description ∧ text = c ++ lessThan :: descriptionEnd)
      (reads : parseDeep false rounds depth text nodes = some (children, some (endTag, later))) :
      endTag = ascii "description" ∨ endTag = ascii "doc" := by
    obtain ⟨c, suffix, rfl⟩ := place
    exact (reads_description (unclosedDescription.of_suffix suffix) reads).1.imp And.left And.left
  by_cases present : lessThan ∈ text
  · obtain ⟨front, behind, rfl, absent⟩ := List.eq_append_cons_of_mem present
    have unclosedBehind := unclosed front behind rfl
    rw [List.append_assoc, List.cons_append] at reads
    obtain ⟨left, reads⟩ := parseDeep_behind_text absent (by simp) reads
    -- a section is closed in the description
    have laterSection {first : UInt8} {begin c value later : Bytes} (different : first ≠ lessThan)
        (missing : first ∉ linkEnd) (missingBehind : first ∉ descriptionEnd)
        (plain : lessThan ∉ begin) (nonempty : begin ≠ [])
        (begins : behind ++ lessThan :: (linkEnd ++ (description ++ lessThan :: descriptionEnd)) =
          begin ++ c)
        (ends : Text.cut [first, first, greaterThan] c = some (value, later)) :
        ∃ c, c <:+ description ∧ later = c ++ lessThan :: descriptionEnd := by
      obtain ⟨x, -, rfl, within⟩ := begins_inside plain nonempty unclosedBehind begins
      rw [← List.cons_append, ← List.append_assoc] at ends
      exact later_of_cut_section different within missing missingBehind ends
    have laterTag {name later : Bytes} {kind : ClosingType}
        (tag : parseTag (behind ++ lessThan :: (linkEnd ++
          (description ++ lessThan :: descriptionEnd))) = some (name, kind, later)) :
        ∃ c, c <:+ description ∧ later = c ++ lessThan :: descriptionEnd :=
      later_of_parseTag unclosedBehind quiet_linkEnd quiet_descriptionEnd tag
    cases markup_of_parseDeep reads with
    | comment c value _ _ begins ends goesOn =>
      have place := laterSection (by decide) dash_notMem_linkEnd dash_notMem_descriptionEnd
        (by decide) (by decide) begins ends
      exact Or.inr ((inside place goesOn).imp_right Or.inl)
    | cData c value _ _ begins ends goesOn =>
      have place := laterSection (by decide) bracket_notMem_linkEnd
        bracket_notMem_descriptionEnd (by decide) (by decide) begins ends
      exact Or.inr ((inside place goesOn).imp_right Or.inl)
    | unknown c value behindTag _ begins ends goesOn =>
      have plain : lessThan ∉ [exclamationMark] := by decide
      obtain ⟨x, -, rfl, absentInside⟩ :=
        begins_inside plain (List.cons_ne_nil _ _) unclosedBehind begins
      -- the end tag of the link is taken for the rest of the tag
      have within : greaterThan ∉ x ++ lessThan :: slash :: ascii "link" := by
        rw [List.mem_append, not_or]
        exact ⟨absentInside, by decide⟩
      have found : Text.cut [greaterThan] (x ++ lessThan :: (linkEnd ++
            (description ++ lessThan :: descriptionEnd))) =
          some (x ++ lessThan :: slash :: ascii "link", afterLink description) := by
        rw [← Text.cut_singleton within, ← closing_link, List.append_assoc]
        rfl
      rw [found] at ends
      cases ends
      cases left with
      | zero => cases goesOn
      | succ left =>
        rw [afterLink, leaf, parseDeep_append_lessThan blank_gap,
          parseDeep_open isName_description] at goesOn
        split_ifs at goesOn
        split at goesOn
        · next content name behindElement reads =>
          split_ifs at goesOn
          exact Or.inr (Or.inr (Or.inl (reads_behind_element unclosedDescription reads goesOn)))
        · cases goesOn
    | closes name _ tag => exact Or.inr (Or.inr (Or.inr (laterTag tag)))
    | closed name _ _ tag goesOn =>
      exact Or.inr ((inside (laterTag tag) goesOn).imp_right Or.inl)
    | element name behindTag behindElement content _ tag reads goesOn =>
      obtain ⟨c, suffix, rfl⟩ := laterTag tag
      have unclosedRest := unclosedDescription.of_suffix suffix
      exact Or.inr (Or.inr (Or.inl (reads_behind_element unclosedRest reads goesOn)))
  · -- the text ends at the end tag
    obtain ⟨left, reads⟩ := parseDeep_behind_text present (by simp [linkEnd, closing]) reads
    rw [← closing_link] at reads
    have closes := (parseDeep_close isName_link (afterLink description)).symm.trans reads
    cases closes
    exact Or.inl rfl

/-! ### A text with markup -/

theorem getText_of_begins {node : XMLNode} {children : List XMLNode}
    (begins : [node] <+: children) :
    getText children = match node with
      | .text value => some value
      | .comment => getText children
      | _ => none := by
  obtain ⟨others, rfl⟩ := begins
  cases node <;> rfl

/-- What `GetText` returns of an element whose text has a `'<'` in it is not the text, other than,
it may be, behind a comment. -/
theorem getText_ne {text : Bytes} (unclosed : Unclosed text) (printable : ∀ byte ∈ text, 32 ≤ byte)
    (present : lessThan ∈ text) {name rest : Bytes} (isName : IsName name)
    {children : List XMLNode} {endTag later : Bytes}
    (reads : parseDeep false rounds depth (text ++ lessThan :: closing name rest) [] =
      some (children, some (endTag, later))) (same : getText children = some text) :
    ∃ x value behind left commented, greaterThan ∉ x ∧
      Text.cut (ascii "-->") (x ++ lessThan :: closing name rest) = some (value, behind) ∧
      parseDeep false left depth behind commented = some (children, some (endTag, later)) := by
  obtain ⟨front, markup, rfl, absent⟩ := List.eq_append_cons_of_mem present
  have unclosedMarkup := unclosed front markup rfl
  rw [List.append_assoc, List.cons_append] at reads
  obtain ⟨left, reads⟩ := parseDeep_behind_text absent (by simp [closing]) reads
  rw [List.nil_append] at reads
  by_cases blank : Blank front
  · have nothing : textNodes front = [] := if_pos blank
    rw [nothing] at reads
    cases markup_of_parseDeep reads with
    | comment c value behind _ begins ends goesOn =>
      obtain ⟨x, -, rfl, inside⟩ := begins_inside (by decide) (by decide) unclosedMarkup begins
      exact ⟨x, value, behind, left, _, inside, ends, goesOn⟩
    | cData c value behind _ begins ends goesOn =>
      have plain : lessThan ∉ ascii "![CDATA[" := by decide
      obtain ⟨x, rfl, rfl, inside⟩ := begins_inside plain (by decide) unclosedMarkup begins
      -- the section has the `'>'` of the end tag in it
      have split : x ++ lessThan :: closing name rest =
          x ++ lessThan :: slash :: (name ++ [greaterThan]) ++ rest := by
        simp [closing]
      have absentBracket : (93 : UInt8) ∉ slash :: (name ++ [greaterThan]) := by
        simp [isName.bracket_notMem, slash, greaterThan]
      have endTagBytes : ascii "]]>" = [93, 93, greaterThan] := rfl
      rw [split, endTagBytes, cut_section (by decide) inside absentBracket] at ends
      obtain ⟨⟨before, later⟩, -, found⟩ := Option.map_eq_some_iff.mp ends
      cases found
      rw [getText_of_begins (nodes_prefix_of_parseDeep goesOn)] at same
      have printableSection : ∀ byte ∈ x ++ lessThan :: slash :: (name ++ [greaterThan]),
          32 ≤ byte := by
        intro byte member
        simp only [List.mem_append, List.mem_cons, List.not_mem_nil, or_false] at member
        rcases member with inText | rfl | rfl | inName | rfl
        · exact printable byte (by simp [inText])
        · decide
        · decide
        · exact isName.printable byte inName
        · decide
      have kept := prefix_getStr printableSection before
      rw [Option.some.inj same] at kept
      have listed : greaterThan ∈ front ++ lessThan :: (ascii "![CDATA[" ++ x) :=
        kept.subset (by simp)
      simp only [List.mem_append, List.mem_cons] at listed
      rcases listed with inFront | isLessThan | inBegin | inText
      · exact absurd (blank greaterThan inFront) (by decide)
      · exact absurd isLessThan (by decide)
      · exact absurd inBegin (by decide)
      · exact absurd inText inside
    | unknown c value behind _ begins ends goesOn =>
      rw [getText_of_begins (nodes_prefix_of_parseDeep goesOn)] at same
      cases same
    | closes name _ tag => cases same
    | closed name _ _ tag goesOn =>
      rw [getText_of_begins (nodes_prefix_of_parseDeep goesOn)] at same
      cases same
    | element name _ _ _ _ tag content goesOn =>
      rw [getText_of_begins (nodes_prefix_of_parseDeep goesOn)] at same
      cases same
  · -- the text node ends at the `'<'`
    have node : textNodes front = [.text (getStr true front)] := if_neg blank
    rw [node] at reads
    rw [getText_of_begins (nodes_prefix_of_parseDeep reads)] at same
    have shorter := length_getStr true front
    rw [Option.some.inj same, List.length_append, List.length_cons] at shorter
    omega

/-! ### The elements of a page -/

/-- A text that comes back. -/
structure Survives (text : Bytes) : Prop where
  visible : ¬ Blank text
  noMarkup : lessThan ∉ text
  noReference : ¬ Decodes text

theorem survives_iff {text : Bytes} :
    Survives text ↔ ¬ Blank text ∧ lessThan ∉ text ∧ ¬ Decodes text :=
  ⟨fun survives => ⟨survives.visible, survives.noMarkup, survives.noReference⟩,
    fun ⟨visible, noMarkup, noReference⟩ => ⟨visible, noMarkup, noReference⟩⟩

instance (text : Bytes) : Decidable (Survives text) := decidable_of_iff' _ survives_iff

theorem getText_textNodes {text : Bytes} (printable : ∀ byte ∈ text, 32 ≤ byte) :
    getText (textNodes text) = some text ↔ ¬ Blank text ∧ ¬ Decodes text := by
  rw [textNodes, ← getStr_eq_iff printable]
  split_ifs with blank
  · exact iff_of_false (by simp [getText]) fun both => both.1 blank
  · rw [and_iff_right blank]
    exact Option.some_inj

/-- An element with a text is read when its content is, and stands behind the elements before. -/
theorem reads_leaf {name text rest : Bytes} (isName : IsName name) {children : List XMLNode}
    {ending : Bytes × Bytes}
    (reads : parseDeep false rounds depth (gap ++ leaf name text rest) nodes =
      some (children, some ending)) :
    ∃ left content later others,
      parseDeep false left (depth + 1) (text ++ lessThan :: closing name rest) [] =
        some (content, some (name, later)) ∧
      parseDeep false left depth later (nodes ++ [.element name content]) =
        some (children, some ending) ∧
      elementsOf children = elementsOf nodes ++ ⟨name, getText content⟩ :: others := by
  cases rounds with
  | zero => cases reads
  | succ rounds =>
    rw [leaf, parseDeep_append_lessThan blank_gap, parseDeep_open isName] at reads
    split_ifs at reads
    split at reads
    · next content endTag later found =>
      split_ifs at reads with same
      subst same
      obtain ⟨others, whole⟩ := nodes_prefix_of_parseDeep reads
      change _ = children at whole
      refine ⟨rounds, content, later, elementsOf others, found, reads, ?_⟩
      rw [← whole, elementsOf, List.filterMap_append, List.filterMap_append, List.append_assoc]
      rfl
    · cases reads

/-- The content of an element with a text without markup. -/
theorem content_of_plain {name text rest : Bytes} (isName : IsName name) (absent : lessThan ∉ text)
    {result : Parsed}
    (reads : parseDeep false rounds depth (text ++ lessThan :: closing name rest) nodes =
      some result) : result = (nodes ++ textNodes text, some (name, rest)) := by
  obtain ⟨left, reads⟩ := parseDeep_behind_text absent (List.cons_ne_nil _ _) reads
  have closes := (parseDeep_close isName rest).symm.trans reads
  exact (Option.some.inj closes).symm

/-- A description with markup does not come back. -/
theorem description_plain {text : Bytes} (stripped : Stripped text) {content : List XMLNode}
    {later : Bytes}
    (reads : parseDeep false rounds depth (text ++ lessThan :: descriptionEnd) [] =
      some (content, some (ascii "description", later)))
    (same : getText content = some text) : lessThan ∉ text := by
  intro present
  obtain ⟨x, value, behind, -, -, inside, ends, -⟩ := getText_ne stripped.unclosed
    stripped.printable present isName_description reads same
  have none : Text.cut (ascii "-->") (x ++ lessThan :: descriptionEnd) = none :=
    cut_section_eq_none (by decide) inside dash_notMem_descriptionEnd
  cases none.symm.trans ends

/-- A link with markup does not come back. -/
theorem link_plain {text description : Bytes} (stripped : Stripped text)
    (unclosedDescription : Unclosed description) {content : List XMLNode} {later : Bytes}
    (reads : parseDeep false rounds depth
        (text ++ lessThan :: closing (ascii "link") (afterLink description)) [] =
      some (content, some (ascii "link", later)))
    (same : getText content = some text) : lessThan ∉ text := by
  intro present
  obtain ⟨x, value, behind, left, commented, inside, ends, goesOn⟩ := getText_ne
    stripped.unclosed stripped.printable present isName_link reads same
  rw [closing_link, ← List.cons_append, ← List.append_assoc] at ends
  obtain ⟨c, suffix, rfl⟩ := later_of_cut_section (by decide) inside dash_notMem_linkEnd
    dash_notMem_descriptionEnd ends
  -- behind the comment, the element is not closed under its name
  rcases (reads_description (unclosedDescription.of_suffix suffix) goesOn).1 with
    ⟨name, -⟩ | ⟨name, -⟩
  · exact absurd name (by decide)
  · exact absurd name (by decide)

/-- A title with markup does not come back, other than where no element is read behind it. -/
theorem title_plain {text link description : Bytes} (stripped : Stripped text)
    (unclosedLink : Unclosed link) (unclosedDescription : Unclosed description)
    {content children : List XMLNode} {later : Bytes} {ending : Bytes × Bytes} {left inner : Nat}
    (reads : parseDeep false inner (depth + 1)
        (text ++ lessThan :: closing (ascii "title") (afterTitle link description)) [] =
      some (content, some (ascii "title", later)))
    (goesOn : parseDeep false left depth later nodes = some (children, some ending))
    (more : elementsOf children ≠ elementsOf nodes)
    (same : getText content = some text) : lessThan ∉ text := by
  intro present
  obtain ⟨x, value, behind, rest, commented, inside, ends, commentedOn⟩ := getText_ne
    stripped.unclosed stripped.printable present isName_title reads same
  rw [closing_title, ← List.cons_append, ← List.append_assoc] at ends
  rcases later_of_cut_section_two (by decide) inside dash_notMem_titleEnd dash_notMem_linkEnd
    dash_notMem_descriptionEnd ends with ⟨c, suffix, rfl⟩ | ⟨c, suffix, rfl⟩
  · -- the comment ends in the link
    rcases reads_link (unclosedLink.of_suffix suffix) unclosedDescription commentedOn with
      name | name | name | ⟨d, inDescription, rfl⟩
    · exact absurd name (by decide)
    · exact absurd name (by decide)
    · exact absurd name (by decide)
    · obtain ⟨endTag, p⟩ := ending
      exact more (reads_description (unclosedDescription.of_suffix inDescription) goesOn).2
  · -- it ends in the description
    rcases (reads_description (unclosedDescription.of_suffix suffix) commentedOn).1 with
      ⟨name, -⟩ | ⟨name, -⟩
    · exact absurd name (by decide)
    · exact absurd name (by decide)

end PageProducer

end SearchEngine
