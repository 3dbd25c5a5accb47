/-
This file proves the round trip of the page library: which items `getWebPageSet`
reads back from what `store` has written.

A page comes back exactly when it fits into the array, its positions into an
`int`, and every text of its item survives the parser. The first part is about
the elements that are read of one page, the second one about the lengths of their
texts, and the last one about the whole library.
-/

import SearchEngine.PageDump.PageLibrary
import SearchEngine.Xml.Lengths

namespace SearchEngine

open Containers Tinyxml2 PageProducer

/-! ### The elements of a page -/

/-- The page that `getWebPageSet` takes from the elements of a document. -/
def pageOfElements (children : List XmlElement) : Except Fault Page := do
  let (docid, later) ← elementText "docid" children
  let id ← stoi docid
  let (title, later) ← elementText "title" later
  let (link, later) ← elementText "link" later
  let (description, _) ← elementText "description" later
  return ⟨id, title, link, description⟩

theorem readPage_eq_ok {parse : Bytes → Option (List XmlElement)} {file : Bytes}
    {range : Int × Int} {page : Page} :
    readPage ⟨parse, file⟩ range = .ok page ↔ ∃ buf children, pageText file range = .ok buf ∧
      parse buf = some children ∧ pageOfElements children = .ok page := by
  have steps : readPage ⟨parse, file⟩ range = pageText file range >>= fun buf =>
      orFault .nullPointer (parse buf) >>= pageOfElements := rfl
  rw [steps]
  constructor
  · intro found
    obtain ⟨buf, read, found⟩ := bind_eq_ok.mp found
    obtain ⟨children, parsed, taken⟩ := bind_eq_ok.mp found
    exact ⟨buf, children, read, orFault_eq_ok.mp parsed, taken⟩
  · rintro ⟨buf, children, read, parsed, taken⟩
    rw [read, ok_bind, parsed, orFault_some, ok_bind, taken]

theorem elementText_cons (name : String) (text : Bytes) (later : List XmlElement) :
    elementText name (⟨ascii name, some text⟩ :: later) = .ok (text, later) := by
  rw [elementText, List.dropWhile_cons_of_neg (by simp)]
  rfl

/-- The element that is found is the first one. -/
theorem elementText_cons_eq_ok {name : String} {text : Option Bytes} {later : List XmlElement}
    {result : Bytes × List XmlElement}
    (found : elementText name (⟨ascii name, text⟩ :: later) = .ok result) :
    text = some result.1 ∧ result.2 = later := by
  rw [elementText, List.dropWhile_cons_of_neg (by simp)] at found
  cases text with
  | none => cases found
  | some text =>
    cases found
    exact ⟨rfl, rfl⟩

/-- How a page is taken from elements. -/
theorem pageOfElements_eq_ok {children : List XmlElement} {page : Page} :
    pageOfElements children = .ok page ↔
      ∃ docid behindDocid behindTitle behindLink behindDescription,
      elementText "docid" children = .ok (docid, behindDocid) ∧ stoi docid = .ok page.id ∧
      elementText "title" behindDocid = .ok (page.title, behindTitle) ∧
      elementText "link" behindTitle = .ok (page.link, behindLink) ∧
      elementText "description" behindLink = .ok (page.description, behindDescription) := by
  constructor
  · intro taken
    obtain ⟨⟨docid, behindDocid⟩, docidFound, taken⟩ := bind_eq_ok.mp taken
    obtain ⟨id, scanned, taken⟩ := bind_eq_ok.mp taken
    obtain ⟨⟨title, behindTitle⟩, titleFound, taken⟩ := bind_eq_ok.mp taken
    obtain ⟨⟨link, behindLink⟩, linkFound, taken⟩ := bind_eq_ok.mp taken
    obtain ⟨⟨description, behindDescription⟩, descriptionFound, taken⟩ := bind_eq_ok.mp taken
    cases taken
    exact ⟨docid, behindDocid, behindTitle, behindLink, behindDescription, docidFound, scanned,
      titleFound, linkFound, descriptionFound⟩
  · rintro ⟨docid, behindDocid, behindTitle, behindLink, behindDescription, docidFound, scanned,
      titleFound, linkFound, descriptionFound⟩
    simp only [pageOfElements, docidFound, scanned, titleFound, linkFound, descriptionFound,
      ok_bind, pure_eq_ok]

/-- The page an item is read back as. -/
def itemPage (id : Nat) (item : RssItem) : Page := ⟨id, item.title, item.link, item.description⟩

theorem decodes_notMem {text : Bytes} (absent : ampersand ∉ text) : ¬ Decodes text := by
  rintro ⟨before, after, rfl, -⟩
  exact absent (List.mem_append_right _ List.mem_cons_self)

/-- The id is read back. -/
theorem getText_decimal (id : Nat) :
    getText (textNodes (Text.decimal id)) = some (Text.decimal id) := by
  have digits (byte : UInt8) (member : byte ∈ Text.decimal id) := Text.isDigit_of_mem_decimal member
  refine (getText_textNodes fun byte member => ?_).mpr ⟨fun blank => ?_, decodes_notMem ?_⟩
  · have lower := digits byte member
    rw [Text.isDigit, Bool.and_eq_true, decide_eq_true_eq] at lower
    exact UInt8.le_trans (by decide) lower.1
  · obtain ⟨first, rest, shape⟩ := List.exists_cons_of_ne_nil (Text.decimal_ne_nil id)
    have member : first ∈ Text.decimal id := shape ▸ List.mem_cons_self
    have visible := (Text.isDigit_ne_sign (digits first member)).1
    rw [blank first member] at visible
    cases visible
  · exact fun member => absurd (digits _ member) (by decide)

/-- A page whose texts survive is taken from its elements. -/
theorem pageOfElements_parse {item : RssItem}
    (printable : ∀ text ∈ item.fields, ∀ byte ∈ text, 32 ≤ byte)
    (survives : ∀ text ∈ item.fields, Survives text) {id : Nat} (small : id < 2 ^ 31) :
    ∃ children, Tinyxml2.parse (page id item) = some children ∧
      pageOfElements children = .ok (itemPage id item) := by
  have fields : ∀ text ∈ item.fields, lessThan ∉ text ∧ getText (textNodes text) = some text :=
    fun text member => ⟨(survives text member).noMarkup,
      (getText_textNodes (printable text member)).mpr
        ⟨(survives text member).visible, (survives text member).noReference⟩⟩
  obtain ⟨⟨titlePlain, title⟩, ⟨linkPlain, link⟩, descriptionPlain, description⟩ :=
    item.forall_fields.mp fields
  obtain ⟨rounds, parsed⟩ := parse_page id item
  rw [afterDocid, parseDeep_gap_leaf isName_title titlePlain (by decide), afterTitle,
    parseDeep_gap_leaf isName_link linkPlain (by decide), afterLink,
    parseDeep_gap_leaf isName_description descriptionPlain (by decide),
    parseDeep_afterDescription, rootElements, if_pos rfl, parseDeep_newline] at parsed
  have elements : elementsOf ([XMLNode.element (ascii "docid") (textNodes (Text.decimal id))] ++
        [XMLNode.element (ascii "title") (textNodes item.title)] ++
        [XMLNode.element (ascii "link") (textNodes item.link)] ++
        [XMLNode.element (ascii "description") (textNodes item.description)]) =
      [⟨ascii "docid", some (Text.decimal id)⟩, ⟨ascii "title", some item.title⟩,
        ⟨ascii "link", some item.link⟩, ⟨ascii "description", some item.description⟩] := by
    simp only [elementsOf, List.cons_append, List.nil_append, List.filterMap_cons,
      List.filterMap_nil, XMLNode.toElement, getText_decimal, title, link, description]
  refine ⟨_, parsed.trans (congrArg some elements), pageOfElements_eq_ok.mpr ⟨Text.decimal id, ?_⟩⟩
  have scanned : stoi (Text.decimal id) = .ok id :=
    (WebPageSearcher.stoi_decimal id).trans (if_pos small)
  refine ⟨_, _, _, _, elementText_cons _ _ _, scanned, elementText_cons _ _ _,
    elementText_cons _ _ _, elementText_cons _ _ _⟩

variable {rounds depth : Nat} {nodes : List XMLNode}

/-- A text without markup that is read back survives, and the parser goes on behind it. -/
theorem survives_of_plain {name text rest : Bytes} (isName : IsName name) (stripped : Stripped text)
    (plain : lessThan ∉ text) {content : List XMLNode} {endTag later : Bytes}
    (reads : parseDeep false rounds depth (text ++ lessThan :: closing name rest) [] =
      some (content, some (endTag, later)))
    (same : getText content = some text) : Survives text ∧ later = rest := by
  cases content_of_plain isName plain reads
  rw [List.nil_append] at same
  obtain ⟨visible, noReference⟩ := (getText_textNodes stripped.printable).mp same
  exact ⟨⟨visible, plain, noReference⟩, rfl⟩

/-- Every text of a page that is read back survives. -/
theorem survives_of_pageOfElements {item : RssItem} (stripped : ∀ text ∈ item.fields, Stripped text)
    {id : Nat} {children : List XmlElement} (parsed : Tinyxml2.parse (page id item) = some children)
    (taken : pageOfElements children = .ok (itemPage id item)) :
    ∀ text ∈ item.fields, Survives text := by
  obtain ⟨title, link, description⟩ := item.forall_fields.mp stripped
  obtain ⟨rounds, same⟩ := parse_page id item
  rw [parsed] at same
  obtain ⟨inside, p, reads, rfl⟩ := children_of_rootElements same.symm
  obtain ⟨docid, behindDocid, behindTitle, behindLink, behindDescription, docidFound, -, titleFound,
    linkFound, descriptionFound⟩ := pageOfElements_eq_ok.mp taken
  change elementText "docid" (elementsOf inside) = _ at docidFound
  -- the title
  obtain ⟨leftTitle, titleNodes, laterTitle, others, titleReads, goesOn, elements⟩ :=
    reads_leaf isName_title reads
  rw [elements] at docidFound
  obtain ⟨-, rfl⟩ := elementText_cons_eq_ok docidFound
  obtain ⟨titleSame, rfl⟩ := elementText_cons_eq_ok titleFound
  have more : elementsOf inside ≠ elementsOf ([XMLNode.element (ascii "docid")
      (textNodes (Text.decimal id))] ++ [XMLNode.element (ascii "title") titleNodes]) := by
    rw [elements]
    intro none
    obtain rfl : behindTitle = [] := by simpa [elementsOf, XMLNode.toElement] using none
    cases linkFound
  obtain ⟨titleSurvives, rfl⟩ := survives_of_plain isName_title title
    (title_plain title link.unclosed description.unclosed titleReads goesOn more titleSame)
    titleReads titleSame
  -- the link
  obtain ⟨leftLink, linkNodes, laterLink, behind, linkReads, goesOn, linkElements⟩ :=
    reads_leaf isName_link goesOn
  rw [elements] at linkElements
  obtain rfl : behindTitle = ⟨ascii "link", getText linkNodes⟩ :: behind := by
    simpa [elementsOf, XMLNode.toElement] using linkElements
  obtain ⟨linkSame, rfl⟩ := elementText_cons_eq_ok linkFound
  obtain ⟨linkSurvives, rfl⟩ := survives_of_plain isName_link link
    (link_plain link description.unclosed linkReads linkSame) linkReads linkSame
  -- the description
  obtain ⟨leftDescription, descriptionNodes, laterDescription, rest, descriptionReads, -,
    descriptionElements⟩ := reads_leaf isName_description goesOn
  rw [elements] at descriptionElements
  obtain rfl : behindLink = ⟨ascii "description", getText descriptionNodes⟩ :: rest := by
    simpa [elementsOf, XMLNode.toElement] using descriptionElements
  obtain ⟨descriptionSame, -⟩ := elementText_cons_eq_ok descriptionFound
  obtain ⟨descriptionSurvives, -⟩ := survives_of_plain isName_description description
    (description_plain description descriptionReads descriptionSame) descriptionReads
    descriptionSame
  exact item.forall_fields.mpr ⟨titleSurvives, linkSurvives, descriptionSurvives⟩

/-! ### The lengths of a page -/

theorem length_page (id : Nat) (item : RssItem) :
    (page id item).length = 91 + (Text.decimal id).length + item.title.length +
      item.link.length + item.description.length := by
  rw [page_eq]
  simp [leaf, closing, gap, afterDocid, afterTitle, afterLink, afterDescription, ascii]
  omega

theorem length_decimal {id : Nat} (small : id < 2 ^ 31) : (Text.decimal id).length ≤ 10 := by
  rw [Text.decimal, List.length_map]
  exact (Nat.length_toDigits_le_iff (by decide) (by decide)).mpr (small.trans (by norm_num))

/-- A page has no NUL in it. -/
theorem zero_notMem_page {item : RssItem}
    (printable : ∀ text ∈ item.fields, ∀ byte ∈ text, 32 ≤ byte) (id : Nat) :
    (0 : UInt8) ∉ page id item := by
  have absent : ∀ text ∈ item.fields, (0 : UInt8) ∉ text :=
    fun text member zero => absurd (printable text member 0 zero) (by decide)
  obtain ⟨title, link, description⟩ := item.forall_fields.mp absent
  have digits : (0 : UInt8) ∉ Text.decimal id :=
    fun zero => absurd (Text.isDigit_of_mem_decimal zero) (by decide)
  rw [page_eq]
  simp [leaf, closing, gap, afterDocid, afterTitle, afterLink, afterDescription, ascii, lessThan,
    greaterThan, slash, newline, title, link, description, digits]

/-- A text that is taken is one of an element. -/
theorem elementText_mem {name : String} {siblings later : List XmlElement} {text : Bytes}
    (found : elementText name siblings = .ok (text, later)) :
    (∃ element ∈ siblings, element.text = some text) ∧ later ⊆ siblings := by
  have suffix := List.dropWhile_suffix (l := siblings) fun item => decide (item.name ≠ ascii name)
  rw [elementText] at found
  split at found
  · cases found
  · next element behind shape =>
    rw [shape] at suffix
    obtain ⟨value, present, taken⟩ := bind_eq_ok.mp found
    cases taken
    exact ⟨⟨element, suffix.subset List.mem_cons_self, orFault_eq_ok.mp present⟩,
      fun other listed => suffix.subset (List.mem_cons_of_mem _ listed)⟩

/-- No text of a page that is read is longer than the buffer. -/
theorem length_of_readPage {buf : Bytes} {children : List XmlElement}
    (parsed : Tinyxml2.parse buf = some children) {page : Page}
    (taken : pageOfElements children = .ok page) :
    page.title.length ≤ buf.length ∧ page.link.length ≤ buf.length ∧
      page.description.length ≤ buf.length := by
  obtain ⟨docid, behindDocid, behindTitle, behindLink, behindDescription, docidFound, -, titleFound,
    linkFound, descriptionFound⟩ := pageOfElements_eq_ok.mp taken
  obtain ⟨-, fromDocid⟩ := elementText_mem docidFound
  obtain ⟨⟨title, titleListed, titleText⟩, fromTitle⟩ := elementText_mem titleFound
  obtain ⟨⟨link, linkListed, linkText⟩, fromLink⟩ := elementText_mem linkFound
  obtain ⟨⟨description, descriptionListed, descriptionText⟩, -⟩ := elementText_mem descriptionFound
  refine ⟨length_of_parse parsed (fromDocid titleListed) titleText,
    length_of_parse parsed (fromDocid (fromTitle linkListed)) linkText,
    length_of_parse parsed (fromDocid (fromTitle (fromLink descriptionListed))) descriptionText⟩

/-! ### The library -/

/-- A stored item comes back: the offset file is read, and whatever queries came before, the page
with its id is read and has its texts. -/
def Recovered (Weight : Type) [Arithmetic Weight] (rss : List RssItem) (i : Nat) (item : RssItem) :
    Prop :=
  ∃ offset, WebPageSearcher.initOffset (store rss).2 = .ok offset ∧
    ∀ (searcher : WebPageSearcher Weight) (cos : Weight) (webPageSet : List (WebPage Weight)),
      value searcher.offset = value offset →
        ∃ after, value after.offset = value offset ∧
          searcher.getWebPageSet ⟨Tinyxml2.parse, (store rss).1⟩ (i + 1 : Nat) cos webPageSet =
            .ok (after, place WebPage.less ⟨itemPage (i + 1) item, cos⟩ webPageSet)

variable {Weight : Type} [Arithmetic Weight] {rss : List RssItem} {i : Nat} {item : RssItem}

/-- What `getWebPageSet` does depends on the range it reads. -/
theorem recovered_iff_readPage (listed : rss[i]? = some item) :
    Recovered Weight rss i item ↔
      (∀ j < rss.length, position rss j < 2 ^ 31) ∧
        readPage ⟨Tinyxml2.parse, (store rss).1⟩
            (position rss i, toInt (nearestDouble (position rss (i + 1)))) =
          .ok (itemPage (i + 1) item) := by
  obtain ⟨inside, -⟩ := List.getElem?_eq_some_iff.mp listed
  have range := WebPageSearcher.value_offsets inside
  constructor
  · rintro ⟨offset, read, recovers⟩
    obtain ⟨fits, rfl⟩ := (WebPageSearcher.initOffset_store rss offset).mp read
    refine ⟨fits, ?_⟩
    obtain ⟨after, -, result⟩ := recovers ⟨WebPageSearcher.insertOffsets (offsets rss) ∅, ∅⟩
      (Arithmetic.ofInt 0) [] rfl
    simp only [WebPageSearcher.getWebPageSet, subscript_snd, range] at result
    obtain ⟨page, found, placed⟩ := bind_eq_ok.mp result
    rw [found]
    have same := (Prod.mk.inj (Except.ok.inj placed)).2
    rw [place, place] at same
    have samePage := congrArg WebPage.toPage (List.cons.inj same).1
    exact congrArg Except.ok samePage
  · rintro ⟨fits, found⟩
    refine ⟨_, (WebPageSearcher.initOffset_store rss _).mpr ⟨fits, rfl⟩, ?_⟩
    intro searcher cos webPageSet reads
    refine ⟨{ searcher with offset := (subscript searcher.offset (i + 1 : Nat)).1 }, ?_, ?_⟩
    · rw [← reads]
      exact value_subscript _ _
    · have read : readPage ⟨Tinyxml2.parse, (store rss).1⟩
            (subscript searcher.offset (i + 1 : Nat)).2 =
          .ok (itemPage (i + 1) item) := by
        rw [subscript_snd, reads, range, found]
      simp only [WebPageSearcher.getWebPageSet, read, ok_bind, pure_eq_ok]

/-- A page whose range fits is read whole. -/
theorem pageText_page (printable : ∀ text ∈ item.fields, ∀ byte ∈ text, 32 ≤ byte)
    (listed : rss[i]? = some item) (fits : position rss (i + 1) < 2 ^ 31) :
    pageText (store rss).1 (position rss i, toInt (nearestDouble (position rss (i + 1)))) =
      if (page (i + 1) item).length < 65536 then .ok (page (i + 1) item)
      else .error .outOfBounds := by
  obtain ⟨rest, behind⟩ := drop_position listed
  have ends := position_succ listed
  have absent := zero_notMem_page printable (i + 1)
  have exact : toInt (nearestDouble (position rss (i + 1))) = position rss (i + 1) := by
    rw [WebPageSearcher.nearestDouble_of_lt (fits.trans (by norm_num)), toInt_of_lt fits]
  have readNum : (position rss (i + 1) : Int) - position rss i = (page (i + 1) item).length := by
    omega
  have inRange : ¬ (((page (i + 1) item).length : Int) < -2 ^ 31 ∨
      2 ^ 31 ≤ ((page (i + 1) item).length : Int)) := by
    omega
  have notNegative : ¬ (position rss i : Int) < 0 := by omega
  have visible : ∀ byte ∈ page (i + 1) item, decide (byte ≠ 0) = true := by
    intro byte member
    rw [decide_eq_true_eq]
    rintro rfl
    exact absent member
  have kept : (page (i + 1) item).takeWhile (· ≠ 0) = page (i + 1) item :=
    List.takeWhile_eq_self_iff.mpr visible
  rw [pageText, exact]
  dsimp only
  rw [readNum, if_neg inRange, if_neg notNegative, Int.toNat_natCast, Int.toNat_natCast, behind,
    List.take_left, kept]
  simp only [absent, and_false, or_false]

theorem of_pageText_eq_ok {file buf : Bytes} {range : Int × Int}
    (read : pageText file range = .ok buf) :
    -2 ^ 31 ≤ range.2 - range.1 ∧ buf.length ≤ 65536 := by
  rw [pageText] at read
  generalize (if range.1 < 0 then [] else
    (file.drop range.1.toNat).take (range.2 - range.1).toNat) = content at read
  split_ifs at read with overflows inside
  cases read
  refine ⟨by omega, (List.takeWhile_prefix _).length_le.trans ?_⟩
  rcases inside with below | ⟨full, -⟩
  · exact below.le
  · exact full.le

/-- What is behind the range of `int` is not read as a page. -/
theorem position_of_readPage (listed : rss[i]? = some item) (starts : position rss i < 2 ^ 31)
    (found : readPage ⟨Tinyxml2.parse, (store rss).1⟩
        (position rss i, toInt (nearestDouble (position rss (i + 1)))) =
      .ok (itemPage (i + 1) item)) : position rss (i + 1) < 2 ^ 31 := by
  by_contra beyond
  obtain ⟨inside, -⟩ := List.getElem?_eq_some_iff.mp listed
  have ends := position_succ listed
  have index := le_position inside.le
  obtain ⟨buf, children, read, parsed, taken⟩ := readPage_eq_ok.mp found
  have short := (of_pageText_eq_ok read).2
  -- the texts fit into the array, so the page is small
  obtain ⟨title, link, description⟩ := length_of_readPage parsed taken
  have digits : (Text.decimal (i + 1)).length ≤ 10 := length_decimal (by omega)
  have small : (page (i + 1) item).length ≤ 101 + 3 * 65536 := by
    rw [length_page]
    change item.title.length ≤ _ at title
    change item.link.length ≤ _ at link
    change item.description.length ≤ _ at description
    omega
  have below : position rss (i + 1) < 2 ^ 32 := by omega
  -- and the end of its range is negative
  have negative : toInt (nearestDouble (position rss (i + 1))) =
      (position rss (i + 1) : Int) - 2 ^ 32 := by
    rw [WebPageSearcher.nearestDouble_of_lt (below.trans (by norm_num)),
      toInt_of_le (not_lt.mp beyond) below]
  have noOverflow := (of_pageText_eq_ok read).1
  rw [negative] at noOverflow
  omega

/-- The range of a page is read as the item exactly when it ends in the range of `int`, it fits into
the array, and all of its texts survive. -/
theorem readPage_store_iff (stripped : ∀ text ∈ item.fields, Stripped text)
    (listed : rss[i]? = some item) (starts : position rss i < 2 ^ 31) :
    readPage ⟨Tinyxml2.parse, (store rss).1⟩
        (position rss i, toInt (nearestDouble (position rss (i + 1)))) =
      .ok (itemPage (i + 1) item) ↔
      position rss (i + 1) < 2 ^ 31 ∧ (page (i + 1) item).length < 65536 ∧
        ∀ text ∈ item.fields, Survives text := by
  have printable : ∀ text ∈ item.fields, ∀ byte ∈ text, 32 ≤ byte :=
    fun text member => (stripped text member).printable
  constructor
  · intro found
    have fits := position_of_readPage listed starts found
    obtain ⟨buf, children, read, parsed, taken⟩ := readPage_eq_ok.mp found
    rw [pageText_page printable listed fits] at read
    split_ifs at read with short
    cases read
    exact ⟨fits, short, survives_of_pageOfElements stripped parsed taken⟩
  · rintro ⟨fits, short, survives⟩
    obtain ⟨inside, -⟩ := List.getElem?_eq_some_iff.mp listed
    have index := le_position inside.le
    have small : i + 1 < 2 ^ 31 := by omega
    obtain ⟨children, parsed, taken⟩ := pageOfElements_parse printable survives small
    have read := pageText_page printable listed fits
    rw [if_pos short] at read
    exact readPage_eq_ok.mpr ⟨_, children, read, parsed, taken⟩

/-- A stored item comes back exactly when the pages begin in the range of `int`, its own page ends
there and fits into the array, and all of its texts survive. -/
theorem recovered_iff (stripped : ∀ text ∈ item.fields, Stripped text)
    (listed : rss[i]? = some item) :
    Recovered Weight rss i item ↔
      (∀ j < rss.length, position rss j < 2 ^ 31) ∧ position rss (i + 1) < 2 ^ 31 ∧
        (page (i + 1) item).length < 65536 ∧ ∀ text ∈ item.fields, Survives text := by
  rw [recovered_iff_readPage listed]
  obtain ⟨inside, -⟩ := List.getElem?_eq_some_iff.mp listed
  exact and_congr_right fun starts => readPage_store_iff stripped listed (starts i inside)

/-- A text is stripped where the two conditions can be computed. -/
theorem stripped_of_all (raw : Bytes) {text : Bytes} (left : removeTags raw = text)
    (printable : (text.all fun byte => 32 ≤ byte) = true) : Stripped text :=
  ⟨⟨raw, left⟩, fun byte member => of_decide_eq_true (List.all_eq_true.mp printable byte member)⟩

/-- An item that comes back, with ampersands that begin no reference. -/
def questions : RssItem := ⟨ascii "Q & A", ascii "http://a.b/?x=1&y=2", ascii "1 > 0"⟩

theorem stripped_questions : ∀ text ∈ questions.fields, Stripped text := by
  refine questions.forall_fields.mpr ⟨?_, ?_, ?_⟩
  · exact stripped_of_all (ascii "Q & A") (by decide) (by decide)
  · exact stripped_of_all (ascii "http://a.b/?x=1&y=2") (by decide +kernel) (by decide)
  · exact stripped_of_all (ascii "1 > 0") (by decide) (by decide)

theorem questions_recovered : @Recovered Nat wholeNumbers [questions] 0 questions := by
  have short : (page (0 + 1) questions).length ≤ 200 := by
    have digits := length_decimal (show 0 + 1 < 2 ^ 31 by decide)
    have title : questions.title.length = 5 := by decide
    have link : questions.link.length = 19 := by decide
    have description : questions.description.length = 5 := by decide
    rw [length_page, title, link, description]
    omega
  have listed : [questions][0]? = some questions := rfl
  have begins : position [questions] 0 = 0 := rfl
  have ends : position [questions] (0 + 1) < 2 ^ 31 := by
    rw [position_succ listed, begins]
    omega
  have survives : ∀ text ∈ questions.fields, Survives text :=
    questions.forall_fields.mpr ⟨by decide, by decide, by decide⟩
  have starts : ∀ j < [questions].length, position [questions] j < 2 ^ 31 := by
    intro j inside
    rw [List.length_singleton, Nat.lt_one_iff] at inside
    rw [inside, begins]
    decide
  exact (@recovered_iff Nat wholeNumbers [questions] 0 questions stripped_questions listed).mpr
    ⟨starts, ends, by omega, survives⟩

/-- An item whose title consists of tags. -/
def untitled : RssItem := ⟨removeTags (ascii "<b></b>"), ascii "http://a.b", ascii "text"⟩

/-- An item with an empty title does not come back. -/
theorem untitled_lost :
    ¬ ∀ rss : List RssItem, (∀ item ∈ rss, ∀ text ∈ item.fields, Stripped text) →
      ∀ i item, rss[i]? = some item → @Recovered Nat wholeNumbers rss i item := by
  intro recovers
  have stripped : ∀ text ∈ untitled.fields, Stripped text := by
    refine untitled.forall_fields.mpr ⟨?_, ?_, ?_⟩
    · exact stripped_of_all (ascii "<b></b>") rfl (by decide)
    · exact stripped_of_all (ascii "http://a.b") (by decide) (by decide)
    · exact stripped_of_all (ascii "text") (by decide) (by decide)
  have recovered := recovers [untitled] (List.forall_mem_singleton.mpr stripped) 0 untitled rfl
  obtain ⟨starts, found⟩ :=
    (@recovered_iff_readPage Nat wholeNumbers [untitled] 0 untitled rfl).mp recovered
  obtain ⟨-, -, survives⟩ := (readPage_store_iff stripped rfl (starts 0 Nat.one_pos)).mp found
  have blank : Blank untitled.title := List.all_eq_true.mp (by decide)
  exact (survives untitled.title List.mem_cons_self).visible blank

end SearchEngine
