/-
This file models `PageProducer::buildripepage`, which reads the RSS items of all
feeds, and determines what it makes of them.

The elements of a feed are found by the first child of its root. Every element
behind the first item is taken for an item too, whatever its name is, unless it
has no title. The link is looked for behind the title and the description behind
the link; an item in which one of them or a text is missing is not skipped, but
read through a null pointer. A feed that cannot be parsed ends the run with the
items of the feeds before it.
-/

import SearchEngine.PageDump.PageProducer
import SearchEngine.Xml.Navigation

namespace SearchEngine

open Tinyxml2

/-- The `item` elements of a feed: `RootElement`, its first child, and the first item of this with
the elements behind it. -/
def feedItems (nodes : List XMLNode) : Except Fault (List XMLElement) := do
  let rss ← orFault .nullPointer (rootElement nodes)
  let channel ← orFault .nullPointer (rss.firstChildElement none)
  return siblingsFrom (channel.firstChildElement (some (ascii "item")))

namespace PageProducer

/-- The text of an element without its tags; a null pointer is not a string. -/
def strippedText (element : XMLElement) : Except Fault Bytes := do
  let text ← orFault .nullPointer element.getText
  return removeTags text

/-- The body of the loop over the items: the item that is pushed, if the element has a title. -/
def readItem (item : XMLElement) : Except Fault (Option RssItem) :=
  match item.firstChildElement (some (ascii "title")) with
  | none => .ok none
  | some itemChild => do
    let title ← strippedText itemChild
    let itemChild ← orFault .nullPointer (itemChild.nextSiblingElement (some (ascii "link")))
    let link ← strippedText itemChild
    let itemChild ← orFault .nullPointer (itemChild.nextSiblingElement (some (ascii "description")))
    let description ← strippedText itemChild
    return some ⟨title, link, description⟩

/-- The loop over the items of a feed. -/
def readItems : List XMLElement → List RssItem → Except Fault (List RssItem)
  | [], rss => .ok rss
  | item :: items, rss => do
    let ritem ← readItem item
    readItems items (rss ++ ritem.toList)

/-- `PageProducer::buildripepage`, on the contents of the feeds; a file that cannot be opened has
none. -/
def buildripepage : List (Option Bytes) → List RssItem → Except Fault (List RssItem)
  | [], rss => .ok rss
  | file :: files, rss =>
    match file.bind loadFile with
    | none => .ok rss
    | some nodes => do
      let items ← feedItems nodes
      let rss ← readItems items rss
      buildripepage files rss

end PageProducer

/-! ### Elements that are items -/

/-- The children of the first element among nodes. -/
def FirstElement (nodes children : List XMLNode) : Prop :=
  ∃ front name back, nodes = front ++ .element name children :: back ∧ Lacks none front

/-- The items of a channel: the first element named `item`, and every element behind it, whatever its
name is. -/
inductive ChannelItems (channel : List XMLNode) : List (List XMLNode) → Prop where
  | none (noItem : Lacks (some (ascii "item")) channel) : ChannelItems channel []
  | some {front item back : List XMLNode}
      (split : channel = front ++ .element (ascii "item") item :: back)
      (noItem : Lacks (some (ascii "item")) front) :
      ChannelItems channel (item :: back.filterMap XMLNode.elementChildren)

/-- The items of a parsed feed are those of the first element in its first element. -/
def FeedItems (nodes : List XMLNode) (items : List (List XMLNode)) : Prop :=
  ∃ rss channel, FirstElement nodes rss ∧ FirstElement rss channel ∧ ChannelItems channel items

theorem firstElement_iff {nodes children : List XMLNode} :
    FirstElement nodes children ↔ ∃ found, seekElement none nodes = some found ∧
      found.children = children := by
  constructor
  · rintro ⟨front, name, back, split, lacks⟩
    exact ⟨⟨children, back⟩, seekElement_eq_some.mpr ⟨front, name, Or.inl rfl, split, lacks⟩, rfl⟩
  · rintro ⟨found, seeks, rfl⟩
    obtain ⟨front, name, -, split, lacks⟩ := seekElement_eq_some.mp seeks
    exact ⟨front, name, found.siblings, split, lacks⟩

theorem channelItems_iff {channel : List XMLNode} {items : List (List XMLNode)} :
    ChannelItems channel items ↔
      (siblingsFrom (seekElement (some (ascii "item")) channel)).map XMLElement.children = items := by
  cases seeks : seekElement (some (ascii "item")) channel with
  | none =>
    have lacks := seekElement_eq_none.mp seeks
    constructor
    · rintro (_ | ⟨split, noItem⟩)
      · rfl
      · cases seeks.symm.trans ((@seekElement_named _ _ ⟨_, _⟩).mpr ⟨_, split, noItem⟩)
    · rintro rfl
      exact .none lacks
  | some found =>
    obtain ⟨front, split, noItem⟩ := seekElement_named.mp seeks
    have listed : (siblingsFrom (some found)).map XMLElement.children =
        found.children :: found.siblings.filterMap XMLNode.elementChildren := by
      rw [siblingsFrom, List.map_cons, map_children_elements]
    rw [listed]
    constructor
    · rintro (lacks | ⟨otherSplit, otherLacks⟩)
      · cases seeks.symm.trans (seekElement_eq_none.mpr lacks)
      · cases seeks.symm.trans ((@seekElement_named _ _ ⟨_, _⟩).mpr ⟨_, otherSplit, otherLacks⟩)
        rfl
    · rintro rfl
      exact .some split noItem

/-- The elements the loop goes through are the items of the feed. -/
theorem feedItems_iff {nodes : List XMLNode} {items : List (List XMLNode)} :
    (∃ found, feedItems nodes = .ok found ∧ found.map XMLElement.children = items) ↔
      FeedItems nodes items := by
  constructor
  · rintro ⟨found, ended, rfl⟩
    obtain ⟨rss, root, ended⟩ := bind_eq_ok.mp ended
    obtain ⟨channel, first, ended⟩ := bind_eq_ok.mp ended
    obtain rfl := Except.ok.inj ended
    exact ⟨rss.children, channel.children, firstElement_iff.mpr ⟨rss, orFault_eq_ok.mp root, rfl⟩,
      firstElement_iff.mpr ⟨channel, orFault_eq_ok.mp first, rfl⟩, channelItems_iff.mpr rfl⟩
  · rintro ⟨_, _, root, first, items⟩
    obtain ⟨rss, rootSought, rfl⟩ := firstElement_iff.mp root
    obtain ⟨channel, firstSought, rfl⟩ := firstElement_iff.mp first
    refine ⟨_, bind_eq_ok.mpr ⟨rss, orFault_eq_ok.mpr rootSought, bind_eq_ok.mpr
      ⟨channel, orFault_eq_ok.mpr firstSought, rfl⟩⟩, channelItems_iff.mp items⟩

/-- What is gathered from the items of a feed that can be parsed, item by item. -/
def FeedGathers {Result : Type} (gathers : List XMLNode → List Result → Prop) (file : Option Bytes)
    (results : List Result) : Prop :=
  ∃ nodes items gathered, file.bind loadFile = some nodes ∧ FeedItems nodes items ∧
    List.Forall₂ gathers items gathered ∧ results = gathered.flatten

namespace PageProducer

/-! ### Items -/

/-- An item as the children of its element describe it: the texts of the first title, of the first
link behind it, and of the first description behind that. -/
structure Describes (children : List XMLNode) (item : RssItem) : Prop where
  exists_texts : ∃ before between within after title link description,
    children = before ++ .element (ascii "title") title ::
      (between ++ .element (ascii "link") link ::
        (within ++ .element (ascii "description") description :: after)) ∧
    Lacks (some (ascii "title")) before ∧ Lacks (some (ascii "link")) between ∧
    Lacks (some (ascii "description")) within ∧
    (∃ text, getText title = some text ∧ item.title = removeTags text) ∧
    (∃ text, getText link = some text ∧ item.link = removeTags text) ∧
    ∃ text, getText description = some text ∧ item.description = removeTags text

/-- What is pushed for an element with these children: nothing without a title, and otherwise the item
they describe. -/
inductive Pushes (children : List XMLNode) : List RssItem → Prop where
  | untitled (noTitle : Lacks (some (ascii "title")) children) : Pushes children []
  | titled {item : RssItem} (describes : Describes children item) : Pushes children [item]

theorem strippedText_eq_ok {element : XMLElement} {result : Bytes} :
    strippedText element = .ok result ↔
      ∃ text, getText element.children = some text ∧ result = removeTags text := by
  rw [strippedText, bind_eq_ok]
  constructor
  · rintro ⟨text, found, ended⟩
    exact ⟨text, orFault_eq_ok.mp found, (Except.ok.inj ended).symm⟩
  · rintro ⟨text, found, rfl⟩
    exact ⟨text, orFault_eq_ok.mpr found, rfl⟩

/-- What is pushed for an element is what its children describe. -/
theorem readItem_eq_some_iff {element : XMLElement} {item : RssItem} :
    readItem element = .ok (some item) ↔ Describes element.children item := by
  constructor
  · intro reads
    rw [readItem] at reads
    cases titled : element.firstChildElement (some (ascii "title")) with
    | none =>
      rw [titled] at reads
      cases reads
    | some titleElement =>
      rw [titled] at reads
      obtain ⟨title, titleText, reads⟩ := bind_eq_ok.mp reads
      obtain ⟨linkElement, linked, reads⟩ := bind_eq_ok.mp reads
      obtain ⟨link, linkText, reads⟩ := bind_eq_ok.mp reads
      obtain ⟨descriptionElement, described, reads⟩ := bind_eq_ok.mp reads
      obtain ⟨description, descriptionText, reads⟩ := bind_eq_ok.mp reads
      cases reads
      obtain ⟨before, children, noTitle⟩ := seekElement_named.mp titled
      obtain ⟨between, behindTitle, noLink⟩ := seekElement_named.mp (orFault_eq_ok.mp linked)
      obtain ⟨within, behindLink, noDescription⟩ :=
        seekElement_named.mp (orFault_eq_ok.mp described)
      rw [behindLink] at behindTitle
      rw [behindTitle] at children
      exact ⟨⟨before, between, within, _, _, _, _, children, noTitle, noLink, noDescription,
        strippedText_eq_ok.mp titleText, strippedText_eq_ok.mp linkText,
        strippedText_eq_ok.mp descriptionText⟩⟩
  · rintro ⟨before, between, within, after, title, link, description, children, noTitle, noLink,
      noDescription, titleText, linkText, descriptionText⟩
    have titled : element.firstChildElement (some (ascii "title")) =
        some ⟨title, between ++ .element (ascii "link") link ::
          (within ++ .element (ascii "description") description :: after)⟩ :=
      seekElement_named.mpr ⟨before, children, noTitle⟩
    have linked : XMLElement.nextSiblingElement ⟨title, between ++ .element (ascii "link") link ::
          (within ++ .element (ascii "description") description :: after)⟩ (some (ascii "link")) =
        some ⟨link, within ++ .element (ascii "description") description :: after⟩ :=
      seekElement_named.mpr ⟨between, rfl, noLink⟩
    have described : XMLElement.nextSiblingElement
          ⟨link, within ++ .element (ascii "description") description :: after⟩
          (some (ascii "description")) = some ⟨description, after⟩ :=
      seekElement_named.mpr ⟨within, rfl, noDescription⟩
    rw [readItem, titled]
    dsimp only
    rw [strippedText_eq_ok.mpr titleText, ok_bind, linked, orFault_some, ok_bind,
      strippedText_eq_ok.mpr linkText, ok_bind, described, orFault_some, ok_bind,
      strippedText_eq_ok.mpr descriptionText]
    rfl

/-- An element is skipped when it has no title. -/
theorem readItem_eq_none_iff {element : XMLElement} :
    readItem element = .ok none ↔ Lacks (some (ascii "title")) element.children := by
  rw [← seekElement_eq_none]
  constructor
  · intro reads
    cases titled : seekElement (some (ascii "title")) element.children with
    | none => rfl
    | some titleElement =>
      rw [readItem, XMLElement.firstChildElement, titled] at reads
      obtain ⟨title, -, reads⟩ := bind_eq_ok.mp reads
      obtain ⟨linkElement, -, reads⟩ := bind_eq_ok.mp reads
      obtain ⟨link, -, reads⟩ := bind_eq_ok.mp reads
      obtain ⟨descriptionElement, -, reads⟩ := bind_eq_ok.mp reads
      obtain ⟨description, -, reads⟩ := bind_eq_ok.mp reads
      cases reads
  · intro untitled
    rw [readItem, XMLElement.firstChildElement, untitled]

theorem pushes_iff {element : XMLElement} {pushed : List RssItem} :
    Pushes element.children pushed ↔
      ∃ item, readItem element = .ok item ∧ pushed = item.toList := by
  constructor
  · rintro (noTitle | describes)
    · exact ⟨none, readItem_eq_none_iff.mpr noTitle, rfl⟩
    · exact ⟨some _, readItem_eq_some_iff.mpr describes, rfl⟩
  · rintro ⟨_ | item, reads, rfl⟩
    · exact .untitled (readItem_eq_none_iff.mp reads)
    · exact .titled (readItem_eq_some_iff.mp reads)

/-! ### Runs -/

theorem readItems_eq_ok {found : List XMLElement} {rss result : List RssItem} :
    readItems found rss = .ok result ↔
      ∃ pushed, List.Forall₂ Pushes (found.map XMLElement.children) pushed ∧
        result = rss ++ pushed.flatten := by
  induction found generalizing rss with
  | nil =>
    rw [readItems, List.map_nil]
    constructor
    · intro ended
      exact ⟨[], .nil, by rw [List.flatten_nil, List.append_nil, Except.ok.inj ended]⟩
    · rintro ⟨pushed, pushes, rfl⟩
      cases pushes
      rw [List.flatten_nil, List.append_nil]
  | cons element found inductionHypothesis =>
    rw [readItems, bind_eq_ok, List.map_cons]
    constructor
    · rintro ⟨item, first, ended⟩
      obtain ⟨pushed, pushes, rfl⟩ := inductionHypothesis.mp ended
      exact ⟨item.toList :: pushed, .cons (pushes_iff.mpr ⟨item, first, rfl⟩) pushes, by
        rw [List.flatten_cons, List.append_assoc]⟩
    · rintro ⟨pushed, pushes, rfl⟩
      cases pushes with
      | cons first pushes =>
        obtain ⟨item, reads, rfl⟩ := pushes_iff.mp first
        refine ⟨item, reads, inductionHypothesis.mpr ⟨_, pushes, ?_⟩⟩
        rw [List.flatten_cons, List.append_assoc]

/-- A feed that is parsed is read as its items. -/
theorem feed_eq_ok {file : Option Bytes} {nodes : List XMLNode}
    (parses : file.bind loadFile = some nodes) {rss result : List RssItem} :
    (∃ found, feedItems nodes = .ok found ∧ readItems found rss = .ok result) ↔
      ∃ pushed, FeedGathers Pushes file pushed ∧ result = rss ++ pushed := by
  constructor
  · rintro ⟨found, feed, ended⟩
    obtain ⟨pushed, pushes, rfl⟩ := readItems_eq_ok.mp ended
    exact ⟨_, ⟨nodes, _, pushed, parses, feedItems_iff.mp ⟨found, feed, rfl⟩, pushes, rfl⟩, rfl⟩
  · rintro ⟨pushed, ⟨other, items, gathered, same, feed, pushes, rfl⟩, rfl⟩
    obtain rfl := Option.some.inj (same.symm.trans parses)
    obtain ⟨found, reads, rfl⟩ := feedItems_iff.mpr feed
    exact ⟨found, reads, readItems_eq_ok.mpr ⟨gathered, pushes, rfl⟩⟩

/-- The items of the feeds in front of the first one that cannot be parsed. -/
def ReadsFeeds (files : List (Option Bytes)) (items : List RssItem) : Prop :=
  ∃ read rest pushed, files = read ++ rest ∧
    (∀ file ∈ rest.head?, file.bind loadFile = none) ∧
    List.Forall₂ (FeedGathers Pushes) read pushed ∧ items = pushed.flatten

/-- Feeds behind a parsed one. -/
theorem readsFeeds_cons {file : Option Bytes} {files : List (Option Bytes)} {nodes : List XMLNode}
    (parses : file.bind loadFile = some nodes) {items : List RssItem} :
    ReadsFeeds (file :: files) items ↔
      ∃ first later, FeedGathers Pushes file first ∧ ReadsFeeds files later ∧
        items = first ++ later := by
  constructor
  · rintro ⟨read, rest, pushed, split, stops, gathers, rfl⟩
    cases gathers with
    | nil =>
      obtain rfl := split
      cases parses.symm.trans (stops file rfl)
    | cons here later =>
      obtain ⟨rfl, rfl⟩ := List.cons.inj split
      exact ⟨_, _, here, ⟨_, rest, _, rfl, stops, later, rfl⟩, rfl⟩
  · rintro ⟨first, _, here, ⟨read, rest, pushed, rfl, stops, later, rfl⟩, rfl⟩
    exact ⟨file :: read, rest, first :: pushed, rfl, stops, .cons here later, rfl⟩

theorem readsFeeds_unparsed {file : Option Bytes} {files : List (Option Bytes)}
    (fails : file.bind loadFile = none) {items : List RssItem} :
    ReadsFeeds (file :: files) items ↔ items = [] := by
  constructor
  · rintro ⟨read, rest, pushed, split, stops, gathers, rfl⟩
    cases gathers with
    | nil => rfl
    | cons here later =>
      obtain ⟨rfl, -⟩ := List.cons.inj split
      obtain ⟨nodes, -, -, parses, -⟩ := here
      cases fails.symm.trans parses
  · rintro rfl
    refine ⟨[], file :: files, [], rfl, fun other same => ?_, .nil, rfl⟩
    obtain rfl := Option.some.inj same
    exact fails

theorem readsFeeds_nil {items : List RssItem} : ReadsFeeds [] items ↔ items = [] := by
  constructor
  · rintro ⟨read, rest, pushed, split, -, gathers, rfl⟩
    obtain ⟨rfl, rfl⟩ := List.append_eq_nil_iff.mp split.symm
    cases gathers
    rfl
  · rintro rfl
    exact ⟨[], [], [], rfl, nofun, .nil, rfl⟩

theorem buildripepage_eq_ok {files : List (Option Bytes)} {rss result : List RssItem} :
    buildripepage files rss = .ok result ↔
      ∃ items, ReadsFeeds files items ∧ result = rss ++ items := by
  induction files generalizing rss with
  | nil =>
    rw [buildripepage]
    simp only [readsFeeds_nil, exists_eq_left, List.append_nil, Except.ok.injEq]
    exact eq_comm
  | cons file files inductionHypothesis =>
    rw [buildripepage]
    cases parses : file.bind loadFile with
    | none =>
      simp only [readsFeeds_unparsed parses, exists_eq_left, List.append_nil, Except.ok.injEq]
      exact eq_comm
    | some nodes =>
      dsimp only
      constructor
      · intro ended
        obtain ⟨found, feed, ended⟩ := bind_eq_ok.mp ended
        obtain ⟨middle, reads, ended⟩ := bind_eq_ok.mp ended
        obtain ⟨first, here, rfl⟩ := (feed_eq_ok parses).mp ⟨found, feed, reads⟩
        obtain ⟨later, others, rfl⟩ := inductionHypothesis.mp ended
        exact ⟨first ++ later, (readsFeeds_cons parses).mpr ⟨first, later, here, others, rfl⟩,
          List.append_assoc ..⟩
      · rintro ⟨items, gathered, rfl⟩
        obtain ⟨first, later, here, others, rfl⟩ := (readsFeeds_cons parses).mp gathered
        obtain ⟨found, feed, reads⟩ := (feed_eq_ok parses).mpr ⟨first, here, rfl⟩
        refine bind_eq_ok.mpr ⟨found, feed, bind_eq_ok.mpr ⟨_, reads, ?_⟩⟩
        exact inductionHypothesis.mpr ⟨later, others, (List.append_assoc ..).symm⟩

theorem Describes.untagged {children : List XMLNode} {item : RssItem}
    (describes : Describes children item) : ∀ text ∈ item.fields, Untagged text := by
  obtain ⟨-, -, -, -, -, -, -, -, -, -, -, ⟨title, -, titleText⟩, ⟨link, -, linkText⟩,
    description, -, descriptionText⟩ := describes
  rw [item.forall_fields, titleText, linkText, descriptionText]
  exact ⟨untagged_removeTags title, untagged_removeTags link, untagged_removeTags description⟩

/-- What follows of a relation holds of all that is related. -/
theorem forall_mem_of_forall₂ {First Second : Type} {related : First → Second → Prop}
    {property : Second → Prop} (each : ∀ first second, related first second → property second)
    {firsts : List First} {seconds : List Second} (all : List.Forall₂ related firsts seconds) :
    ∀ second ∈ seconds, property second := by
  induction all with
  | nil => exact List.forall_mem_nil _
  | cons here later inductionHypothesis =>
    exact List.forall_mem_cons.mpr ⟨each _ _ here, inductionHypothesis⟩

theorem untagged_of_gathers {file : Option Bytes} {items : List RssItem}
    (gathers : FeedGathers Pushes file items) :
    ∀ item ∈ items, ∀ text ∈ item.fields, Untagged text := by
  obtain ⟨nodes, children, gathered, -, -, pushes, rfl⟩ := gathers
  rw [List.forall_mem_flatten]
  refine forall_mem_of_forall₂ (fun inner pushed pushesItem => ?_) pushes
  cases pushesItem with
  | untitled => exact List.forall_mem_nil _
  | titled describes => exact List.forall_mem_singleton.mpr describes.untagged

theorem ReadsFeeds.untagged {files : List (Option Bytes)} {items : List RssItem}
    (reads : ReadsFeeds files items) : ∀ item ∈ items, ∀ text ∈ item.fields, Untagged text := by
  obtain ⟨read, rest, pushed, -, -, gathers, rfl⟩ := reads
  rw [List.forall_mem_flatten]
  exact forall_mem_of_forall₂ (fun file pushed gathered => untagged_of_gathers gathered) gathers

/-- The library that is built is the earlier one with the items of the feeds behind it, in the texts of
which no tag is left. Nothing is built where an item with a title lacks a link, a description or a
text. -/
theorem buildripepage_reads (files : List (Option Bytes)) (rss result : List RssItem) :
    buildripepage files rss = .ok result ↔
      ∃ items, ReadsFeeds files items ∧ (∀ item ∈ items, ∀ text ∈ item.fields, Untagged text) ∧
        result = rss ++ items := by
  rw [buildripepage_eq_ok]
  refine exists_congr fun items => and_congr_right fun reads => ?_
  exact (and_iff_right reads.untagged).symm

end PageProducer

end SearchEngine
