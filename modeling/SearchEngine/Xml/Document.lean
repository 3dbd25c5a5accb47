/-
This file models how the XML library parses a document: `XMLDocument::Parse` and
the `ParseDeep` functions it calls, on a buffer that ends at its first NUL.

An element reads its children until it meets an end tag, which it hands to its
parent. Every error, also an element that is not closed or is closed under
another name, makes the whole document empty. The values of attributes, line
numbers and the texts of errors are left out: the callers read none of them.
-/

import SearchEngine.Xml.StrPair
import SearchEngine.Searcher.WebPageSearcher

namespace SearchEngine

namespace Tinyxml2

/-! ### Tags -/

/-- `'<'` -/
def lessThan : UInt8 := 60

/-- `'>'` -/
def greaterThan : UInt8 := 62

/-- `'/'` -/
def slash : UInt8 := 47

/-- `'='` -/
def equalsSign : UInt8 := 61

/-- `'"'` and `'\''` -/
def isQuote (byte : UInt8) : Bool := byte == 34 || byte == 39

/-- `XMLAttribute::ParseDeep`: the name of an attribute, and what is behind its value. -/
def parseAttribute (p : Bytes) : Option (Bytes × Bytes) :=
  match parseName p with
  | none => none
  | some (name, p) =>
    match skipWhiteSpace p with
    | [] => none
    | first :: p =>
      if first = equalsSign then
        match skipWhiteSpace p with
        | [] => none
        | quote :: p =>
          if isQuote quote then (parseText [quote] p).map fun (_, p) => (name, p) else none
      else none

/-- The loop of `XMLElement::ParseAttributes`, with the names it has read; it returns whether the
tag was closed by a slash, and what is behind the tag. Each round reads at least one byte. -/
def attributesLoop : Nat → List Bytes → Bytes → Option (Bool × Bytes)
  | 0, _, _ => none
  | rounds + 1, names, p =>
    match skipWhiteSpace p with
    | [] => none
    | byte :: p =>
      if isNameStartChar byte then
        match parseAttribute (byte :: p) with
        | none => none
        | some (name, p) =>
          if name ∈ names then none else attributesLoop rounds (name :: names) p
      else if byte = greaterThan then some (false, p)
      else if byte = slash ∧ p.head? = some greaterThan then some (true, p.tail)
      else none

/-- `XMLElement::ParseAttributes` -/
def parseAttributes (p : Bytes) : Option (Bool × Bytes) := attributesLoop (p.length + 1) [] p

/-- `XMLElement::ElementClosingType` -/
inductive ClosingType where
  /-- `OPEN` -/
  | opens
  | closed
  | closing
deriving DecidableEq

/-- `XMLElement::ParseDeep` up to the end of its tag: the name, the kind of the tag, and what is
behind it. -/
def parseTag (p : Bytes) : Option (Bytes × ClosingType × Bytes) :=
  let p := skipWhiteSpace p
  let closing := p.head? = some slash
  match parseName (if closing then p.tail else p) with
  | none => none
  | some (name, p) =>
    match parseAttributes p with
    | none => none
    | some (closed, p) =>
      some (name, if closed then .closed else if closing then .closing else .opens, p)

/-! ### Nodes -/

/-- `XMLNode`, with the value of a text and the name and the children of an element. -/
inductive XMLNode where
  | declaration
  | comment
  | unknown
  | text (value : Bytes)
  | element (name : Bytes) (children : List XMLNode)

/-- `ToDeclaration` is not null. -/
def XMLNode.isDeclaration : XMLNode → Bool
  | .declaration => true
  | _ => false

/-- The class of the node that `XMLDocument::Identify` creates. -/
inductive NodeKind where
  | declaration
  | comment
  | cData
  | unknown
  | element
  | text
deriving DecidableEq

/-- `XMLDocument::Identify`: the node that comes next, and where its content begins. -/
def identify (start : Bytes) : Option (NodeKind × Bytes) :=
  let p := skipWhiteSpace start
  if p = [] then none
  else if ascii "<?" <+: p then some (.declaration, p.drop 2)
  else if ascii "<!--" <+: p then some (.comment, p.drop 4)
  else if ascii "<![CDATA[" <+: p then some (.cData, p.drop 9)
  else if ascii "<!" <+: p then some (.unknown, p.drop 2)
  else if ascii "<" <+: p then some (.element, p.drop 1)
  -- all the text counts
  else some (.text, start)

/-- Declarations are only allowed at the head of the document. -/
def wellLocated (document : Bool) (nodes : List XMLNode) : Bool :=
  document && match nodes.head?, nodes.getLast? with
    | some first, some last => first.isDeclaration && last.isDeclaration
    | _, _ => true

/-- The nodes that were read, and, unless the input has ended, the name of the end tag and what is
behind it. -/
abbrev Parsed := List XMLNode × Option (Bytes × Bytes)

/-- The loop of `XMLNode::ParseDeep` for the document or for an element, with the nodes it has
inserted. Each round reads at least one byte. -/
def parseDeep (document : Bool) : Nat → Nat → Bytes → List XMLNode → Option Parsed
  | 0, _, _, _ => none
  | rounds + 1, depth, p, nodes =>
    match identify p with
    | none => some (nodes, none)
    | some (.declaration, p) =>
      match parseText (ascii "?>") p with
      | none => none
      | some (_, p) =>
        if wellLocated document nodes then
          parseDeep document rounds depth p (nodes ++ [.declaration])
        else none
    | some (.comment, p) =>
      match parseText (ascii "-->") p with
      | none => none
      | some (_, p) => parseDeep document rounds depth p (nodes ++ [.comment])
    | some (.cData, p) =>
      match parseText (ascii "]]>") p with
      | none => none
      | some (text, p) => parseDeep document rounds depth p (nodes ++ [.text (getStr false text)])
    | some (.unknown, p) =>
      match parseText [greaterThan] p with
      | none => none
      | some (_, p) => parseDeep document rounds depth p (nodes ++ [.unknown])
    | some (.text, p) =>
      match parseText [lessThan] p with
      | none => none
      | some (text, p) =>
        if p = [] then none
        else parseDeep document rounds depth (lessThan :: p) (nodes ++ [.text (getStr true text)])
    | some (.element, p) =>
      match parseTag p with
      | none => none
      | some (name, .closing, p) => some (nodes, some (name, p))
      | some (name, .closed, p) =>
        parseDeep document rounds depth p (nodes ++ [.element name []])
      | some (name, .opens, p) =>
        -- the element is not closed, or `TINYXML2_MAX_ELEMENT_DEPTH` is reached
        if p = [] ∨ depth + 1 = 100 then none
        else
          match parseDeep false rounds (depth + 1) p [] with
          | some (children, some (endTag, p)) =>
            if endTag = name then
              parseDeep document rounds depth p (nodes ++ [.element name children])
            else none
          | _ => none

/-! ### Documents -/

/-- `XMLUtil::ReadBOM` -/
def readBOM (p : Bytes) : Bytes := if [0xEF, 0xBB, 0xBF] <+: p then p.drop 3 else p

/-- `XMLElement::GetText`, from the children of the element. -/
def getText (children : List XMLNode) : Option Bytes :=
  match children.dropWhile fun node => node matches .comment with
  | .text value :: _ => some value
  | _ => none

/-- The element a node is, with what `GetText` returns. -/
def XMLNode.toElement : XMLNode → Option XmlElement
  | .element name children => some ⟨name, getText children⟩
  | _ => none

/-- The children of a node that is an element. -/
def XMLNode.elementChildren : XMLNode → Option (List XMLNode)
  | .element _ children => some children
  | _ => none

/-- `XMLDocument::Parse`, `RootElement`, and the elements among the children of the root. -/
def parse (buf : Bytes) : Option (List XmlElement) :=
  let p := readBOM (skipWhiteSpace buf)
  if p = [] then none
  else
    match parseDeep true (p.length + 1) 1 p [] with
    | none => none
    | some (nodes, _) =>
      (nodes.findSome? XMLNode.elementChildren).map fun children =>
        children.filterMap XMLNode.toElement

/-! ### What comes next -/

/-- Text that the parser passes over before a node. -/
def Blank (text : Bytes) : Prop := ∀ byte ∈ text, Text.isSpace byte = true

instance (text : Bytes) : Decidable (Blank text) :=
  inferInstanceAs (Decidable (∀ byte ∈ text, Text.isSpace byte = true))

theorem skipWhiteSpace_append {blanks : Bytes} (blank : Blank blanks) (p : Bytes) :
    skipWhiteSpace (blanks ++ p) = skipWhiteSpace p := List.dropWhile_append_of_pos blank

theorem skipWhiteSpace_cons {byte : UInt8} (visible : Text.isSpace byte = false) (p : Bytes) :
    skipWhiteSpace (byte :: p) = byte :: p := List.dropWhile_cons_of_neg (by simp [visible])

/-- Text that is not blank has a first byte that is not skipped. -/
theorem skipWhiteSpace_of_not_blank {text : Bytes} (visible : ¬ Blank text) :
    ∃ byte later, byte ∈ text ∧ Text.isSpace byte = false ∧
      ∀ p, skipWhiteSpace (text ++ p) = byte :: (later ++ p) := by
  induction text with
  | nil => exact absurd (List.forall_mem_nil _) visible
  | cons first text inductionHypothesis =>
    cases space : Text.isSpace first with
    | false =>
      exact ⟨first, text, List.mem_cons_self, space, fun p => skipWhiteSpace_cons space _⟩
    | true =>
      have rest : ¬ Blank text := fun blank => visible (List.forall_mem_cons.mpr ⟨space, blank⟩)
      obtain ⟨byte, later, listed, notSpace, skips⟩ := inductionHypothesis rest
      refine ⟨byte, later, List.mem_cons_of_mem _ listed, notSpace, fun p => ?_⟩
      rw [← skips p]
      exact List.dropWhile_cons_of_pos space

/-- What stands behind a `'<'` decides about the node. -/
theorem identify_append_lessThan {blanks : Bytes} (blank : Blank blanks) (q : Bytes) :
    identify (blanks ++ lessThan :: q) = identify (lessThan :: q) := by
  have markup : ascii "<" <+: lessThan :: q := ⟨q, rfl⟩
  have visible : skipWhiteSpace (lessThan :: q) = lessThan :: q := skipWhiteSpace_cons rfl q
  simp only [identify, skipWhiteSpace_append blank, visible, markup, if_true]

theorem identify_text {text : Bytes} (visible : ¬ Blank text) (absent : lessThan ∉ text)
    (p : Bytes) : identify (text ++ p) = some (.text, text ++ p) := by
  obtain ⟨byte, later, listed, -, skips⟩ := skipWhiteSpace_of_not_blank visible
  have different : lessThan ≠ byte := fun same => absent (same ▸ listed)
  have noMarkup {pattern : Bytes} (begins : pattern.head? = some lessThan) :
      ¬ pattern <+: byte :: (later ++ p) := by
    cases pattern with
    | nil => cases begins
    | cons first pattern =>
      rw [List.cons_prefix_cons]
      exact fun both => different ((Option.some.inj begins).symm.trans both.1)
  simp only [identify, skips]
  rw [if_neg (List.cons_ne_nil _ _), if_neg (noMarkup rfl), if_neg (noMarkup rfl),
    if_neg (noMarkup rfl), if_neg (noMarkup rfl), if_neg (noMarkup rfl)]

variable {document : Bool} {rounds depth : Nat} {nodes : List XMLNode}

theorem parseDeep_append_lessThan {blanks : Bytes} (blank : Blank blanks) (q : Bytes) :
    parseDeep document (rounds + 1) depth (blanks ++ lessThan :: q) nodes =
      parseDeep document (rounds + 1) depth (lessThan :: q) nodes := by
  rw [parseDeep, parseDeep, identify_append_lessThan blank]

theorem parseDeep_text {text : Bytes} (visible : ¬ Blank text) (absent : lessThan ∉ text)
    {q : Bytes} (nonempty : q ≠ []) :
    parseDeep document (rounds + 1) depth (text ++ lessThan :: q) nodes =
      parseDeep document rounds depth (lessThan :: q) (nodes ++ [.text (getStr true text)]) := by
  have found : parseText [lessThan] (text ++ lessThan :: q) = some (text, q) :=
    Text.cut_singleton absent q
  rw [parseDeep, identify_text visible absent]
  dsimp only
  rw [found]
  dsimp only
  rw [if_neg nonempty]

/-- The nodes that a text without markup becomes. -/
def textNodes (text : Bytes) : List XMLNode :=
  if Blank text then [] else [.text (getStr true text)]

/-- A text without markup takes one round, or none where it is blank. -/
theorem parseDeep_textNodes {text : Bytes} (absent : lessThan ∉ text) {q : Bytes}
    (nonempty : q ≠ []) :
    ∃ left, rounds ≤ left ∧
      parseDeep document (rounds + 1) depth (text ++ lessThan :: q) nodes =
        parseDeep document left depth (lessThan :: q) (nodes ++ textNodes text) := by
  by_cases blank : Blank text
  · refine ⟨rounds + 1, Nat.le_succ _, ?_⟩
    rw [textNodes, if_pos blank, List.append_nil, parseDeep_append_lessThan blank]
  · refine ⟨rounds, le_rfl, ?_⟩
    rw [textNodes, if_neg blank, parseDeep_text blank absent nonempty]

/-! ### Tags -/

/-- A name that is written in a tag. -/
structure IsName (name : Bytes) : Prop where
  nonempty : name ≠ []
  starts : ∀ byte ∈ name, isNameStartChar byte = true

theorem isNameChar_of_isNameStartChar {byte : UInt8} (starts : isNameStartChar byte = true) :
    isNameChar byte = true := by
  rw [isNameChar, starts, Bool.true_or, Bool.true_or, Bool.true_or]

theorem parseName_append {name : Bytes} (isName : IsName name) (p : Bytes) :
    parseName (name ++ greaterThan :: p) = some (name, greaterThan :: p) := by
  obtain ⟨nonempty, starts⟩ := isName
  cases name with
  | nil => exact absurd rfl nonempty
  | cons first others =>
    obtain ⟨firstStarts, othersStart⟩ := List.forall_mem_cons.mp starts
    have chars : ∀ byte ∈ others, isNameChar byte = true :=
      fun byte member => isNameChar_of_isNameStartChar (othersStart byte member)
    have ends : ¬ isNameChar greaterThan = true := by decide
    rw [List.cons_append, parseName, if_pos firstStarts,
      List.takeWhile_append_of_pos chars, List.dropWhile_append_of_pos chars,
      List.takeWhile_cons_of_neg ends, List.dropWhile_cons_of_neg ends, List.append_nil]

theorem parseAttributes_greaterThan (p : Bytes) :
    parseAttributes (greaterThan :: p) = some (false, p) := by
  rw [parseAttributes, attributesLoop, skipWhiteSpace_cons rfl]
  dsimp only
  rw [if_neg (by decide), if_pos rfl]

theorem isNameStartChar_visible {byte : UInt8} (starts : isNameStartChar byte = true) :
    Text.isSpace byte = false ∧ byte ≠ slash ∧ byte ≠ greaterThan := by
  simp only [isNameStartChar, isAlpha, Bool.or_eq_true, Bool.and_eq_true, decide_eq_true_eq,
    beq_iff_eq, UInt8.le_iff_toNat_le, ← UInt8.toNat_inj] at starts
  simp only [Text.isSpace, Bool.or_eq_false_iff, beq_eq_false_iff_ne, ne_eq,
    Bool.and_eq_false_iff, decide_eq_false_iff_not, UInt8.le_iff_toNat_le, ← UInt8.toNat_inj,
    slash, greaterThan]
  simp only [UInt8.reduceToNat] at starts ⊢
  omega

theorem IsName.printable {name : Bytes} (isName : IsName name) : ∀ byte ∈ name, 32 ≤ byte := by
  intro byte member
  have starts := isName.starts byte member
  simp only [isNameStartChar, isAlpha, Bool.or_eq_true, Bool.and_eq_true, decide_eq_true_eq,
    beq_iff_eq, UInt8.le_iff_toNat_le, ← UInt8.toNat_inj, UInt8.reduceToNat] at starts
  rw [UInt8.le_iff_toNat_le]
  simp only [UInt8.reduceToNat]
  omega

theorem IsName.bracket_notMem {name : Bytes} (isName : IsName name) : (93 : UInt8) ∉ name :=
  fun member => absurd (isName.starts _ member) (by decide)

/-- `<name>` behind its `'<'`. -/
theorem parseTag_open {name : Bytes} (isName : IsName name) (p : Bytes) :
    parseTag (name ++ greaterThan :: p) = some (name, .opens, p) := by
  cases shape : name with
  | nil => exact absurd shape isName.nonempty
  | cons first others =>
    obtain ⟨visible, noSlash, -⟩ :=
      isNameStartChar_visible (isName.starts first (shape ▸ List.mem_cons_self))
    have skipped : skipWhiteSpace (name ++ greaterThan :: p) = name ++ greaterThan :: p := by
      rw [shape]
      exact skipWhiteSpace_cons visible _
    have opens : ¬ (name ++ greaterThan :: p).head? = some slash := by
      rw [shape]
      simpa using noSlash
    rw [← shape, parseTag, skipped]
    simp only [opens, if_false, parseName_append isName, parseAttributes_greaterThan,
      Bool.false_eq_true]

/-- `</name>` behind its `'<'`. -/
theorem parseTag_close {name : Bytes} (isName : IsName name) (p : Bytes) :
    parseTag (slash :: (name ++ greaterThan :: p)) = some (name, .closing, p) := by
  rw [parseTag, skipWhiteSpace_cons rfl]
  simp only [List.head?_cons, if_true, List.tail_cons, parseName_append isName,
    parseAttributes_greaterThan, Bool.false_eq_true, if_false]

/-- `'?'` -/
def questionMark : UInt8 := 63

/-- `'!'` -/
def exclamationMark : UInt8 := 33

/-- A `'<'` that neither a `'?'` nor a `'!'` follows begins an element. -/
theorem identify_element {first : UInt8} (noDeclaration : first ≠ questionMark)
    (noComment : first ≠ exclamationMark) (q : Bytes) :
    identify (lessThan :: first :: q) = some (.element, first :: q) := by
  have other {second : UInt8} (different : first ≠ second) (pattern : Bytes) :
      ¬ lessThan :: second :: pattern <+: lessThan :: first :: q := by
    rw [List.cons_prefix_cons, List.cons_prefix_cons]
    exact fun all => different all.2.1.symm
  have declaration : ¬ ascii "<?" <+: lessThan :: first :: q := other noDeclaration []
  have comment : ¬ ascii "<!--" <+: lessThan :: first :: q := other noComment [45, 45]
  have cData : ¬ ascii "<![CDATA[" <+: lessThan :: first :: q :=
    other noComment [91, 67, 68, 65, 84, 65, 91]
  have unknown : ¬ ascii "<!" <+: lessThan :: first :: q := other noComment []
  have markup : ascii "<" <+: lessThan :: first :: q := ⟨first :: q, rfl⟩
  rw [identify, skipWhiteSpace_cons (by rfl)]
  rw [if_neg (List.cons_ne_nil _ _), if_neg declaration, if_neg comment, if_neg cData,
    if_neg unknown, if_pos markup]
  rfl

theorem isNameStartChar_element {byte : UInt8} (starts : isNameStartChar byte = true) :
    byte ≠ questionMark ∧ byte ≠ exclamationMark := by
  constructor
  · rintro rfl
    exact absurd starts (by decide)
  · rintro rfl
    exact absurd starts (by decide)

/-- A start tag opens an element whose children are read until its end tag. -/
theorem parseDeep_open {name : Bytes} (isName : IsName name) (p : Bytes) :
    parseDeep document (rounds + 1) depth (lessThan :: (name ++ greaterThan :: p)) nodes =
      if p = [] ∨ depth + 1 = 100 then none
      else
        match parseDeep false rounds (depth + 1) p [] with
        | some (children, some (endTag, p)) =>
          if endTag = name then
            parseDeep document rounds depth p (nodes ++ [.element name children])
          else none
        | _ => none := by
  have element : identify (lessThan :: (name ++ greaterThan :: p)) =
      some (.element, name ++ greaterThan :: p) := by
    cases shape : name with
    | nil => exact absurd shape isName.nonempty
    | cons first others =>
      obtain ⟨noDeclaration, noComment⟩ :=
        isNameStartChar_element (isName.starts first (shape ▸ List.mem_cons_self))
      exact identify_element noDeclaration noComment _
  rw [parseDeep, element]
  dsimp only
  rw [parseTag_open isName]

/-- An end tag ends the children of an element. -/
theorem parseDeep_close {name : Bytes} (isName : IsName name) (p : Bytes) :
    parseDeep document (rounds + 1) depth (lessThan :: slash :: (name ++ greaterThan :: p)) nodes =
      some (nodes, some (name, p)) := by
  rw [parseDeep, identify_element (by decide) (by decide)]
  dsimp only
  rw [parseTag_close isName]

/-- An element that holds text without markup. -/
theorem parseDeep_leaf {name : Bytes} (isName : IsName name) {text : Bytes}
    (absent : lessThan ∉ text) (shallow : depth + 1 ≠ 100) (p : Bytes) :
    parseDeep document (rounds + 3) depth (lessThan :: (name ++ greaterThan :: (text ++
        lessThan :: slash :: (name ++ greaterThan :: p)))) nodes =
      parseDeep document (rounds + 2) depth p (nodes ++ [.element name (textNodes text)]) := by
  have closing : slash :: (name ++ greaterThan :: p) ≠ [] := List.cons_ne_nil _ _
  obtain ⟨left, enough, reads⟩ : ∃ left, rounds + 1 ≤ left ∧
      parseDeep false (rounds + 1 + 1) (depth + 1)
          (text ++ lessThan :: slash :: (name ++ greaterThan :: p)) [] =
        parseDeep false left (depth + 1) (lessThan :: slash :: (name ++ greaterThan :: p))
          ([] ++ textNodes text) := parseDeep_textNodes absent closing
  obtain ⟨left, rfl⟩ := Nat.exists_eq_add_of_le' (le_trans (Nat.le_add_left 1 rounds) enough)
  have content : ¬ (text ++ lessThan :: slash :: (name ++ greaterThan :: p) = [] ∨
      depth + 1 = 100) := by
    simp [shallow]
  rw [parseDeep_open isName, if_neg content, reads, parseDeep_close isName]
  dsimp only
  rw [if_pos rfl, List.nil_append]

/-! ### Rounds -/

/-- How a round inserts a node, and where the next one goes on. -/
inductive Inserts (document : Bool) (rounds depth : Nat) (nodes : List XMLNode) (p : Bytes) :
    XMLNode → Bytes → Prop
  | declaration (q value later : Bytes) (kind : identify p = some (.declaration, q))
      (ends : parseText (ascii "?>") q = some (value, later))
      (located : wellLocated document nodes = true) :
      Inserts document rounds depth nodes p .declaration later
  | comment (q value later : Bytes) (kind : identify p = some (.comment, q))
      (ends : parseText (ascii "-->") q = some (value, later)) :
      Inserts document rounds depth nodes p .comment later
  | cData (q value later : Bytes) (kind : identify p = some (.cData, q))
      (ends : parseText (ascii "]]>") q = some (value, later)) :
      Inserts document rounds depth nodes p (.text (getStr false value)) later
  | unknown (q value later : Bytes) (kind : identify p = some (.unknown, q))
      (ends : parseText [greaterThan] q = some (value, later)) :
      Inserts document rounds depth nodes p .unknown later
  | text (q value later : Bytes) (kind : identify p = some (.text, q))
      (ends : parseText [lessThan] q = some (value, later)) (more : later ≠ []) :
      Inserts document rounds depth nodes p (.text (getStr true value)) (lessThan :: later)
  | closed (q name later : Bytes) (kind : identify p = some (.element, q))
      (tag : parseTag q = some (name, .closed, later)) :
      Inserts document rounds depth nodes p (.element name []) later
  | element (q name behind later : Bytes) (children : List XMLNode)
      (kind : identify p = some (.element, q)) (tag : parseTag q = some (name, .opens, behind))
      (shallow : ¬ (behind = [] ∨ depth + 1 = 100))
      (content : parseDeep false rounds (depth + 1) behind [] =
        some (children, some (name, later))) :
      Inserts document rounds depth nodes p (.element name children) later

/-- What a round does that does not fail. -/
inductive Round (document : Bool) (rounds depth : Nat) (nodes : List XMLNode) (p : Bytes) :
    Parsed → Prop
  | ended (nothing : identify p = none) : Round document rounds depth nodes p (nodes, none)
  | closes (q name later : Bytes) (kind : identify p = some (.element, q))
      (tag : parseTag q = some (name, .closing, later)) :
      Round document rounds depth nodes p (nodes, some (name, later))
  | inserts (node : XMLNode) (later : Bytes) (result : Parsed)
      (inserted : Inserts document rounds depth nodes p node later)
      (goesOn : parseDeep document rounds depth later (nodes ++ [node]) = some result) :
      Round document rounds depth nodes p result

theorem round_of_parseDeep {p : Bytes} {result : Parsed}
    (reads : parseDeep document (rounds + 1) depth p nodes = some result) :
    Round document rounds depth nodes p result := by
  rw [parseDeep] at reads
  split at reads
  case h_1 nothing =>
    cases reads
    exact .ended nothing
  case h_2 q kind =>
    split at reads
    · cases reads
    · next value later ends =>
      split_ifs at reads with located
      exact .inserts _ _ _ (.declaration q value later kind ends located) reads
  case h_3 q kind =>
    split at reads
    · cases reads
    · next value later ends => exact .inserts _ _ _ (.comment q value later kind ends) reads
  case h_4 q kind =>
    split at reads
    · cases reads
    · next value later ends => exact .inserts _ _ _ (.cData q value later kind ends) reads
  case h_5 q kind =>
    split at reads
    · cases reads
    · next value later ends => exact .inserts _ _ _ (.unknown q value later kind ends) reads
  case h_6 q kind =>
    split at reads
    · cases reads
    · next value later ends =>
      split_ifs at reads with more
      exact .inserts _ _ _ (.text q value later kind ends more) reads
  case h_7 q kind =>
    split at reads
    · cases reads
    · next name later tag =>
      cases reads
      exact .closes q name later kind tag
    · next name later tag => exact .inserts _ _ _ (.closed q name later kind tag) reads
    · next name behind tag =>
      split_ifs at reads with shallow
      split at reads
      · next children endTag later content =>
        split_ifs at reads with same
        subst same
        exact .inserts _ _ _ (.element q _ behind later children kind tag shallow content) reads
      · cases reads

/-- What was read stays. -/
theorem nodes_prefix_of_parseDeep {p : Bytes} {result : Parsed}
    (reads : parseDeep document rounds depth p nodes = some result) : nodes <+: result.1 := by
  induction rounds generalizing p nodes with
  | zero => cases reads
  | succ rounds inductionHypothesis =>
    cases round_of_parseDeep reads with
    | ended nothing => exact List.prefix_rfl
    | closes q name later kind tag => exact List.prefix_rfl
    | inserts node later _ inserted goesOn =>
      exact (List.prefix_append _ _).trans (inductionHypothesis goesOn)

end Tinyxml2

end SearchEngine
