/-
This file models how a parsed document is walked through: `LoadFile`,
`RootElement`, `FirstChildElement` and `NextSiblingElement`.

An element is held together with the nodes behind it, so that a step to a sibling
is a step in a list. The loops of the program go from sibling to sibling until
there is none; they run over the elements among the nodes, in order.
-/

import SearchEngine.Xml.Document

namespace SearchEngine

namespace Tinyxml2

/-! ### Elements -/

/-- `XMLElement`: its children, and the nodes behind it. -/
structure XMLElement where
  children : List XMLNode
  siblings : List XMLNode

/-- `XMLNode::ToElementWithName`: the children of an element, which has the name if one is given. -/
def XMLNode.toElementWithName (name : Option Bytes) : XMLNode → Option (List XMLNode)
  | .element other children => if name.all (· = other) then some children else none
  | _ => none

/-- The loop of `FirstChildElement` and of `NextSiblingElement`. -/
def seekElement (name : Option Bytes) : List XMLNode → Option XMLElement
  | [] => none
  | node :: nodes =>
    match node.toElementWithName name with
    | some children => some ⟨children, nodes⟩
    | none => seekElement name nodes

namespace XMLElement

/-- `XMLNode::FirstChildElement` -/
def firstChildElement (element : XMLElement) (name : Option Bytes) : Option XMLElement :=
  seekElement name element.children

/-- `XMLNode::NextSiblingElement` -/
def nextSiblingElement (element : XMLElement) (name : Option Bytes) : Option XMLElement :=
  seekElement name element.siblings

/-- `XMLElement::GetText` -/
def getText (element : XMLElement) : Option Bytes := Tinyxml2.getText element.children

end XMLElement

/-! ### Documents -/

/-- `XMLDocument::LoadFile`: the nodes of the document, on the content of the file. It is parsed up to
its first NUL. -/
def loadFile (file : Bytes) : Option (List XMLNode) :=
  let p := readBOM (skipWhiteSpace (file.takeWhile (· ≠ 0)))
  if p = [] then none else (parseDeep true (p.length + 1) 1 p []).map Prod.fst

/-- `XMLDocument::RootElement` -/
def rootElement (nodes : List XMLNode) : Option XMLElement := seekElement none nodes

/-! ### Steps from sibling to sibling -/

/-- The elements among nodes, each with the nodes behind it. -/
def elements : List XMLNode → List XMLElement
  | [] => []
  | .element _ children :: nodes => ⟨children, nodes⟩ :: elements nodes
  | _ :: nodes => elements nodes

/-- The elements that a loop reaches which begins with an element, where there is one, and goes on
with `NextSiblingElement()`. -/
def siblingsFrom : Option XMLElement → List XMLElement
  | none => []
  | some element => element :: elements element.siblings

theorem map_children_elements (nodes : List XMLNode) :
    (elements nodes).map XMLElement.children = nodes.filterMap XMLNode.elementChildren := by
  induction nodes with
  | nil => rfl
  | cons node nodes inductionHypothesis =>
    cases node with
    | element name children =>
      rw [elements, List.map_cons, inductionHypothesis]
      rfl
    | declaration => exact inductionHypothesis
    | comment => exact inductionHypothesis
    | unknown => exact inductionHypothesis
    | text value => exact inductionHypothesis

/-- The first element is the one that is sought, and the loop goes on behind it. -/
theorem siblingsFrom_seekElement (nodes : List XMLNode) :
    siblingsFrom (seekElement none nodes) = elements nodes := by
  induction nodes with
  | nil => rfl
  | cons node nodes inductionHypothesis =>
    cases node with
    | element name children => rfl
    | declaration => exact inductionHypothesis
    | comment => exact inductionHypothesis
    | unknown => exact inductionHypothesis
    | text value => exact inductionHypothesis

/-- No element among nodes has a name, or none is there at all where no name is given. -/
def Lacks (name : Option Bytes) (nodes : List XMLNode) : Prop :=
  ∀ other inner, .element other inner ∈ nodes → name ≠ none ∧ name ≠ some other

theorem lacks_nil (name : Option Bytes) : Lacks name [] := fun _ _ => nofun

theorem lacks_cons {name : Option Bytes} {node : XMLNode} {nodes : List XMLNode} :
    Lacks name (node :: nodes) ↔ node.toElementWithName name = none ∧ Lacks name nodes := by
  have here : (∀ other inner, node = .element other inner → name ≠ none ∧ name ≠ some other) ↔
      node.toElementWithName name = none := by
    cases node with
    | element other inner =>
      rw [XMLNode.toElementWithName]
      cases name with
      | none => simp
      | some name => simp
    | declaration => exact iff_of_true nofun rfl
    | comment => exact iff_of_true nofun rfl
    | unknown => exact iff_of_true nofun rfl
    | text value => exact iff_of_true nofun rfl
  rw [← here]
  constructor
  · intro lacks
    exact ⟨fun other inner same => lacks other inner (same ▸ List.mem_cons_self),
      fun other inner member => lacks other inner (List.mem_cons_of_mem _ member)⟩
  · rintro ⟨first, later⟩ other inner member
    rcases List.mem_cons.mp member with same | among
    · exact first other inner same.symm
    · exact later other inner among

/-- Nothing is found exactly where nothing is. -/
theorem seekElement_eq_none {name : Option Bytes} {nodes : List XMLNode} :
    seekElement name nodes = none ↔ Lacks name nodes := by
  induction nodes with
  | nil => exact iff_of_true rfl (lacks_nil name)
  | cons node nodes inductionHypothesis =>
    rw [seekElement, lacks_cons]
    cases node.toElementWithName name with
    | none => simp [inductionHypothesis]
    | some children => simp

/-- What is sought is found behind nodes that lack it. -/
theorem seekElement_append {name : Option Bytes} {front : List XMLNode} (lacks : Lacks name front)
    (back : List XMLNode) : seekElement name (front ++ back) = seekElement name back := by
  induction front with
  | nil => rfl
  | cons node front inductionHypothesis =>
    obtain ⟨here, later⟩ := lacks_cons.mp lacks
    rw [List.cons_append, seekElement, here]
    exact inductionHypothesis later

/-- What is found is the first of its kind. -/
theorem seekElement_eq_some {name : Option Bytes} {nodes : List XMLNode} {found : XMLElement} :
    seekElement name nodes = some found ↔
      ∃ front other, (name = none ∨ name = some other) ∧
        nodes = front ++ .element other found.children :: found.siblings ∧ Lacks name front := by
  constructor
  · intro seeks
    induction nodes with
    | nil => cases seeks
    | cons node nodes inductionHypothesis =>
      rw [seekElement] at seeks
      cases here : node.toElementWithName name with
      | none =>
        rw [here] at seeks
        obtain ⟨front, other, named, rfl, lacks⟩ := inductionHypothesis seeks
        exact ⟨node :: front, other, named, rfl, lacks_cons.mpr ⟨here, lacks⟩⟩
      | some children =>
        rw [here] at seeks
        obtain rfl := Option.some.inj seeks
        cases node with
        | element other inner =>
          rw [XMLNode.toElementWithName] at here
          split_ifs at here with same
          obtain rfl := Option.some.inj here
          refine ⟨[], other, ?_, rfl, lacks_nil name⟩
          cases name with
          | none => exact Or.inl rfl
          | some name => exact Or.inr (congrArg some (by simpa using same))
        | declaration => cases here
        | comment => cases here
        | unknown => cases here
        | text value => cases here
  · rintro ⟨front, other, named, rfl, lacks⟩
    rw [seekElement_append lacks, seekElement, XMLNode.toElementWithName]
    rcases named with rfl | rfl
    · rfl
    · rw [if_pos (by simp)]

/-- An element that is sought with a name. -/
theorem seekElement_named {name : Bytes} {nodes : List XMLNode} {found : XMLElement} :
    seekElement (some name) nodes = some found ↔
      ∃ front, nodes = front ++ .element name found.children :: found.siblings ∧
        Lacks (some name) front := by
  rw [seekElement_eq_some]
  constructor
  · rintro ⟨front, other, named, split, lacks⟩
    obtain rfl : name = other := Option.some.inj (named.resolve_left nofun)
    exact ⟨front, split, lacks⟩
  · rintro ⟨front, split, lacks⟩
    exact ⟨front, name, Or.inr rfl, split, lacks⟩

theorem seekElement_self (name : Bytes) (children nodes : List XMLNode) :
    seekElement (some name) (.element name children :: nodes) = some ⟨children, nodes⟩ := by
  rw [seekElement, XMLNode.toElementWithName, if_pos (by simp)]

theorem seekElement_other {name other : Bytes} (different : name ≠ other)
    (children nodes : List XMLNode) :
    seekElement (some name) (.element other children :: nodes) = seekElement (some name) nodes := by
  rw [seekElement, XMLNode.toElementWithName, if_neg (by simpa using different)]

end Tinyxml2

end SearchEngine
