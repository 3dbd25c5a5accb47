/-
This file develops two containers of the C++ library: the subscript of a map,
which inserts what it does not find, and the insertion into a set that is
ordered by a comparison.

A map is an association list with one entry for each key. Its subscript is
unobservable by later subscripts, since an absent key reads as the default
anyway. A set is the list of its elements in iteration order. An element is
inserted when it compares with every element that is there, so what a set drops
depends on the comparison alone.
-/

import Mathlib

namespace Containers

/-- Where keys are distinct, the key of an element is not among those in front of it. -/
theorem key_notMem_front {Element Key : Type} {key : Element → Key} {front back : List Element}
    {element : Element} (distinct : ((front ++ element :: back).map key).Nodup) :
    key element ∉ front.map key := by
  rw [List.map_append, List.map_cons] at distinct
  intro member
  exact List.disjoint_of_nodup_append distinct member List.mem_cons_self

/-! ### The subscript of a map -/

section Subscript

variable {Key Value : Type} [DecidableEq Key] [Inhabited Value]

/-- `map[key]` as an expression that is only read. -/
def value (map : AList fun _ : Key => Value) (key : Key) : Value := (map.lookup key).getD default

/-- `map[key]`: the map after it, and the value. -/
def subscript (map : AList fun _ : Key => Value) (key : Key) :
    (AList fun _ : Key => Value) × Value :=
  match map.lookup key with
  | some found => (map, found)
  | none => (map.insert key default, default)

@[simp] theorem subscript_snd (map : AList fun _ : Key => Value) (key : Key) :
    (subscript map key).2 = value map key := by
  rw [subscript, value]
  cases map.lookup key <;> rfl

/-- A subscript does not change what the map reads as. -/
@[simp] theorem value_subscript (map : AList fun _ : Key => Value) (key : Key) :
    value (subscript map key).1 = value map := by
  funext other
  rw [subscript]
  cases found : map.lookup key with
  | some present => rfl
  | none =>
    by_cases same : other = key
    · rw [same, value, AList.lookup_insert, value, found]
      rfl
    · rw [value, AList.lookup_insert_ne same, value]

theorem value_of_mem_entries {map : AList fun _ : Key => Value} {entry : Sigma fun _ : Key => Value}
    (member : entry ∈ map.entries) : value map entry.1 = entry.2 := by
  rw [value, show map.lookup entry.1 = some entry.2 from AList.mem_lookup_iff.mpr member]
  rfl

/-- A key that does not read as the default has an entry. -/
theorem mem_entries_of_value_ne {map : AList fun _ : Key => Value} {key : Key}
    (differs : value map key ≠ default) : ⟨key, value map key⟩ ∈ map.entries := by
  refine AList.mem_lookup_iff.mp ?_
  cases found : map.lookup key with
  | none =>
    rw [value, found] at differs
    exact absurd rfl differs
  | some present =>
    rw [value, found]
    rfl

theorem mem_subscript (map : AList fun _ : Key => Value) (key other : Key) :
    other ∈ (subscript map key).1 ↔ other = key ∨ other ∈ map := by
  rw [subscript]
  cases found : map.lookup key with
  | none => exact AList.mem_insert map
  | some present =>
    have member : key ∈ map := AList.lookup_isSome.mp (by rw [found]; rfl)
    refine (or_iff_right_of_imp ?_).symm
    rintro rfl
    exact member

theorem value_insert (map : AList fun _ : Key => Value) (key other : Key) (found : Value) :
    value (map.insert key found) other = if other = key then found else value map other := by
  by_cases same : other = key
  · rw [if_pos same, same, value, AList.lookup_insert]
    rfl
  · rw [if_neg same, value, AList.lookup_insert_ne same, value]

/-- The subscript of a key that is there changes nothing. -/
theorem subscript_of_mem {map : AList fun _ : Key => Value} {key : Key} (member : key ∈ map) :
    subscript map key = (map, value map key) := by
  obtain ⟨found, same⟩ := Option.isSome_iff_exists.mp (AList.lookup_isSome.mpr member)
  rw [subscript, value, same]
  rfl

/-- Two maps with the same keys and the same entries. -/
def SameEntries (map other : AList fun _ : Key => Value) : Prop :=
  ∀ key, map.lookup key = other.lookup key

/-- A map after subscripts of some keys: those that were not there are, with the default. -/
def LooksUp (map : AList fun _ : Key => Value) (keys : List Key)
    (final : AList fun _ : Key => Value) : Prop :=
  ∀ key, final.lookup key = (map.lookup key).or (if key ∈ keys then some default else none)

theorem looksUp_nil (map : AList fun _ : Key => Value) : LooksUp map [] map := fun key => by
  rw [if_neg List.not_mem_nil, Option.or_none]

theorem looksUp_subscript (map : AList fun _ : Key => Value) (key : Key) :
    LooksUp map [key] (subscript map key).1 := by
  intro other
  rw [subscript]
  cases found : map.lookup key with
  | some present =>
    by_cases same : other = key
    · rw [same, found]
      rfl
    · rw [if_neg (by simpa using same), Option.or_none]
  | none =>
    by_cases same : other = key
    · rw [same, AList.lookup_insert, found, if_pos (List.mem_singleton_self key)]
      rfl
    · rw [AList.lookup_insert_ne same, if_neg (by simpa using same), Option.or_none]

theorem LooksUp.trans {map middle final : AList fun _ : Key => Value} {keys later : List Key}
    (first : LooksUp map keys middle) (second : LooksUp middle later final) :
    LooksUp map (keys ++ later) final := by
  intro key
  rw [second, first, Option.or_assoc]
  by_cases early : key ∈ keys <;> by_cases late : key ∈ later <;> simp [early, late]

/-- A run of subscripts leaves a map as it was exactly when it looks up what is there. -/
theorem LooksUp.sameEntries_iff {map final : AList fun _ : Key => Value} {keys : List Key}
    (looksUp : LooksUp map keys final) : SameEntries final map ↔ ∀ key ∈ keys, key ∈ map := by
  constructor
  · intro same key member
    have looked := looksUp key
    rw [same key, if_pos member] at looked
    rw [← AList.lookup_isSome, looked, Option.isSome_or, Option.isSome_some, Bool.or_true]
  · intro present key
    rw [looksUp key]
    split_ifs with member
    · obtain ⟨found, same⟩ :=
        Option.isSome_iff_exists.mp (AList.lookup_isSome.mpr (present key member))
      rw [same, Option.some_or]
    · rw [Option.or_none]

theorem LooksUp.mono {map final : AList fun _ : Key => Value} {keys : List Key}
    (looksUp : LooksUp map keys final) {key : Key} (member : key ∈ map) : key ∈ final := by
  rw [← AList.lookup_isSome, looksUp key, Option.isSome_or, AList.lookup_isSome.mpr member,
    Bool.true_or]

/-- A key that was looked up is there. -/
theorem LooksUp.mem {map final : AList fun _ : Key => Value} {keys : List Key}
    (looksUp : LooksUp map keys final) {key : Key} (member : key ∈ keys) : key ∈ final := by
  rw [← AList.lookup_isSome, looksUp key, if_pos member, Option.isSome_or, Option.isSome_some,
    Bool.or_true]

end Subscript

/-! ### Insertion into an ordered set -/

section Place

variable {Element : Type} (less : Element → Element → Bool)

/-- `set.insert(element)` with the elements in iteration order. -/
def place (element : Element) : List Element → List Element
  | [] => [element]
  | other :: others =>
    if less element other then element :: other :: others
    else if less other element then other :: place element others
    else other :: others

/-- Two elements of which one is in front of the other. -/
def Comparable (first second : Element) : Prop := less first second ∨ less second first

instance (first second : Element) : Decidable (Comparable less first second) :=
  inferInstanceAs (Decidable (_ ∨ _))

/-- The elements in iteration order. -/
def Ordered (set : List Element) : Prop := set.Pairwise fun first second => less first second

variable {less}

instance : Std.Symm (Comparable less) := ⟨fun _ _ comparable => Or.symm comparable⟩

theorem Ordered.pairwise_comparable {set : List Element} (ordered : Ordered less set) :
    set.Pairwise (Comparable less) := ordered.imp Or.inl

theorem place_ne_nil (element : Element) (set : List Element) : place less element set ≠ [] := by
  cases set with
  | nil => exact List.cons_ne_nil _ _
  | cons other others =>
    rw [place]
    split_ifs <;> exact List.cons_ne_nil _ _

/-- An element that compares with all elements of a set is added to it. -/
theorem place_perm_of_comparable {set : List Element} {element : Element}
    (all : ∀ other ∈ set, Comparable less element other) :
    (place less element set).Perm (element :: set) := by
  induction set with
  | nil => exact List.Perm.refl _
  | cons other others inductionHypothesis =>
    obtain ⟨head, rest⟩ := List.forall_mem_cons.mp all
    rw [place]
    split_ifs with before behind
    · exact List.Perm.refl _
    · exact ((inductionHypothesis rest).cons other).trans (List.Perm.swap _ _ _)
    · exact absurd head (not_or_intro before behind)

/-- What an insertion makes of an ordered set: the element is added when it compares with all. -/
theorem place_perm (trans : ∀ first second third, less first second → less second third →
      less first third) {set : List Element} (ordered : Ordered less set) (element : Element) :
    (place less element set).Perm
      (if ∀ other ∈ set, Comparable less element other then element :: set else set) := by
  induction set with
  | nil => simp [place]
  | cons other others inductionHypothesis =>
    obtain ⟨first, rest⟩ := List.pairwise_cons.mp ordered
    by_cases before : less element other
    · have all : ∀ another ∈ other :: others, Comparable less element another := by
        intro another member
        rcases List.mem_cons.mp member with rfl | later
        · exact Or.inl before
        · exact Or.inl (trans _ _ _ before (first another later))
      rw [place, if_pos before, if_pos all]
    · rw [place, if_neg before]
      by_cases behind : less other element
      · rw [if_pos behind]
        have head : Comparable less element other := Or.inr behind
        simp only [List.forall_mem_cons, head, true_and]
        refine ((inductionHypothesis rest).cons other).trans ?_
        split_ifs with all
        · exact List.Perm.swap _ _ _
        · exact List.Perm.refl _
      · rw [if_neg behind, if_neg]
        intro all
        exact (all other List.mem_cons_self).elim before behind

theorem place_ordered (trans : ∀ first second third, less first second → less second third →
      less first third) {set : List Element} (ordered : Ordered less set) (element : Element) :
    Ordered less (place less element set) := by
  induction set with
  | nil => exact List.pairwise_singleton _ _
  | cons other others inductionHypothesis =>
    obtain ⟨first, rest⟩ := List.pairwise_cons.mp ordered
    by_cases before : less element other
    · rw [place, if_pos before]
      refine List.pairwise_cons.mpr ⟨fun another member => ?_, ordered⟩
      rcases List.mem_cons.mp member with rfl | later
      · exact before
      · exact trans _ _ _ before (first another later)
    · rw [place, if_neg before]
      by_cases behind : less other element
      · rw [if_pos behind]
        refine List.pairwise_cons.mpr ⟨fun another member => ?_, inductionHypothesis rest⟩
        have member := (place_perm trans rest element).mem_iff.mp member
        split_ifs at member with all
        · rcases List.mem_cons.mp member with rfl | later
          · exact behind
          · exact first another later
        · exact first another member
      · rw [if_neg behind]
        exact ordered

theorem mem_place {set : List Element}
    (trans : ∀ first second third, less first second → less second third → less first third)
    (ordered : Ordered less set) (element other : Element) :
    other ∈ place less element set ↔
      other ∈ set ∨ other = element ∧ ∀ another ∈ set, Comparable less element another := by
  rw [(place_perm trans ordered element).mem_iff]
  split_ifs with all
  · rw [List.mem_cons, or_comm, and_iff_left all]
  · rw [or_iff_left (fun added => all added.2)]

/-- With a total comparison every element is inserted that is not there. -/
theorem mem_place_of_total
    (total : ∀ first second, ¬ less first second → ¬ less second first → first = second)
    (element other : Element) (set : List Element) :
    other ∈ place less element set ↔ other = element ∨ other ∈ set := by
  induction set with
  | nil => simp [place]
  | cons another set inductionHypothesis =>
    rw [place]
    split_ifs with before behind
    · exact List.mem_cons
    · rw [List.mem_cons, inductionHypothesis, List.mem_cons, or_left_comm]
    · rw [total element another before behind, List.mem_cons, or_self_left]

/-- An element that is there is not inserted again. -/
theorem place_of_mem (irrefl : ∀ element, ¬ less element element)
    (trans : ∀ first second third, less first second → less second third → less first third)
    {set : List Element} (ordered : Ordered less set) {element : Element}
    (member : element ∈ set) : place less element set = set := by
  induction set with
  | nil => exact absurd member List.not_mem_nil
  | cons other others inductionHypothesis =>
    obtain ⟨first, rest⟩ := List.pairwise_cons.mp ordered
    rw [place]
    rcases List.mem_cons.mp member with rfl | later
    · rw [if_neg (irrefl element), if_neg (irrefl element)]
    · have behind := first element later
      have notBefore : ¬ less element other :=
        fun before => irrefl element (trans _ _ _ before behind)
      rw [if_neg notBefore, if_pos behind, inductionHypothesis rest later]

/-- Insertion commutes with a map that keeps the order. -/
theorem place_map {Image : Type} {lessImage : Image → Image → Bool} {image : Element → Image}
    (same : ∀ first second, lessImage (image first) (image second) = less first second)
    (element : Element) (set : List Element) :
    place lessImage (image element) (set.map image) = (place less element set).map image := by
  induction set with
  | nil => rfl
  | cons other others inductionHypothesis =>
    rw [List.map_cons, place, place, same, same, inductionHypothesis]
    split_ifs <;> rfl

/-! ### A run of insertions -/

/-- The set after inserting elements one after the other. -/
def placeAll (less : Element → Element → Bool) (elements : List Element) : List Element :=
  elements.foldl (fun set element => place less element set) []

theorem placeAll_append_singleton (elements : List Element) (element : Element) :
    placeAll less (elements ++ [element]) = place less element (placeAll less elements) := by
  rw [placeAll, List.foldl_append]
  rfl

theorem placeAll_ne_nil {elements : List Element} (nonempty : elements ≠ []) :
    placeAll less elements ≠ [] := by
  obtain ⟨front, last, rfl⟩ := (List.eq_nil_or_concat' elements).resolve_left nonempty
  rw [placeAll_append_singleton]
  exact place_ne_nil _ _

/-- Elements that compare with each other are all inserted. -/
theorem placeAll_perm {elements : List Element}
    (compare : elements.Pairwise (Comparable less)) :
    (placeAll less elements).Perm elements := by
  induction elements using List.reverseRecOn with
  | nil => exact List.Perm.refl _
  | append_singleton elements last inductionHypothesis =>
    obtain ⟨earlier, -, across⟩ := List.pairwise_append.mp compare
    have placed := inductionHypothesis earlier
    rw [placeAll_append_singleton]
    refine (place_perm_of_comparable fun other member => ?_).trans ?_
    · exact Or.symm (across other (placed.mem_iff.mp member) last (List.mem_singleton_self last))
    · exact (placed.cons last).trans (List.perm_append_singleton last elements).symm

theorem placeAll_map {Image : Type} {lessImage : Image → Image → Bool} {image : Element → Image}
    (same : ∀ first second, lessImage (image first) (image second) = less first second)
    (elements : List Element) :
    placeAll lessImage (elements.map image) = (placeAll less elements).map image := by
  induction elements using List.reverseRecOn with
  | nil => rfl
  | append_singleton elements element inductionHypothesis =>
    rw [List.map_append, List.map_singleton, placeAll_append_singleton, inductionHypothesis,
      place_map same, placeAll_append_singleton]

/-- An element is inserted, or the set has one that it does not compare with. Nothing else enters
the set, and nothing leaves it. -/
theorem place_cases (element : Element) (set : List Element) :
    (∀ other, other ∈ place less element set → other = element ∨ other ∈ set) ∧
      set ⊆ place less element set ∧
      (element ∈ place less element set ∨ ∃ other ∈ set, ¬ Comparable less element other) := by
  induction set with
  | nil => simp [place]
  | cons first others inductionHypothesis =>
    obtain ⟨only, kept, inserted⟩ := inductionHypothesis
    rw [place]
    split_ifs with before behind
    · exact ⟨fun other => List.mem_cons.mp, List.subset_cons_self _ _,
        Or.inl List.mem_cons_self⟩
    · refine ⟨fun other member => ?_, List.cons_subset_cons _ kept, ?_⟩
      · rcases List.mem_cons.mp member with rfl | later
        · exact Or.inr List.mem_cons_self
        · exact (only other later).imp_right (List.mem_cons_of_mem _)
      · rcases inserted with placed | ⟨other, member, apart⟩
        · exact Or.inl (List.mem_cons_of_mem _ placed)
        · exact Or.inr ⟨other, List.mem_cons_of_mem _ member, apart⟩
    · exact ⟨fun other member => Or.inr member, List.Subset.refl _,
        Or.inr ⟨first, List.mem_cons_self, not_or.mpr ⟨before, behind⟩⟩⟩

theorem mem_of_mem_placeAll {elements : List Element} {element : Element}
    (member : element ∈ placeAll less elements) : element ∈ elements := by
  induction elements using List.reverseRecOn with
  | nil => exact member
  | append_singleton elements last inductionHypothesis =>
    rw [placeAll_append_singleton] at member
    rcases (place_cases last _).1 element member with rfl | earlier
    · exact List.mem_append_right _ (List.mem_singleton_self _)
    · exact List.mem_append_left _ (inductionHypothesis earlier)

/-- Where elements that do not compare have one image, the set has the image of every element. -/
theorem mem_map_placeAll {Image : Type*} {image : Element → Image} {elements : List Element}
    (same : ∀ first ∈ elements, ∀ second ∈ elements, ¬ Comparable less first second →
      image first = image second) (found : Image) :
    found ∈ (placeAll less elements).map image ↔ found ∈ elements.map image := by
  refine ⟨fun member => ?_, fun member => ?_⟩
  · obtain ⟨element, placed, rfl⟩ := List.mem_map.mp member
    exact List.mem_map_of_mem (mem_of_mem_placeAll placed)
  · obtain ⟨element, listed, rfl⟩ := List.mem_map.mp member
    induction elements using List.reverseRecOn generalizing element with
    | nil => exact absurd listed List.not_mem_nil
    | append_singleton elements last inductionHypothesis =>
      obtain ⟨-, kept, inserted⟩ := place_cases last (placeAll less elements)
      have earlier (other : Element) (listed : other ∈ elements) :
          image other ∈ (placeAll less elements).map image :=
        inductionHypothesis (fun first firstMember second secondMember =>
          same first (List.mem_append_left _ firstMember) second
            (List.mem_append_left _ secondMember))
          other listed (List.mem_map_of_mem listed)
      rw [placeAll_append_singleton]
      rcases List.mem_append.mp listed with before | isLast
      · exact List.map_subset image kept (earlier element before)
      · obtain rfl := List.mem_singleton.mp isLast
        rcases inserted with placed | ⟨other, member, apart⟩
        · exact List.mem_map_of_mem placed
        · have listedOther := List.mem_append_left [element] (mem_of_mem_placeAll member)
          rw [same element listed other listedOther apart]
          exact List.mem_map_of_mem (kept member)

section Run

variable (trans : ∀ first second third, less first second → less second third → less first third)
include trans

theorem placeAll_ordered (elements : List Element) : Ordered less (placeAll less elements) := by
  induction elements using List.reverseRecOn with
  | nil => exact List.Pairwise.nil
  | append_singleton elements element inductionHypothesis =>
    rw [placeAll_append_singleton]
    exact place_ordered trans inductionHypothesis element

theorem mem_placeAll_append_singleton (elements : List Element) (element other : Element) :
    other ∈ placeAll less (elements ++ [element]) ↔ other ∈ placeAll less elements ∨
      other = element ∧ ∀ another ∈ placeAll less elements, Comparable less element another := by
  rw [placeAll_append_singleton, mem_place trans (placeAll_ordered trans elements)]

/-- What is in the set stays in it. -/
theorem mem_placeAll_append {front : List Element} {element : Element}
    (member : element ∈ placeAll less front) (back : List Element) :
    element ∈ placeAll less (front ++ back) := by
  induction back using List.reverseRecOn with
  | nil => rwa [List.append_nil]
  | append_singleton back last inductionHypothesis =>
    rw [← List.append_assoc]
    exact (mem_placeAll_append_singleton trans (front ++ back) last element).mpr
      (Or.inl inductionHypothesis)

/-- An element is in the set at the end, or did not compare with one in front of it. -/
theorem mem_placeAll_or (front back : List Element) (element : Element) :
    element ∈ placeAll less (front ++ element :: back) ∨
      ∃ other ∈ placeAll less front, ¬ Comparable less element other := by
  by_cases all : ∀ other ∈ placeAll less front, Comparable less element other
  · have placed : element ∈ placeAll less (front ++ [element]) :=
      (mem_placeAll_append_singleton trans front element element).mpr (Or.inr ⟨rfl, all⟩)
    have kept := mem_placeAll_append trans placed back
    rw [List.append_assoc, List.singleton_append] at kept
    exact Or.inl kept
  · push Not at all
    exact Or.inr all

/-- The set consists of chosen elements when these compare with each other, and everything else
fails to compare with a chosen one in front of it. -/
theorem mem_placeAll_iff (chosen : Element → Prop) {elements : List Element}
    (compare : ∀ first ∈ elements, ∀ second ∈ elements, chosen first → chosen second →
      first = second ∨ Comparable less first second)
    (others : ∀ front element back, elements = front ++ element :: back →
      chosen element ∨ ∃ other ∈ front, chosen other ∧ ¬ Comparable less element other)
    (element : Element) :
    element ∈ placeAll less elements ↔ element ∈ elements ∧ chosen element := by
  induction elements using List.reverseRecOn generalizing element with
  | nil => simp [placeAll]
  | append_singleton elements last inductionHypothesis =>
    have members := inductionHypothesis
      (fun first firstMember second secondMember =>
        compare first (List.mem_append_left _ firstMember) second
          (List.mem_append_left _ secondMember))
      (fun front other back split => others front other (back ++ [last]) (by simp [split]))
    rw [mem_placeAll_append_singleton trans, List.mem_append, List.mem_singleton, members element]
    constructor
    · rintro (⟨earlier, isChosen⟩ | ⟨rfl, all⟩)
      · exact ⟨Or.inl earlier, isChosen⟩
      · refine ⟨Or.inr rfl, (others elements element [] rfl).resolve_right ?_⟩
        rintro ⟨other, earlier, otherChosen, apart⟩
        exact apart (all other ((members other).mpr ⟨earlier, otherChosen⟩))
    · rintro ⟨earlier | rfl, isChosen⟩
      · exact Or.inl ⟨earlier, isChosen⟩
      · by_cases earlier : element ∈ elements
        · exact Or.inl ⟨earlier, isChosen⟩
        · refine Or.inr ⟨rfl, fun another placed => ?_⟩
          obtain ⟨anotherEarlier, anotherChosen⟩ := (members another).mp placed
          refine (compare element (by simp) another (List.mem_append_left _ anotherEarlier)
            isChosen anotherChosen).resolve_left ?_
          rintro rfl
          exact earlier anotherEarlier

end Run

end Place

/-! ### Sets under keys -/

section SetsUnderKeys

variable {Key Element : Type} [DecidableEq Key] (less : Element → Element → Bool)

/-- `map[key].insert(element)` -/
def addUnder (map : AList fun _ : Key => List Element) (key : Key) (element : Element) :
    AList fun _ : Key => List Element :=
  let (map, set) := subscript map key
  map.insert key (place less element set)

/-- Insert elements under keys, one after the other. -/
def addAllUnder (pairs : List (Key × Element)) (map : AList fun _ : Key => List Element) :
    AList fun _ : Key => List Element :=
  pairs.foldl (fun map pair => addUnder less map pair.1 pair.2) map

variable {less}

theorem addAllUnder_append (first second : List (Key × Element))
    (map : AList fun _ : Key => List Element) :
    addAllUnder less (first ++ second) map = addAllUnder less second (addAllUnder less first map) :=
  List.foldl_append

theorem value_addUnder (map : AList fun _ : Key => List Element) (key other : Key)
    (element : Element) :
    value (addUnder less map key element) other =
      if other = key then place less element (value map key) else value map other := by
  rw [addUnder]
  dsimp only
  rw [value_insert, subscript_snd, value_subscript]

theorem mem_addAllUnder (pairs : List (Key × Element)) (map : AList fun _ : Key => List Element)
    (key : Key) :
    key ∈ addAllUnder less pairs map ↔ (∃ element, (key, element) ∈ pairs) ∨ key ∈ map := by
  induction pairs generalizing map with
  | nil => simp [addAllUnder]
  | cons pair pairs inductionHypothesis =>
    have added : key ∈ addUnder less map pair.1 pair.2 ↔ key = pair.1 ∨ key ∈ map := by
      rw [addUnder]
      dsimp only
      rw [AList.mem_insert, mem_subscript, ← or_assoc, or_self]
    rw [addAllUnder, List.foldl_cons, ← addAllUnder, inductionHypothesis, added]
    constructor
    · rintro (⟨element, member⟩ | rfl | member)
      · exact Or.inl ⟨element, List.mem_cons_of_mem _ member⟩
      · exact Or.inl ⟨pair.2, List.mem_cons_self⟩
      · exact Or.inr member
    · rintro (⟨element, member⟩ | member)
      · rcases List.mem_cons.mp member with same | later
        · exact Or.inr (Or.inl (congrArg Prod.fst same))
        · exact Or.inl ⟨element, later⟩
      · exact Or.inr (Or.inr member)

/-- The set under a key has the elements that were inserted there. -/
theorem value_addAllUnder (pairs : List (Key × Element)) (key : Key) :
    value (addAllUnder less pairs ∅) key =
      placeAll less ((pairs.filter fun pair => pair.1 = key).map Prod.snd) := by
  induction pairs using List.reverseRecOn with
  | nil => rfl
  | append_singleton pairs pair inductionHypothesis =>
    rw [addAllUnder_append, List.filter_append, List.map_append]
    show value (addUnder less (addAllUnder less pairs ∅) pair.1 pair.2) key = _
    rw [value_addUnder]
    by_cases same : key = pair.1
    · rw [if_pos same, ← same, inductionHypothesis, List.filter_cons_of_pos (by simp [same]),
        List.filter_nil, List.map_singleton, placeAll_append_singleton]
    · rw [if_neg same, inductionHypothesis, List.filter_cons_of_neg (by simpa using Ne.symm same),
        List.filter_nil, List.map_nil, List.append_nil]

end SetsUnderKeys

/-! ### Counts under keys -/

section Tally

variable {Key : Type} [DecidableEq Key]

/-- `++map[key]` for keys, one after the other. -/
def tally (keys : List Key) (map : AList fun _ : Key => Int) : AList fun _ : Key => Int :=
  keys.foldl (fun map key => map.insert key (value map key + 1)) map

theorem tally_append (first second : List Key) (map : AList fun _ : Key => Int) :
    tally (first ++ second) map = tally second (tally first map) := List.foldl_append

theorem mem_tally (keys : List Key) (map : AList fun _ : Key => Int) (key : Key) :
    key ∈ tally keys map ↔ key ∈ keys ∨ key ∈ map := by
  induction keys generalizing map with
  | nil => simp [tally]
  | cons first keys inductionHypothesis =>
    rw [tally, List.foldl_cons, ← tally, inductionHypothesis, AList.mem_insert, List.mem_cons,
      or_left_comm, or_assoc]

variable [BEq Key] [LawfulBEq Key]

theorem value_tally (keys : List Key) (map : AList fun _ : Key => Int) (key : Key) :
    value (tally keys map) key = value map key + keys.count key := by
  induction keys generalizing map with
  | nil => simp [tally]
  | cons first keys inductionHypothesis =>
    rw [tally, List.foldl_cons, ← tally, inductionHypothesis, value_insert, List.count_cons]
    by_cases same : key = first
    · rw [if_pos same, if_pos (by simp [same]), same]
      push_cast
      ring
    · rw [if_neg same, if_neg (by simpa using Ne.symm same)]
      rfl

/-- The entries of a tally are the keys that were counted with their numbers. -/
theorem mem_entries_tally (keys : List Key) (entry : Sigma fun _ : Key => Int) :
    entry ∈ (tally keys ∅).entries ↔ entry.1 ∈ keys ∧ entry.2 = keys.count entry.1 := by
  have counted := value_tally keys ∅ entry.1
  rw [show value (∅ : AList fun _ : Key => Int) entry.1 = 0 from rfl, zero_add] at counted
  constructor
  · intro member
    have present : entry.1 ∈ tally keys ∅ := AList.mem_keys.mpr (List.mem_keys_of_mem member)
    refine ⟨((mem_tally keys ∅ entry.1).mp present).resolve_right (AList.notMem_empty _), ?_⟩
    rw [← value_of_mem_entries member, counted]
  · rintro ⟨member, same⟩
    have positive := List.count_pos_iff.mpr member
    have differs : value (tally keys ∅) entry.1 ≠ default := by
      rw [counted, Int.default_eq_zero]
      exact_mod_cast positive.ne'
    have listed := mem_entries_of_value_ne differs
    rwa [counted, ← same] at listed

end Tally

end Containers
