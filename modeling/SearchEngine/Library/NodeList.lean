/-
This file models a linked list whose iterators stay valid while nodes move.

A node is an identity with the element it carries, and an iterator is the
identity of its node. Moving a node to the front keeps its identity, so the
iterators held elsewhere keep pointing to it; the list is only permuted.
-/

import Mathlib

namespace NodeList

variable {Element : Type*}

/-- Move the node of an iterator to the front. -/
def splice (iterator : Nat) (nodes : List (Nat × Element)) : Option (List (Nat × Element)) :=
  (nodes.find? (·.1 = iterator)).map fun node => node :: nodes.filter (·.1 ≠ iterator)

/-- The element an iterator points to. -/
def deref (iterator : Nat) (nodes : List (Nat × Element)) : Option Element :=
  (nodes.find? (·.1 = iterator)).map Prod.snd

/-- Replace the element an iterator points to. -/
def assign (iterator : Nat) (element : Element) (nodes : List (Nat × Element)) :
    Option (List (Nat × Element)) :=
  (nodes.find? (·.1 = iterator)).map fun _ =>
    nodes.map fun node => if node.1 = iterator then (iterator, element) else node

/-- The iterator of the first node. -/
def begin? (nodes : List (Nat × Element)) : Option Nat :=
  nodes.head?.map Prod.fst

variable {nodes : List (Nat × Element)} {iterator : Nat} {element : Element}

/-- A node is determined by its identity. -/
theorem find?_of_mem (distinct : (nodes.map Prod.fst).Nodup)
    (member : (iterator, element) ∈ nodes) :
    nodes.find? (·.1 = iterator) = some (iterator, element) := by
  induction nodes with
  | nil => cases member
  | cons head rest inductionHypothesis =>
    obtain ⟨headFresh, restDistinct⟩ := List.nodup_cons.mp distinct
    rcases List.mem_cons.mp member with same | inRest
    · simp [← same]
    · have different : head.1 ≠ iterator := by
        intro same
        exact headFresh (same ▸ List.mem_map_of_mem inRest)
      rw [List.find?_cons_of_neg (by simpa using different)]
      exact inductionHypothesis restDistinct inRest

theorem splice_of_mem (distinct : (nodes.map Prod.fst).Nodup)
    (member : (iterator, element) ∈ nodes) :
    splice iterator nodes = some ((iterator, element) :: nodes.filter (·.1 ≠ iterator)) := by
  rw [splice, find?_of_mem distinct member, Option.map_some]

/-- Moving a node to the front permutes the list. -/
theorem splice_perm (distinct : (nodes.map Prod.fst).Nodup)
    (member : (iterator, element) ∈ nodes) :
    ((iterator, element) :: nodes.filter (·.1 ≠ iterator)).Perm nodes := by
  have split := List.filter_append_perm (fun node : Nat × Element => decide (node.1 = iterator))
    nodes
  have single : nodes.filter (fun node => decide (node.1 = iterator)) = [(iterator, element)] := by
    refine List.perm_singleton.mp ((List.perm_ext_iff_of_nodup
      ((List.Nodup.of_map _ distinct).filter _) (List.nodup_singleton _)).mpr fun node => ?_)
    rw [List.mem_filter, List.mem_singleton]
    constructor
    · rintro ⟨listed, same⟩
      have found := find?_of_mem distinct (show (node.1, node.2) ∈ nodes from listed)
      rw [of_decide_eq_true same, find?_of_mem distinct member] at found
      rw [Option.some.inj found, ← of_decide_eq_true same]
    · rintro rfl
      exact ⟨member, by simp⟩
  rw [single] at split
  simpa using split

theorem deref_front (rest : List (Nat × Element)) :
    deref iterator ((iterator, element) :: rest) = some element := by
  simp [deref]

theorem assign_front (replacement : Element) {rest : List (Nat × Element)}
    (absent : ∀ node ∈ rest, node.1 ≠ iterator) :
    assign iterator replacement ((iterator, element) :: rest) =
      some ((iterator, replacement) :: rest) := by
  have untouched : rest.map
      (fun node => if node.1 = iterator then (iterator, replacement) else node) = rest := by
    conv_rhs => rw [← List.map_id rest]
    refine List.map_congr_left fun node member => ?_
    rw [if_neg (absent node member), id]
  rw [assign, List.find?_cons_of_pos (by simp), Option.map_some, List.map_cons, untouched,
    if_pos rfl]

end NodeList
