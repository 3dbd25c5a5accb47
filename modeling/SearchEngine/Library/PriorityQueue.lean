/-
This file fixes what is known about a priority queue.

A priority queue is any implementation of its operations that keeps the elements
it is given and has an element at its top to which none is preferred. Which of
several such elements it has there is open, so a result about every priority
queue holds for every way of breaking ties. Popping a queue until it is empty
lists its elements, in an order in which none is less than one behind it. The
ordered list is one implementation.
-/

import Mathlib

variable {Element : Type}

/-- A priority queue for a comparison: the top is an element that is less than none. -/
structure PriorityQueue (less : Element → Element → Bool) where
  Queue : Type
  empty : Queue
  push : Queue → Element → Queue
  top : Queue → Option Element
  pop : Queue → Queue
  contents : Queue → Multiset Element
  contents_empty : contents empty = 0
  contents_push : ∀ queue element, contents (push queue element) = element ::ₘ contents queue
  top_eq_none : ∀ queue, top queue = none → contents queue = 0
  contents_pop : ∀ queue element, top queue = some element →
    contents queue = element ::ₘ contents (pop queue)
  top_maximal : ∀ queue element, top queue = some element →
    ∀ other ∈ contents queue, ¬ less element other

namespace PriorityQueue

variable {less : Element → Element → Bool}

/-- Push elements one after the other. -/
def pushAll (que : PriorityQueue less) (elements : List Element) : que.Queue :=
  elements.foldl que.push que.empty

theorem contents_foldl (que : PriorityQueue less) (queue : que.Queue) (elements : List Element) :
    que.contents (elements.foldl que.push queue) = ↑elements + que.contents queue := by
  induction elements generalizing queue with
  | nil => simp
  | cons element elements inductionHypothesis =>
    rw [List.foldl_cons, inductionHypothesis, que.contents_push, ← Multiset.cons_coe,
      Multiset.add_cons, Multiset.cons_add]

theorem contents_pushAll (que : PriorityQueue less) (elements : List Element) :
    que.contents (que.pushAll elements) = ↑elements := by
  rw [pushAll, que.contents_foldl, que.contents_empty, add_zero]

/-- No element is less than one behind it. -/
def Descending (less : Element → Element → Bool) (elements : List Element) : Prop :=
  elements.Pairwise fun first second => ¬ less first second

/-! ### The order of popping -/

/-- The first elements that are popped. -/
def popped (que : PriorityQueue less) : Nat → que.Queue → List Element
  | 0, _ => []
  | count + 1, queue =>
    match que.top queue with
    | none => []
    | some element => element :: que.popped count (que.pop queue)

/-- All elements, in the order in which they are popped. -/
def drained (que : PriorityQueue less) (queue : que.Queue) : List Element :=
  que.popped (que.contents queue).card queue

variable {que : PriorityQueue less} {queue : que.Queue} {element : Element}

theorem drained_of_none (none : que.top queue = none) : que.drained queue = [] := by
  rw [drained, que.top_eq_none queue none]
  rfl

theorem drained_of_some (top : que.top queue = some element) :
    que.drained queue = element :: que.drained (que.pop queue) := by
  rw [drained, que.contents_pop queue element top, Multiset.card_cons, popped, top]
  rfl

theorem drained_eq_nil_iff : que.drained queue = [] ↔ que.top queue = none := by
  cases top : que.top queue with
  | none => simp [drained_of_none top]
  | some element => simp [drained_of_some top]

/-- The rule for what holds of every queue: by induction on the elements that are popped. -/
theorem drained_induction {motive : que.Queue → Prop}
    (empty : ∀ queue, que.top queue = none → motive queue)
    (next : ∀ queue element, que.top queue = some element → motive (que.pop queue) → motive queue)
    (queue : que.Queue) : motive queue := by
  generalize size : que.drained queue = elements
  induction elements generalizing queue with
  | nil => exact empty queue (drained_eq_nil_iff.mp size)
  | cons first elements inductionHypothesis =>
    cases top : que.top queue with
    | none => exact empty queue top
    | some element =>
      rw [drained_of_some top] at size
      exact next queue element top (inductionHypothesis _ (List.cons.inj size).2)

theorem coe_drained (queue : que.Queue) :
    (que.drained queue : Multiset Element) = que.contents queue := by
  induction queue using drained_induction with
  | empty queue top => rw [drained_of_none top, que.top_eq_none queue top, Multiset.coe_nil]
  | next queue element top rest =>
    rw [drained_of_some top, ← Multiset.cons_coe, rest, que.contents_pop queue element top]

theorem descending_drained (queue : que.Queue) : Descending less (que.drained queue) := by
  induction queue using drained_induction with
  | empty queue top =>
    rw [drained_of_none top]
    exact List.Pairwise.nil
  | next queue element top rest =>
    rw [drained_of_some top]
    refine List.pairwise_cons.mpr ⟨fun other later => que.top_maximal queue element top other ?_,
      rest⟩
    rw [que.contents_pop queue element top, ← coe_drained]
    exact Multiset.mem_cons_of_mem (Multiset.mem_coe.mpr later)

theorem mem_drained_pushAll {elements : List Element} :
    element ∈ que.drained (que.pushAll elements) ↔ element ∈ elements := by
  rw [← Multiset.mem_coe, coe_drained, contents_pushAll, Multiset.mem_coe]

/-! ### The ordered list -/

section Ordered

variable (less)

/-- Insert an element in front of the first one it is not less than. -/
def enqueue (element : Element) : List Element → List Element
  | [] => [element]
  | other :: others =>
    if less element other then other :: enqueue element others else element :: other :: others

variable {less}

theorem enqueue_perm (element : Element) (elements : List Element) :
    (enqueue less element elements).Perm (element :: elements) := by
  induction elements with
  | nil => exact List.Perm.refl _
  | cons other others inductionHypothesis =>
    rw [enqueue]
    split_ifs with behind
    · exact (inductionHypothesis.cons other).trans (List.Perm.swap _ _ _)
    · exact List.Perm.refl _

theorem Descending.enqueue (asymm : ∀ first second, less first second → ¬ less second first)
    (trans : ∀ first second third, ¬ less first second → ¬ less second third → ¬ less first third)
    {elements : List Element} (descending : Descending less elements) (element : Element) :
    Descending less (enqueue less element elements) := by
  induction elements with
  | nil => exact List.pairwise_singleton _ _
  | cons other others inductionHypothesis =>
    obtain ⟨first, rest⟩ := List.pairwise_cons.mp descending
    rw [PriorityQueue.enqueue]
    split_ifs with behind
    · refine List.pairwise_cons.mpr ⟨fun another member => ?_, inductionHypothesis rest⟩
      rcases List.mem_cons.mp ((enqueue_perm element others).mem_iff.mp member) with rfl | later
      · exact asymm _ _ behind
      · exact first another later
    · refine List.pairwise_cons.mpr ⟨fun another member => ?_, descending⟩
      rcases List.mem_cons.mp member with rfl | later
      · exact behind
      · exact trans _ _ _ behind (first another later)

/-- The ordered list as a priority queue. -/
def ordered (asymm : ∀ first second, less first second → ¬ less second first)
    (trans : ∀ first second third, ¬ less first second → ¬ less second third →
      ¬ less first third) : PriorityQueue less where
  Queue := { elements : List Element // Descending less elements }
  empty := ⟨[], List.Pairwise.nil⟩
  push queue element :=
    ⟨PriorityQueue.enqueue less element queue.1, queue.2.enqueue asymm trans element⟩
  top queue := queue.1.head?
  pop queue := ⟨queue.1.tail, List.Pairwise.tail queue.2⟩
  contents queue := ↑queue.1
  contents_empty := rfl
  contents_push queue element := Multiset.coe_eq_coe.mpr (enqueue_perm element queue.1)
  top_eq_none queue none := by
    show (↑queue.1 : Multiset Element) = 0
    rw [List.head?_eq_none_iff.mp none]
    rfl
  contents_pop queue element top := by
    obtain ⟨rest, split⟩ := List.head?_eq_some_iff.mp top
    show (↑queue.1 : Multiset Element) = element ::ₘ ↑queue.1.tail
    rw [split]
    rfl
  top_maximal queue element top other member := by
    obtain ⟨rest, split⟩ := List.head?_eq_some_iff.mp top
    have descending := queue.2
    have member : other ∈ queue.1 := member
    rw [split] at descending member
    rcases List.mem_cons.mp member with rfl | later
    · exact fun less => asymm _ _ less less
    · exact (List.pairwise_cons.mp descending).1 other later

end Ordered

end PriorityQueue
