/-
This file develops tries: trees whose edges carry the letters of words.

A node has the value of the word that ends at it, and at most one edge for each
letter. Only two things are done with the edges of a node, to look up a letter
and to set the node behind a letter, so they are a partial function. Insertion
is characterised by what a search finds afterwards: the new value under the
inserted word, and what was there before under every other word.
-/

import Mathlib

/-- A node of a trie. -/
inductive Trie (Letter Value : Type) where
  | node (value : Option Value) (next : Letter → Option (Trie Letter Value))

namespace Trie

variable {Letter Value : Type}

/-- The value of the word that ends at a node. -/
def value : Trie Letter Value → Option Value
  | node value _ => value

/-- The edges of a node. -/
def next : Trie Letter Value → Letter → Option (Trie Letter Value)
  | node _ next => next

/-- A new node. -/
def empty : Trie Letter Value := node none fun _ => none

@[simp] theorem value_node (value : Option Value) (next : Letter → Option (Trie Letter Value)) :
    (node value next).value = value := rfl

@[simp] theorem next_node (value : Option Value) (next : Letter → Option (Trie Letter Value)) :
    (node value next).next = next := rfl

@[simp] theorem value_empty : (empty : Trie Letter Value).value = none := rfl

@[simp] theorem next_empty (letter : Letter) :
    (empty : Trie Letter Value).next letter = none := rfl

/-! ### Search -/

/-- The node at the end of a word. -/
def descend (trie : Trie Letter Value) : List Letter → Option (Trie Letter Value)
  | [] => some trie
  | letter :: word => (trie.next letter).bind fun child => child.descend word

@[simp] theorem descend_nil (trie : Trie Letter Value) : trie.descend [] = some trie := rfl

theorem descend_cons (trie : Trie Letter Value) (letter : Letter) (word : List Letter) :
    trie.descend (letter :: word) = (trie.next letter).bind fun child => child.descend word := rfl

/-- The value of a word. -/
def find (trie : Trie Letter Value) (word : List Letter) : Option Value :=
  (trie.descend word).bind value

@[simp] theorem find_nil (trie : Trie Letter Value) : trie.find [] = trie.value := rfl

theorem find_cons (trie : Trie Letter Value) (letter : Letter) (word : List Letter) :
    trie.find (letter :: word) = (trie.next letter).bind fun child => child.find word := by
  rw [find, descend_cons]
  cases trie.next letter with
  | none => rfl
  | some child => rfl

@[simp] theorem find_empty (word : List Letter) :
    (empty : Trie Letter Value).find word = none := by
  cases word with
  | nil => rfl
  | cons letter word => rw [find_cons, next_empty, Option.bind_none]

/-! ### Insertion -/

/-- The node behind a letter, a new one where there is none. -/
def child (trie : Trie Letter Value) (letter : Letter) : Trie Letter Value :=
  (trie.next letter).getD empty

theorem find_child (trie : Trie Letter Value) (letter : Letter) (word : List Letter) :
    (trie.child letter).find word = trie.find (letter :: word) := by
  rw [child, find_cons]
  cases trie.next letter with
  | none => simp
  | some child => simp

section Insertion

variable [DecidableEq Letter]

/-- Set the value of a word. -/
def insert (key : List Letter) (entry : Value) (trie : Trie Letter Value) : Trie Letter Value :=
  match key with
  | [] => node (some entry) trie.next
  | letter :: key =>
    node trie.value (Function.update trie.next letter (some (insert key entry (trie.child letter))))

/-- After an insertion the inserted word has the new value, and all others have theirs. -/
theorem find_insert (key : List Letter) (entry : Value) (trie : Trie Letter Value)
    (word : List Letter) :
    (trie.insert key entry).find word = if word = key then some entry else trie.find word := by
  induction key generalizing trie word with
  | nil =>
    cases word with
    | nil => rfl
    | cons letter word =>
      rw [if_neg (List.cons_ne_nil _ _), find_cons, find_cons]
      rfl
  | cons first key inductionHypothesis =>
    rw [insert]
    cases word with
    | nil => rw [if_neg (List.cons_ne_nil _ _).symm]; rfl
    | cons letter word =>
      rw [find_cons, next_node]
      by_cases same : letter = first
      · rw [same, Function.update_self, Option.bind_some, inductionHypothesis, find_child]
        simp only [List.cons.injEq, true_and]
      · rw [Function.update_of_ne same, if_neg (by simp [same]), find_cons]

end Insertion

end Trie
