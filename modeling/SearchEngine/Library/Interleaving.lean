/-
This file develops threads that take atomic steps on one shared state.

Every thread stands at a place of its own. A program says what the thread at a
place does with the shared state, and where it stands then; a step that it cannot
take leaves everything as it is. The threads are taken in any order.

Two rules carry the invariants. An assertion about the shared state and one place
holds at every thread when each step keeps it for the thread that takes the step,
and for the threads that stand still. And what enters an account is always what
the threads hold and what has left the account, when each step balances for the
place it leaves and the place it reaches.
-/

import SearchEngine.Library.Runs

namespace Interleaving

/-- What a thread at a place does with the shared state, and the place it reaches. -/
abbrev Program (Thread Shared Place Label : Type*) :=
  Thread → Label → Place → Shared → Option (Shared × Place)

/-- The shared state and the places of the threads. -/
structure Threads (Thread Shared Place : Type*) where
  shared : Shared
  place : Thread → Place

variable {Thread Shared Place Label : Type*} [DecidableEq Thread]

/-- A thread takes a step, if it can. -/
def step (program : Program Thread Shared Place Label) (threads : Threads Thread Shared Place)
    (move : Thread × Label) : Threads Thread Shared Place :=
  match program move.1 move.2 (threads.place move.1) threads.shared with
  | some (shared, place) => ⟨shared, Function.update threads.place move.1 place⟩
  | none => threads

variable {program : Program Thread Shared Place Label} {threads : Threads Thread Shared Place}
  {move : Thread × Label} {shared : Shared} {place : Place}

theorem step_of_some
    (acts : program move.1 move.2 (threads.place move.1) threads.shared = some (shared, place)) :
    step program threads move = ⟨shared, Function.update threads.place move.1 place⟩ := by
  rw [step, acts]

theorem step_of_none
    (stands : program move.1 move.2 (threads.place move.1) threads.shared = none) :
    step program threads move = threads := by
  rw [step, stands]

/-- The other threads stand still. -/
theorem step_place_of_ne {thread : Thread} (other : thread ≠ move.1) :
    (step program threads move).place thread = threads.place thread := by
  cases acts : program move.1 move.2 (threads.place move.1) threads.shared with
  | none => rw [step_of_none acts]
  | some reached =>
    rw [step_of_some acts]
    exact Function.update_of_ne other _ _

/-- A thread stands still while only others go on. -/
theorem after_place_of_ne {thread : Thread} {moves : List (Thread × Label)}
    (others : ∀ move ∈ moves, move.1 ≠ thread) :
    (Runs.after (step program) threads moves).place thread = threads.place thread := by
  induction moves generalizing threads with
  | nil => rfl
  | cons move moves inductionHypothesis =>
    obtain ⟨other, rest⟩ := List.forall_mem_cons.mp others
    rw [Runs.after_cons, inductionHypothesis rest, step_place_of_ne other.symm]

/-- What each step that is taken keeps of the shared state is kept by every step. -/
theorem step_shared (kept : Shared → Prop) (holds : kept threads.shared)
    (keeps : ∀ shared place,
      program move.1 move.2 (threads.place move.1) threads.shared = some (shared, place) →
        kept shared) :
    kept (step program threads move).shared := by
  cases acts : program move.1 move.2 (threads.place move.1) threads.shared with
  | none => rwa [step_of_none acts]
  | some reached =>
    rw [step_of_some acts]
    exact keeps reached.1 reached.2 acts

/-! ### Assertions at the places -/

/-- The assertion holds of the shared state at every thread's place. -/
def Asserted (assertion : Shared → Thread → Place → Prop)
    (threads : Threads Thread Shared Place) : Prop :=
  ∀ thread, assertion threads.shared thread (threads.place thread)

/-- The rule for assertions: a step keeps the assertion for the thread that takes it, and does
not interfere with those of the others. -/
theorem asserted_step {assertion : Shared → Thread → Place → Prop}
    (holds : Asserted assertion threads)
    (kept : ∀ shared place,
      program move.1 move.2 (threads.place move.1) threads.shared = some (shared, place) →
        assertion shared move.1 place ∧
          ∀ thread, thread ≠ move.1 → assertion shared thread (threads.place thread)) :
    Asserted assertion (step program threads move) := by
  cases acts : program move.1 move.2 (threads.place move.1) threads.shared with
  | none =>
    rw [step_of_none acts]
    exact holds
  | some reached =>
    obtain ⟨own, others⟩ := kept reached.1 reached.2 acts
    rw [step_of_some acts]
    intro thread
    by_cases same : thread = move.1
    · subst same
      simpa only [Function.update_self] using own
    · simpa only [Function.update_of_ne same] using others thread same

/-! ### Accounts -/

variable [Fintype Thread] {Amount : Type*} [AddCancelCommMonoid Amount]

/-- When one thread goes on, the sum of what the threads hold changes by what this thread holds. -/
theorem sum_update (amount : Place → Amount) (places : Thread → Place) (thread : Thread)
    (place : Place) :
    ∑ other, amount (Function.update places thread place other) + amount (places thread) =
      ∑ other, amount (places other) + amount place := by
  rw [← Finset.add_sum_erase _ _ (Finset.mem_univ thread),
    ← Finset.add_sum_erase (f := fun other => amount (places other)) _ (Finset.mem_univ thread),
    Function.update_self]
  have others : ∑ other ∈ Finset.univ.erase thread,
      amount (Function.update places thread place other) =
        ∑ other ∈ Finset.univ.erase thread, amount (places other) := by
    refine Finset.sum_congr rfl fun other member => ?_
    rw [Function.update_of_ne (Finset.ne_of_mem_erase member)]
  rw [others]
  abel

/-- What has entered is what the threads hold and what has left. -/
def Balanced (entered left : Shared → Amount) (held : Place → Amount)
    (threads : Threads Thread Shared Place) : Prop :=
  entered threads.shared = ∑ thread, held (threads.place thread) + left threads.shared

omit [DecidableEq Thread] in
/-- No more has left than has entered. -/
theorem Balanced.left_le [PartialOrder Amount] [CanonicallyOrderedAdd Amount]
    {entered left : Shared → Amount} {held : Place → Amount}
    (balanced : Balanced entered left held threads) :
    left threads.shared ≤ entered threads.shared := by
  rw [balanced]
  exact le_add_self

omit [DecidableEq Thread] in
/-- When nobody holds anything, everything has left. -/
theorem Balanced.entered_eq {entered left : Shared → Amount} {held : Place → Amount}
    (balanced : Balanced entered left held threads)
    (nothing : ∀ thread, held (threads.place thread) = 0) :
    entered threads.shared = left threads.shared := by
  rw [balanced, Finset.sum_eq_zero fun thread _ => nothing thread, zero_add]

/-- A thread goes on, and the account stays balanced when the step balances for it. -/
theorem Balanced.update {entered left : Shared → Amount} {held : Place → Amount}
    (balanced : Balanced entered left held threads) (thread : Thread)
    (kept : entered shared + held (threads.place thread) + left threads.shared =
      entered threads.shared + held place + left shared) :
    Balanced entered left held ⟨shared, Function.update threads.place thread place⟩ := by
  have sum := sum_update held threads.place thread place
  unfold Balanced at balanced ⊢
  refine add_right_cancel (b := held (threads.place thread) + left threads.shared) ?_
  calc entered shared + (held (threads.place thread) + left threads.shared)
      = entered threads.shared + held place + left shared := by rw [← kept, add_assoc]
    _ = ∑ other, held (threads.place other) + held place + left shared + left threads.shared := by
        rw [balanced]; abel
    _ = ∑ other, held (Function.update threads.place thread place other) + left shared +
          (held (threads.place thread) + left threads.shared) := by rw [← sum]; abel

/-- The rule for accounts. -/
theorem balanced_step {entered left : Shared → Amount} {held : Place → Amount}
    (balanced : Balanced entered left held threads)
    (kept : ∀ shared place,
      program move.1 move.2 (threads.place move.1) threads.shared = some (shared, place) →
        entered shared + held (threads.place move.1) + left threads.shared =
          entered threads.shared + held place + left shared) :
    Balanced entered left held (step program threads move) := by
  cases acts : program move.1 move.2 (threads.place move.1) threads.shared with
  | none =>
    rw [step_of_none acts]
    exact balanced
  | some reached =>
    rw [step_of_some acts]
    exact balanced.update move.1 (kept reached.1 reached.2 acts)

end Interleaving
