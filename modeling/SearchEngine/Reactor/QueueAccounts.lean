/-
This file keeps account of the tasks on their way through the queue.

A task that is given to `push` is held by its producer until it enters the queue,
and by its producer again until `push` returns. A task that leaves the queue is
held by the worker that has taken it until the worker has the result of `pop`.
Counted over all threads nothing is lost and nothing comes up twice, and the tasks
that have left the queue are the first of those that have entered it.
-/

import SearchEngine.Reactor.TaskQueue

namespace SearchEngine

variable {Thread Task : Type*}

namespace Point

/-- The task of a producer that has not entered the queue. -/
def entering : Point Task → Multiset Task
  | .pushLock elem | .pushTest elem | .pushWait elem | .pushBlocked elem => {elem}
  | .pushEnqueue elem => {elem}
  | _ => 0

/-- The task of a producer that has entered the queue. -/
def returning : Point Task → Multiset Task
  | .pushUnlock elem | .pushNotify elem => {elem}
  | _ => 0

/-- The task that a worker has taken from the queue. -/
def taken : Point Task → Multiset Task
  | .popNotify data => {data}
  | .popUnlock result | .popped result => (result.toList : Multiset Task)
  | _ => 0

/-- The points of a thread inside `pop`. -/
def popping : Point Task → Bool
  | .popLock | .popTest | .popWait | .popBlocked | .popTake => true
  | .popNotify _ | .popUnlock _ | .popped _ | .undefined => true
  | _ => false

theorem taken_of_not_popping {place : Point Task} (outside : place.popping = false) :
    place.taken = 0 := by
  cases place with
  | popNotify | popUnlock | popped => cases outside
  | _ => rfl

end Point

/-! ### The accounts -/

namespace Callers

/-- The accounts of the queue. -/
structure Accounted [Fintype Thread] (callers : Callers Thread Task) : Prop where
  called : Interleaving.Balanced (fun queue => (queue.log.called : Multiset Task))
    (fun queue => (queue.log.entered : Multiset Task)) Point.entering callers
  entered : Interleaving.Balanced (fun queue => (queue.log.entered : Multiset Task))
    (fun queue => (queue.log.returned : Multiset Task)) Point.returning callers
  left : Interleaving.Balanced (fun queue => (queue.log.left : Multiset Task))
    (fun queue => (queue.log.collected : Multiset Task)) Point.taken callers
  inOrder : callers.shared.log.entered = callers.shared.log.left ++ callers.shared.que

theorem accounted_start [Fintype Thread] (capacity : Int) :
    (start capacity : Callers Thread Task).Accounted where
  called := by simp [Interleaving.Balanced, start, TaskQueue.new, Point.entering]
  entered := by simp [Interleaving.Balanced, start, TaskQueue.new, Point.returning]
  left := by simp [Interleaving.Balanced, start, TaskQueue.new, Point.taken]
  inOrder := rfl

variable [Fintype Thread] {callers : Callers Thread Task}

theorem Accounted.left_inOrder (accounted : callers.Accounted) :
    callers.shared.log.left <+: callers.shared.log.entered :=
  ⟨_, accounted.inOrder.symm⟩

theorem Accounted.returned_subset (accounted : callers.Accounted) :
    callers.shared.log.returned ⊆ callers.shared.log.entered :=
  Multiset.subset_of_le accounted.entered.left_le

/-- Tasks with different names are handed over once each. -/
theorem Accounted.nodup_collected (accounted : callers.Accounted)
    (distinct : callers.shared.log.called.Nodup) : callers.shared.log.collected.Nodup := by
  have entered : callers.shared.log.entered.Nodup :=
    Multiset.nodup_of_le accounted.called.left_le distinct
  have left := entered.sublist accounted.left_inOrder.sublist
  exact Multiset.nodup_of_le accounted.left.left_le left

/-- When nobody is inside `pop`, every task that has left the queue is handed over. -/
theorem Accounted.left_eq (accounted : callers.Accounted)
    (outside : ∀ thread, (callers.place thread).popping = false) :
    (callers.shared.log.left : Multiset Task) = callers.shared.log.collected :=
  accounted.left.entered_eq fun thread => Point.taken_of_not_popping (outside thread)

end Callers

/-! ### What a step books -/

variable [DecidableEq Thread]

namespace TaskQueue

variable {queue reached : TaskQueue Thread Task} {thread : Thread} {label : Label Thread Task}
  {place next : Point Task}

theorem Acts.called_balance (acts : Acts thread queue label place reached next) :
    (reached.log.called : Multiset Task) + place.entering + queue.log.entered =
      queue.log.called + next.entering + reached.log.entered := by
  cases acts with
  | push elem => simp [Point.entering, ← Multiset.coe_add]
  | pushEnqueue elem =>
    simp only [Point.entering, enqueue, ← Multiset.coe_add, Multiset.coe_singleton]
    abel
  | _ => rfl

theorem Acts.entered_balance (acts : Acts thread queue label place reached next) :
    (reached.log.entered : Multiset Task) + place.returning + queue.log.returned =
      queue.log.entered + next.returning + reached.log.returned := by
  cases acts with
  | pushEnqueue elem => simp [Point.returning, enqueue, ← Multiset.coe_add]
  | pushNotify elem =>
    simp only [Point.returning, ← Multiset.coe_add, Multiset.coe_singleton]
    abel
  | _ => rfl

theorem Acts.left_balance (acts : Acts thread queue label place reached next) :
    (reached.log.left : Multiset Task) + place.taken + queue.log.collected =
      queue.log.left + next.taken + reached.log.collected := by
  cases acts with
  | popTake _ data => simp [Point.taken, ← Multiset.coe_add]
  | collect result =>
    simp only [Point.taken, ← Multiset.coe_add]
    abel
  | _ => rfl

/-- The tasks leave the queue in the order in which they have entered it. -/
theorem Acts.entered_eq (acts : Acts thread queue label place reached next)
    (inOrder : queue.log.entered = queue.log.left ++ queue.que) :
    reached.log.entered = reached.log.left ++ reached.que := by
  cases acts with
  | pushEnqueue elem =>
    show queue.log.entered ++ [elem] = queue.log.left ++ (queue.que ++ [elem])
    rw [inOrder, List.append_assoc]
  | popTake _ data rest front =>
    rw [inOrder, front, List.append_assoc]
    rfl
  | _ => exact inOrder

/-- Only a call of `push` names a new task. -/
theorem Acts.called_eq (acts : Acts thread queue label place reached next)
    (other : ∀ elem, label ≠ .push elem) : reached.log.called = queue.log.called := by
  cases acts with
  | push elem => exact absurd rfl (other elem)
  | _ => rfl

theorem Acts.called_push {elem : Task}
    (acts : Acts thread queue (.push elem) place reached next) :
    reached.log.called = queue.log.called ++ [elem] := by
  cases acts with
  | push => rfl

/-- Only the end of a `pop` hands a task over. -/
theorem Acts.collected_eq (acts : Acts thread queue label place reached next)
    (other : label ≠ .collect) : reached.log.collected = queue.log.collected := by
  cases acts with
  | collect => exact absurd rfl other
  | _ => rfl

/-- A thread gets into `pop` by calling it. -/
theorem Acts.popping (acts : Acts thread queue label place reached next) (other : label ≠ .pop)
    (outside : place.popping = false) : next.popping = false := by
  cases acts with
  | pop => exact absurd rfl other
  | popSpurious | popLock | popEmpty | popReady | popWait => cases outside
  | popBack | popFront | popTake | popCleared | popNotify | popUnlock => cases outside
  | _ => rfl

/-- What has left the queue stays recorded, and so does what was returned. -/
theorem Acts.left_grows (acts : Acts thread queue label place reached next) :
    queue.log.left <+: reached.log.left := by
  cases acts with
  | popTake => exact List.prefix_append ..
  | _ => exact List.prefix_refl _

theorem Acts.returned_grows (acts : Acts thread queue label place reached next) :
    queue.log.returned <+: reached.log.returned := by
  cases acts with
  | pushNotify => exact List.prefix_append ..
  | _ => exact List.prefix_refl _

end TaskQueue

namespace Callers

theorem accounted_step [Fintype Thread] {callers : Callers Thread Task}
    (accounted : callers.Accounted) (move : Thread × Label Thread Task) :
    (callers.step move).Accounted where
  called := Interleaving.balanced_step accounted.called fun _ _ acts =>
    (TaskQueue.acts_of_act acts).called_balance
  entered := Interleaving.balanced_step accounted.entered fun _ _ acts =>
    (TaskQueue.acts_of_act acts).entered_balance
  left := Interleaving.balanced_step accounted.left fun _ _ acts =>
    (TaskQueue.acts_of_act acts).left_balance
  inOrder := Interleaving.step_shared
    (fun queue : TaskQueue Thread Task => queue.log.entered = queue.log.left ++ queue.que)
    accounted.inOrder fun _ _ acts => (TaskQueue.acts_of_act acts).entered_eq accounted.inOrder

end Callers

end SearchEngine
