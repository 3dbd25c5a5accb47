/-
This file develops a mutex with condition variables, as POSIX threads have them.

A thread that waits on a condition gives the mutex up and joins the waiters in one
step, and goes on once it is woken and has the mutex again. A signal wakes one
waiter of the condition, any of them; when there is none, nothing happens. A
broadcast wakes all. A waiter may also wake without a signal.
-/

import Mathlib

variable {Thread Condition : Type*}

/-- The owner of the mutex, and the threads that wait on each condition. -/
structure Monitor (Thread Condition : Type*) where
  owner : Option Thread
  waiting : Condition → Finset Thread

namespace Monitor

/-- Nobody owns the mutex, and nobody waits. -/
def free : Monitor Thread Condition := ⟨none, fun _ => ∅⟩

/-! ### The mutex -/

/-- The thread locks the mutex, once it is free. -/
def lock (monitor : Monitor Thread Condition) (thread : Thread) :
    Option (Monitor Thread Condition) :=
  match monitor.owner with
  | none => some { monitor with owner := some thread }
  | some _ => none

/-- The owner unlocks the mutex. -/
def unlock (monitor : Monitor Thread Condition) : Monitor Thread Condition :=
  { monitor with owner := none }

variable {monitor next : Monitor Thread Condition} {thread chosen : Thread}
  {condition other : Condition}

theorem lock_eq_some :
    monitor.lock thread = some next ↔
      monitor.owner = none ∧ { monitor with owner := some thread } = next := by
  unfold lock
  cases monitor.owner <;> simp

@[simp] theorem owner_unlock : monitor.unlock.owner = none := rfl

@[simp] theorem waiting_unlock : monitor.unlock.waiting = monitor.waiting := rfl

/-- What a thread does with the mutex in a step: it leaves it alone, takes it when it is free, or
gives it up. `before` and `now` say whether the thread is in a critical section. -/
inductive Use (thread : Thread) (monitor next : Monitor Thread Condition) (before now : Prop) : Prop
  | keep (same : next.owner = monitor.owner) (stays : now ↔ before)
  | take (free : monitor.owner = none) (owns : next.owner = some thread) (enters : now)
  | give (inside : before) (free : next.owner = none) (leaves : ¬ now)

/-- The thread that takes the step is in a critical section exactly when it owns the mutex. -/
theorem Use.own {before now : Prop} (use : Use thread monitor next before now)
    (exclusive : before ↔ monitor.owner = some thread) : now ↔ next.owner = some thread := by
  cases use with
  | keep same stays => rw [stays, exclusive, same]
  | take free owns enters => exact iff_of_true enters owns
  | give inside free leaves => exact iff_of_false leaves (by rw [free]; exact nofun)

/-- So it stays for the other threads. -/
theorem Use.others {before now : Prop} (use : Use thread monitor next before now)
    (exclusive : before ↔ monitor.owner = some thread) {bystander : Thread}
    (different : bystander ≠ thread) {inside : Prop}
    (bystanders : inside ↔ monitor.owner = some bystander) :
    inside ↔ next.owner = some bystander := by
  cases use with
  | keep same stays => rw [bystanders, same]
  | take free owns enters =>
    rw [bystanders, free, owns]
    simpa using different.symm
  | give entered free leaves =>
    rw [bystanders, exclusive.mp entered, free]
    simpa using different.symm

/-! ### Broadcasts -/

variable [DecidableEq Condition]

/-- A broadcast: all waiters are woken. -/
def notifyAll (monitor : Monitor Thread Condition) (condition : Condition) :
    Monitor Thread Condition :=
  { monitor with waiting := Function.update monitor.waiting condition ∅ }

@[simp] theorem owner_notifyAll : (monitor.notifyAll condition).owner = monitor.owner := rfl

theorem mem_waiting_notifyAll {waiter : Thread} :
    waiter ∈ (monitor.notifyAll condition).waiting other ↔
      waiter ∈ monitor.waiting other ∧ other ≠ condition := by
  unfold notifyAll
  by_cases same : other = condition
  · subst same
    simp
  · simp [same]

/-! ### Waiting and signals -/

variable [DecidableEq Thread]

/-- The owner unlocks the mutex and waits on the condition. -/
def wait (monitor : Monitor Thread Condition) (thread : Thread) (condition : Condition) :
    Monitor Thread Condition where
  owner := none
  waiting := Function.update monitor.waiting condition (insert thread (monitor.waiting condition))

/-- The thread waits on the condition no longer. -/
def wake (monitor : Monitor Thread Condition) (thread : Thread) (condition : Condition) :
    Monitor Thread Condition :=
  { monitor with
    waiting :=
      Function.update monitor.waiting condition ((monitor.waiting condition).erase thread) }

/-- A waiter that was woken locks the mutex again. -/
def relock (monitor : Monitor Thread Condition) (thread : Thread) (condition : Condition) :
    Option (Monitor Thread Condition) :=
  if thread ∈ monitor.waiting condition then none else monitor.lock thread

/-- A signal: the chosen waiter is woken. There is no such step when the chosen thread does not
wait while others do. -/
def notify (monitor : Monitor Thread Condition) (condition : Condition) (chosen : Thread) :
    Option (Monitor Thread Condition) :=
  if monitor.waiting condition = ∅ then some monitor
  else if chosen ∈ monitor.waiting condition then some (monitor.wake chosen condition)
  else none

@[simp] theorem owner_wait : (monitor.wait thread condition).owner = none := rfl

theorem mem_waiting_wait {waiter : Thread} :
    waiter ∈ (monitor.wait thread condition).waiting other ↔
      (waiter = thread ∧ other = condition) ∨ waiter ∈ monitor.waiting other := by
  unfold wait
  by_cases same : other = condition
  · subst same
    simp
  · simp [same]

@[simp] theorem owner_wake : (monitor.wake thread condition).owner = monitor.owner := rfl

theorem mem_waiting_wake {waiter : Thread} :
    waiter ∈ (monitor.wake thread condition).waiting other ↔
      waiter ∈ monitor.waiting other ∧ ¬ (waiter = thread ∧ other = condition) := by
  unfold wake
  by_cases same : other = condition
  · subst same
    simp [and_comm]
  · simp [same]

omit [DecidableEq Condition] in
theorem relock_eq_some :
    monitor.relock thread condition = some next ↔
      thread ∉ monitor.waiting condition ∧ monitor.owner = none ∧
        { monitor with owner := some thread } = next := by
  unfold relock
  split_ifs with waits
  · simp [waits]
  · rw [lock_eq_some]
    simp [waits]

/-- A signal can always be given: with some waiter chosen, or with any thread when nobody waits. -/
theorem exists_notify (monitor : Monitor Thread Condition)
    (condition : Condition) (thread : Thread) :
    ∃ chosen next, monitor.notify condition chosen = some next := by
  rcases Finset.eq_empty_or_nonempty (monitor.waiting condition) with none | ⟨chosen, waits⟩
  · exact ⟨thread, monitor, if_pos none⟩
  · refine ⟨chosen, monitor.wake chosen condition, ?_⟩
    rw [notify, if_neg (Finset.ne_empty_of_mem waits), if_pos waits]

/-- A signal leaves the mutex as it is. -/
theorem owner_of_notify (signalled : monitor.notify condition chosen = some next) :
    next.owner = monitor.owner := by
  unfold notify at signalled
  split_ifs at signalled <;> cases signalled <;> rfl

/-- A signal only wakes. -/
theorem mem_waiting_of_notify (signalled : monitor.notify condition chosen = some next)
    {waiter : Thread} (waits : waiter ∈ next.waiting other) : waiter ∈ monitor.waiting other := by
  unfold notify at signalled
  split_ifs at signalled <;> cases signalled
  · exact waits
  · exact (mem_waiting_wake.mp waits).1

end Monitor
