/-
This file models the thread pool over its queue of tasks.

Any number of producers call `addTask`, the workers are in `wokerDoTask` from the
beginning, and one thread calls `stop`, which the destructor does once. The steps
of a call of the queue are those of the queue; between them stand the reads and
writes of `_isExit`, the loop of `stop` that waits for an empty queue without the
mutex, and the joins. A task is named by its place among the tasks that were given
to the queue. A worker that runs a task finishes it at some later step.

The pool also records who has started which task, which tasks are finished, and
which calls of `addTask` had returned when `stop` was called. Nothing reads that.
-/

import SearchEngine.Reactor.QueueAccounts

namespace SearchEngine

/-- The threads of a pool: those that add tasks, the workers, and the one that stops the pool. -/
inductive PoolThread (Producer : Type) (threadNum : Nat) where
  | producer (producer : Producer)
  | worker (index : Fin threadNum)
  | stopper
deriving DecidableEq, Fintype

/-- Where a worker stands in `wokerDoTask`. -/
inductive WorkerPoint where
  | test
  | getTask
  | running (task : Nat)
  | exited
deriving DecidableEq

/-- Where the thread that stops the pool stands in `stop`. -/
inductive StopPoint where
  | idle
  | test
  | drain
  | setExit
  | wakeup
  | join (index : Nat)
  | returned
deriving DecidableEq

structure Threadpool (Producer : Type) (threadNum : Nat) where
  tq : Callers (PoolThread Producer threadNum) Nat
  isExit : Bool
  workers : Fin threadNum → WorkerPoint
  stopper : StopPoint
  started : List (Fin threadNum × Nat)
  finished : List Nat
  before : List Nat

namespace Threadpool

variable {Producer : Type} {threadNum : Nat}

/-- The pool after `start`. -/
def start (capacity : Int) : Threadpool Producer threadNum :=
  ⟨.start capacity, false, fun _ => .test, .idle, [], [], []⟩

/-- What happens next: a producer calls `addTask`, with a task or an empty function, a thread takes
its next step inside the queue, or wakes there without a signal, a worker takes its next step in
`wokerDoTask`, `stop` is called, or takes its next step. -/
inductive Move (Producer : Type) (threadNum : Nat) where
  | addTask (producer : Producer) (callable : Bool)
  | inQueue (thread chosen : PoolThread Producer threadNum)
  | spurious (thread : PoolThread Producer threadNum)
  | worker (index : Fin threadNum)
  | stop
  | stopper

/-- A worker goes on. -/
def workerAt (pool : Threadpool Producer threadNum) (index : Fin threadNum)
    (point : WorkerPoint) : Threadpool Producer threadNum :=
  { pool with workers := Function.update pool.workers index point }

variable {pool reached : Threadpool Producer threadNum} {index other : Fin threadNum}

@[simp] theorem workerAt_self (point : WorkerPoint) :
    (pool.workerAt index point).workers index = point := Function.update_self ..

theorem workerAt_of_ne (different : other ≠ index) (point : WorkerPoint) :
    (pool.workerAt index point).workers other = pool.workers other :=
  Function.update_of_ne different ..

variable [DecidableEq Producer]

/-- A thread calls the queue, or takes its result. -/
def call (pool : Threadpool Producer threadNum) (thread : PoolThread Producer threadNum)
    (label : Label (PoolThread Producer threadNum) Nat) : Threadpool Producer threadNum :=
  { pool with tq := pool.tq.step (thread, label) }

def addTask (pool : Threadpool Producer threadNum) (producer : Producer) (callable : Bool) :
    Threadpool Producer threadNum :=
  if callable then pool.call (.producer producer) (.push pool.tq.shared.log.called.length)
  else pool

def wokerDoTask (pool : Threadpool Producer threadNum) (index : Fin threadNum) :
    Threadpool Producer threadNum :=
  match pool.workers index with
  | .test =>
    if pool.isExit then pool.workerAt index .exited
    else (pool.call (.worker index) .pop).workerAt index .getTask
  | .getTask =>
    match pool.tq.place (.worker index) with
    | .popped (some task) =>
      { (pool.call (.worker index) .collect).workerAt index (.running task) with
        started := pool.started ++ [(index, task)] }
    | .popped none => (pool.call (.worker index) .collect).workerAt index .test
    | _ => pool
  | .running task =>
    { pool.workerAt index .test with finished := pool.finished ++ [task] }
  | .exited => pool

/-- The next step of `stop`. -/
def stopStep (pool : Threadpool Producer threadNum) : Threadpool Producer threadNum :=
  match pool.stopper with
  | .test =>
    if pool.isExit then { pool with stopper := .returned } else { pool with stopper := .drain }
  | .drain => if pool.tq.shared.isEmpty then { pool with stopper := .setExit } else pool
  | .setExit => { pool.call .stopper .wakeup with isExit := true, stopper := .wakeup }
  | .wakeup =>
    match pool.tq.place .stopper with
    | .idle => { pool with stopper := .join 0 }
    | _ => pool
  | .join index =>
    if inside : index < threadNum then
      match pool.workers ⟨index, inside⟩ with
      | .exited => { pool with stopper := .join (index + 1) }
      | _ => pool
    else { pool with stopper := .test }
  | .idle => pool
  | .returned => pool

/-- `stop` is called. -/
def stop (pool : Threadpool Producer threadNum) : Threadpool Producer threadNum :=
  match pool.stopper with
  | .idle => { pool with stopper := .test, before := pool.tq.shared.log.returned }
  | _ => pool

def step (pool : Threadpool Producer threadNum) :
    Move Producer threadNum → Threadpool Producer threadNum
  | .addTask producer callable => pool.addTask producer callable
  | .inQueue thread chosen => pool.call thread (.next chosen)
  | .spurious thread => pool.call thread .spurious
  | .worker index => pool.wokerDoTask index
  | .stop => pool.stop
  | .stopper => pool.stopStep

theorem call_place_of_ne {thread caller : PoolThread Producer threadNum}
    (different : thread ≠ caller) (label : Label (PoolThread Producer threadNum) Nat) :
    (pool.call caller label).tq.place thread = pool.tq.place thread :=
  Interleaving.step_place_of_ne different

/-! ### What a step can do -/

/-- The steps that change the pool. -/
inductive Acts (pool : Threadpool Producer threadNum) : Threadpool Producer threadNum → Prop
  | addTask (producer : Producer) :
    Acts pool (pool.call (.producer producer) (.push pool.tq.shared.log.called.length))
  | inQueue (thread chosen : PoolThread Producer threadNum) :
    Acts pool (pool.call thread (.next chosen))
  | spurious (thread : PoolThread Producer threadNum) : Acts pool (pool.call thread .spurious)
  | exits (index : Fin threadNum) (stands : pool.workers index = .test)
      (exit : pool.isExit = true) :
    Acts pool (pool.workerAt index .exited)
  | pops (index : Fin threadNum) (stands : pool.workers index = .test)
      (runs : pool.isExit = false) :
    Acts pool ((pool.call (.worker index) .pop).workerAt index .getTask)
  | starts (index : Fin threadNum) (task : Nat) (stands : pool.workers index = .getTask)
      (popped : pool.tq.place (.worker index) = .popped (some task)) :
    Acts pool { (pool.call (.worker index) .collect).workerAt index (.running task) with
      started := pool.started ++ [(index, task)] }
  | skips (index : Fin threadNum) (stands : pool.workers index = .getTask)
      (popped : pool.tq.place (.worker index) = .popped none) :
    Acts pool ((pool.call (.worker index) .collect).workerAt index .test)
  | finishes (index : Fin threadNum) (task : Nat) (stands : pool.workers index = .running task) :
    Acts pool { pool.workerAt index .test with finished := pool.finished ++ [task] }
  | stop (stands : pool.stopper = .idle) :
    Acts pool { pool with stopper := .test, before := pool.tq.shared.log.returned }
  | returns (stands : pool.stopper = .test) (exit : pool.isExit = true) :
    Acts pool { pool with stopper := .returned }
  | drains (stands : pool.stopper = .test) (runs : pool.isExit = false) :
    Acts pool { pool with stopper := .drain }
  | drained (stands : pool.stopper = .drain) (empty : pool.tq.shared.que = []) :
    Acts pool { pool with stopper := .setExit }
  | setsExit (stands : pool.stopper = .setExit) :
    Acts pool { pool.call .stopper .wakeup with isExit := true, stopper := .wakeup }
  | woken (stands : pool.stopper = .wakeup) (returned : pool.tq.place .stopper = .idle) :
    Acts pool { pool with stopper := .join 0 }
  | joins (index : Nat) (stands : pool.stopper = .join index) (inside : index < threadNum)
      (exited : pool.workers ⟨index, inside⟩ = .exited) :
    Acts pool { pool with stopper := .join (index + 1) }
  | joinedAll (index : Nat) (stands : pool.stopper = .join index) (all : ¬ index < threadNum) :
    Acts pool { pool with stopper := .test }

theorem acts_wokerDoTask (index : Fin threadNum) :
    pool.wokerDoTask index = pool ∨ pool.Acts (pool.wokerDoTask index) := by
  unfold wokerDoTask
  cases stands : pool.workers index with
  | test =>
    cases exit : pool.isExit with
    | true => exact .inr (.exits index stands exit)
    | false => exact .inr (.pops index stands exit)
  | getTask =>
    cases popped : pool.tq.place (.worker index) with
    | popped result =>
      cases result with
      | none => exact .inr (.skips index stands popped)
      | some task => exact .inr (.starts index task stands popped)
    | _ => exact .inl rfl
  | running task => exact .inr (.finishes index task stands)
  | exited => exact .inl rfl

theorem acts_stopStep : pool.stopStep = pool ∨ pool.Acts pool.stopStep := by
  unfold stopStep
  cases stands : pool.stopper with
  | test =>
    by_cases exit : pool.isExit = true
    · simp only [if_pos exit]
      exact .inr (.returns stands exit)
    · simp only [if_neg exit]
      exact .inr (.drains stands (Bool.eq_false_iff.mpr exit))
  | drain =>
    cases empty : pool.tq.shared.isEmpty with
    | true => exact .inr (.drained stands (List.isEmpty_iff.mp empty))
    | false => exact .inl rfl
  | setExit => exact .inr (.setsExit stands)
  | wakeup =>
    cases place : pool.tq.place .stopper with
    | idle => exact .inr (.woken stands place)
    | _ => exact .inl rfl
  | join index =>
    by_cases inside : index < threadNum
    · cases exited : pool.workers ⟨index, inside⟩ with
      | exited =>
        simp only [inside, dif_pos, exited]
        exact .inr (.joins index stands inside exited)
      | _ =>
        simp only [inside, dif_pos, exited]
        exact .inl trivial
    · simp only [inside, dif_neg, not_false_iff]
      exact .inr (.joinedAll index stands inside)
  | idle | returned => exact .inl rfl

/-- Every step is one of them, or changes nothing. -/
theorem acts_of_step (move : Move Producer threadNum) :
    pool.step move = pool ∨ pool.Acts (pool.step move) := by
  cases move with
  | addTask producer callable =>
    cases callable with
    | true => exact .inr (.addTask producer)
    | false => exact .inl rfl
  | inQueue thread chosen => exact .inr (.inQueue thread chosen)
  | spurious thread => exact .inr (.spurious thread)
  | worker index => exact acts_wokerDoTask index
  | stop =>
    show pool.stop = pool ∨ pool.Acts pool.stop
    unfold stop
    cases stands : pool.stopper with
    | idle => exact .inr (.stop stands)
    | _ => exact .inl rfl
  | stopper => exact acts_stopStep

/-- The rule for invariants of the pool. -/
theorem step_kept {invariant : Threadpool Producer threadNum → Prop} (holds : invariant pool)
    (kept : ∀ reached, pool.Acts reached → invariant reached)
    (move : Move Producer threadNum) : invariant (pool.step move) := by
  rcases acts_of_step move with same | acts
  · rwa [same]
  · exact kept _ acts

end Threadpool

end SearchEngine
