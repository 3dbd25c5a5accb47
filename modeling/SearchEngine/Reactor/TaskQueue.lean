/-
This file models the queue of tasks as it is shared by threads.

A call of `push`, `pop` or `wakeup` is cut into the steps in which other threads
can see it: locking the mutex, testing, the release of the mutex in a wait, coming
back from a wait, changing the queue, unlocking, and the signals. The flag
`_clearFlag` is set outside the mutex. `push` tests the queue once and takes any
return from `_condFull.wait` as room, `pop` tests again.

The log records the tasks on their way through the queue. Nothing reads it.
-/

import SearchEngine.Basic
import SearchEngine.Library.Interleaving
import SearchEngine.Library.Monitor

namespace SearchEngine

/-- The condition variables of a queue. -/
inductive Cond where
  | condFull
  | condEmpty
deriving DecidableEq

/-- Where a thread stands in the code of the queue, with the task it pushes or has taken. -/
inductive Point (Task : Type*) where
  | idle
  | pushLock (elem : Task)
  | pushTest (elem : Task)
  | pushWait (elem : Task)
  | pushBlocked (elem : Task)
  | pushEnqueue (elem : Task)
  | pushUnlock (elem : Task)
  | pushNotify (elem : Task)
  | popLock
  | popTest
  | popWait
  | popBlocked
  | popTake
  | popNotify (data : Task)
  | popUnlock (result : Option Task)
  | popped (result : Option Task)
  | wakeFlag
  | wakeBroadcast
  | undefined
deriving DecidableEq

/-- The points at which a thread owns the mutex. -/
def Point.critical {Task : Type*} : Point Task → Bool
  | .pushTest _ | .pushWait _ | .pushEnqueue _ | .pushUnlock _ => true
  | .popTest | .popWait | .popTake | .popNotify _ | .popUnlock _ | .undefined => true
  | _ => false

/-- The condition a thread waits on, or was woken from. -/
def Point.blockedOn {Task : Type*} : Point Task → Option Cond
  | .pushBlocked _ => some .condFull
  | .popBlocked => some .condEmpty
  | _ => none

/-- What a thread does next: it calls a function of the queue, takes the result of `pop`, wakes
without a signal, or takes its next step, in which a signal wakes the chosen thread. -/
inductive Label (Thread Task : Type*) where
  | push (elem : Task)
  | pop
  | wakeup
  | collect
  | spurious
  | next (chosen : Thread)

/-- The tasks that were given to `push`, that were put into the queue, whose `push` has returned,
that were taken from the queue, and that `pop` has handed over; and whether a `wakeup` has
finished. -/
structure Log (Task : Type*) where
  called : List Task
  entered : List Task
  returned : List Task
  left : List Task
  collected : List Task
  woken : Bool

/-- A queue of tasks with its mutex and conditions. -/
structure TaskQueue (Thread Task : Type*) where
  capacity : Int
  que : List Task
  clearFlag : Bool
  monitor : Monitor Thread Cond
  log : Log Task

variable {Thread Task : Type*} [DecidableEq Thread]

namespace TaskQueue

/-- The constructor. -/
def new (capacity : Int) : TaskQueue Thread Task :=
  ⟨capacity, [], false, .free, ⟨[], [], [], [], [], false⟩⟩

/-- The capacity as it is compared with the size of the queue, an `int` taken for a `size_t`. -/
def limit (queue : TaskQueue Thread Task) : Nat := (queue.capacity % 2 ^ 64).toNat

def isFull (queue : TaskQueue Thread Task) : Bool := queue.que.length == queue.limit

def isEmpty (queue : TaskQueue Thread Task) : Bool := queue.que.isEmpty

/-- `_que.push`. -/
def enqueue (queue : TaskQueue Thread Task) (elem : Task) : TaskQueue Thread Task :=
  { queue with
    que := queue.que ++ [elem]
    log.entered := queue.log.entered ++ [elem] }

/-- `_que.front` and `_que.pop`. -/
def dequeue (queue : TaskQueue Thread Task) : TaskQueue Thread Task × Point Task :=
  match queue.que with
  | [] => (queue, .undefined)
  | data :: rest =>
    ({ queue with que := rest, log.left := queue.log.left ++ [data] }, .popNotify data)

/-- The mutex and the conditions after a step, if the step can be taken. -/
def withMonitor (queue : TaskQueue Thread Task) (monitor : Option (Monitor Thread Cond))
    (place : Point Task) : Option (TaskQueue Thread Task × Point Task) :=
  monitor.map fun monitor => ({ queue with monitor }, place)

/-- The next step of a thread inside a function of the queue. -/
def advance (queue : TaskQueue Thread Task) (thread chosen : Thread) :
    Point Task → Option (TaskQueue Thread Task × Point Task)
  | .pushLock elem => queue.withMonitor (queue.monitor.lock thread) (.pushTest elem)
  | .pushTest elem => some (queue, if queue.isFull then .pushWait elem else .pushEnqueue elem)
  | .pushWait elem => queue.withMonitor (queue.monitor.wait thread .condFull) (.pushBlocked elem)
  | .pushBlocked elem =>
    -- An `if` guards this wait: the queue is not tested again.
    queue.withMonitor (queue.monitor.relock thread .condFull) (.pushEnqueue elem)
  | .pushEnqueue elem => some (queue.enqueue elem, .pushUnlock elem)
  | .pushUnlock elem => queue.withMonitor queue.monitor.unlock (.pushNotify elem)
  | .pushNotify elem =>
    { queue with log.returned := queue.log.returned ++ [elem] }.withMonitor
      (queue.monitor.notify .condEmpty chosen) .idle
  | .popLock => queue.withMonitor (queue.monitor.lock thread) .popTest
  | .popTest =>
    some (queue, if !queue.clearFlag && queue.isEmpty then .popWait else .popTake)
  | .popWait => queue.withMonitor (queue.monitor.wait thread .condEmpty) .popBlocked
  | .popBlocked => queue.withMonitor (queue.monitor.relock thread .condEmpty) .popTest
  | .popTake => some (if !queue.clearFlag then queue.dequeue else (queue, .popUnlock none))
  | .popNotify data =>
    queue.withMonitor (queue.monitor.notify .condFull chosen) (.popUnlock (some data))
  | .popUnlock result => queue.withMonitor queue.monitor.unlock (.popped result)
  -- `wakeup` does not lock the mutex.
  | .wakeFlag => some ({ queue with clearFlag := true }, .wakeBroadcast)
  | .wakeBroadcast =>
    { queue with log.woken := true }.withMonitor (queue.monitor.notifyAll .condEmpty) .idle
  | .idle => none
  | .popped _ => none
  | .undefined => none

/-- A thread that waits stops waiting, without a signal. -/
def wakeSpuriously (queue : TaskQueue Thread Task) (thread : Thread) :
    Point Task → Option (TaskQueue Thread Task × Point Task)
  | .pushBlocked elem => queue.withMonitor (queue.monitor.wake thread .condFull) (.pushBlocked elem)
  | .popBlocked => queue.withMonitor (queue.monitor.wake thread .condEmpty) .popBlocked
  | _ => none

/-- What a thread does next. -/
def act (thread : Thread) (label : Label Thread Task) (place : Point Task)
    (queue : TaskQueue Thread Task) : Option (TaskQueue Thread Task × Point Task) :=
  match label, place with
  | .push elem, .idle =>
    some ({ queue with log.called := queue.log.called ++ [elem] }, .pushLock elem)
  | .pop, .idle => some (queue, .popLock)
  | .wakeup, .idle => some (queue, .wakeFlag)
  | .collect, .popped result =>
    some ({ queue with log.collected := queue.log.collected ++ result.toList }, .idle)
  | .spurious, place => queue.wakeSpuriously thread place
  | .next chosen, place => queue.advance thread chosen place
  | _, _ => none

/-! ### What a step can do -/

/-- The steps of a thread, one constructor for each way through the code. -/
inductive Acts (thread : Thread) (queue : TaskQueue Thread Task) :
    Label Thread Task → Point Task → TaskQueue Thread Task → Point Task → Prop
  | push (elem : Task) :
    Acts thread queue (.push elem) .idle { queue with log.called := queue.log.called ++ [elem] }
      (.pushLock elem)
  | pop : Acts thread queue .pop .idle queue .popLock
  | wakeup : Acts thread queue .wakeup .idle queue .wakeFlag
  | collect (result : Option Task) :
    Acts thread queue .collect (.popped result)
      { queue with log.collected := queue.log.collected ++ result.toList } .idle
  | pushSpurious (elem : Task) :
    Acts thread queue .spurious (.pushBlocked elem)
      { queue with monitor := queue.monitor.wake thread .condFull } (.pushBlocked elem)
  | popSpurious :
    Acts thread queue .spurious .popBlocked
      { queue with monitor := queue.monitor.wake thread .condEmpty } .popBlocked
  | pushLock {chosen : Thread} (elem : Task) (free : queue.monitor.owner = none) :
    Acts thread queue (.next chosen) (.pushLock elem)
      { queue with monitor := { queue.monitor with owner := some thread } } (.pushTest elem)
  | pushFull {chosen : Thread} (elem : Task) (full : queue.isFull = true) :
    Acts thread queue (.next chosen) (.pushTest elem) queue (.pushWait elem)
  | pushRoom {chosen : Thread} (elem : Task) (room : queue.isFull = false) :
    Acts thread queue (.next chosen) (.pushTest elem) queue (.pushEnqueue elem)
  | pushWait {chosen : Thread} (elem : Task) :
    Acts thread queue (.next chosen) (.pushWait elem)
      { queue with monitor := queue.monitor.wait thread .condFull } (.pushBlocked elem)
  | pushBack {chosen : Thread} (elem : Task) (woken : thread ∉ queue.monitor.waiting .condFull)
      (free : queue.monitor.owner = none) :
    Acts thread queue (.next chosen) (.pushBlocked elem)
      { queue with monitor := { queue.monitor with owner := some thread } } (.pushEnqueue elem)
  | pushEnqueue {chosen : Thread} (elem : Task) :
    Acts thread queue (.next chosen) (.pushEnqueue elem) (queue.enqueue elem) (.pushUnlock elem)
  | pushUnlock {chosen : Thread} (elem : Task) :
    Acts thread queue (.next chosen) (.pushUnlock elem)
      { queue with monitor := queue.monitor.unlock } (.pushNotify elem)
  | pushNotify (elem : Task) (chosen : Thread) (monitor : Monitor Thread Cond)
      (signalled : queue.monitor.notify .condEmpty chosen = some monitor) :
    Acts thread queue (.next chosen) (.pushNotify elem)
      { queue with monitor, log.returned := queue.log.returned ++ [elem] } .idle
  | popLock {chosen : Thread} (free : queue.monitor.owner = none) :
    Acts thread queue (.next chosen) .popLock
      { queue with monitor := { queue.monitor with owner := some thread } } .popTest
  | popEmpty {chosen : Thread} (running : queue.clearFlag = false) (empty : queue.que = []) :
    Acts thread queue (.next chosen) .popTest queue .popWait
  | popReady {chosen : Thread} (ready : queue.clearFlag = true ∨ queue.que ≠ []) :
    Acts thread queue (.next chosen) .popTest queue .popTake
  | popWait {chosen : Thread} :
    Acts thread queue (.next chosen) .popWait
      { queue with monitor := queue.monitor.wait thread .condEmpty } .popBlocked
  | popBack {chosen : Thread} (woken : thread ∉ queue.monitor.waiting .condEmpty)
      (free : queue.monitor.owner = none) :
    Acts thread queue (.next chosen) .popBlocked
      { queue with monitor := { queue.monitor with owner := some thread } } .popTest
  | popFront {chosen : Thread} (running : queue.clearFlag = false) (empty : queue.que = []) :
    Acts thread queue (.next chosen) .popTake queue .undefined
  | popTake {chosen : Thread} (running : queue.clearFlag = false) (data : Task) (rest : List Task)
      (front : queue.que = data :: rest) :
    Acts thread queue (.next chosen) .popTake
      { queue with que := rest, log.left := queue.log.left ++ [data] } (.popNotify data)
  | popCleared {chosen : Thread} (cleared : queue.clearFlag = true) :
    Acts thread queue (.next chosen) .popTake queue (.popUnlock none)
  | popNotify (data : Task) (chosen : Thread) (monitor : Monitor Thread Cond)
      (signalled : queue.monitor.notify .condFull chosen = some monitor) :
    Acts thread queue (.next chosen) (.popNotify data) { queue with monitor }
      (.popUnlock (some data))
  | popUnlock {chosen : Thread} (result : Option Task) :
    Acts thread queue (.next chosen) (.popUnlock result)
      { queue with monitor := queue.monitor.unlock } (.popped result)
  | wakeFlag {chosen : Thread} :
    Acts thread queue (.next chosen) .wakeFlag { queue with clearFlag := true } .wakeBroadcast
  | wakeBroadcast {chosen : Thread} :
    Acts thread queue (.next chosen) .wakeBroadcast
      { queue with monitor := queue.monitor.notifyAll .condEmpty, log.woken := true } .idle

variable {queue reached : TaskQueue Thread Task} {thread chosen : Thread}
  {label : Label Thread Task} {place next : Point Task}

omit [DecidableEq Thread] in
theorem withMonitor_eq_some {monitor : Option (Monitor Thread Cond)} :
    queue.withMonitor monitor place = some (reached, next) ↔
      ∃ held, monitor = some held ∧ { queue with monitor := held } = reached ∧ place = next := by
  simp [withMonitor]

theorem acts_of_wakeSpuriously
    (acts : queue.wakeSpuriously thread place = some (reached, next)) :
    Acts thread queue .spurious place reached next := by
  cases place with
  | pushBlocked elem =>
    cases acts
    exact .pushSpurious elem
  | popBlocked =>
    cases acts
    exact .popSpurious
  | _ => cases acts

theorem acts_of_advance (acts : queue.advance thread chosen place = some (reached, next)) :
    Acts thread queue (.next chosen) place reached next := by
  cases place with
  | pushLock elem =>
    obtain ⟨_, locked, rfl, rfl⟩ := withMonitor_eq_some.mp acts
    obtain ⟨free, rfl⟩ := Monitor.lock_eq_some.mp locked
    exact .pushLock elem free
  | pushTest elem =>
    cases acts
    cases full : queue.isFull with
    | true => exact .pushFull elem full
    | false => exact .pushRoom elem full
  | pushBlocked elem =>
    obtain ⟨_, locked, rfl, rfl⟩ := withMonitor_eq_some.mp acts
    obtain ⟨woken, free, rfl⟩ := Monitor.relock_eq_some.mp locked
    exact .pushBack elem woken free
  | pushNotify elem =>
    obtain ⟨_, signalled, rfl, rfl⟩ := withMonitor_eq_some.mp acts
    exact .pushNotify elem chosen _ signalled
  | popLock =>
    obtain ⟨_, locked, rfl, rfl⟩ := withMonitor_eq_some.mp acts
    obtain ⟨free, rfl⟩ := Monitor.lock_eq_some.mp locked
    exact .popLock free
  | popTest =>
    cases acts
    cases flag : queue.clearFlag with
    | true => exact .popReady (.inl flag)
    | false =>
      cases empty : queue.que with
      | nil => simpa [isEmpty, empty] using Acts.popEmpty flag empty
      | cons data rest => simpa [isEmpty, empty] using Acts.popReady (.inr (by simp [empty]))
  | popBlocked =>
    obtain ⟨_, locked, rfl, rfl⟩ := withMonitor_eq_some.mp acts
    obtain ⟨woken, free, rfl⟩ := Monitor.relock_eq_some.mp locked
    exact .popBack woken free
  | popTake =>
    have taken := Option.some_injective _ acts
    cases flag : queue.clearFlag with
    | true =>
      simp only [flag, Bool.not_true, Bool.false_eq_true, if_false] at taken
      cases taken
      exact .popCleared flag
    | false =>
      simp only [flag, Bool.not_false, if_true] at taken
      cases front : queue.que with
      | nil =>
        rw [dequeue, front] at taken
        cases taken
        exact .popFront flag front
      | cons data rest =>
        rw [dequeue, front] at taken
        cases taken
        exact .popTake flag data rest front
  | popNotify data =>
    obtain ⟨_, signalled, rfl, rfl⟩ := withMonitor_eq_some.mp acts
    exact .popNotify data chosen _ signalled
  | idle | popped | undefined => cases acts
  | pushWait | pushEnqueue | pushUnlock | popWait | popUnlock | wakeFlag | wakeBroadcast =>
    cases acts
    constructor

/-- Every step is one of them. -/
theorem acts_of_act (acts : act thread label place queue = some (reached, next)) :
    Acts thread queue label place reached next := by
  unfold act at acts
  split at acts
  case h_1 elem =>
    cases acts
    exact .push elem
  case h_2 =>
    cases acts
    exact .pop
  case h_3 =>
    cases acts
    exact .wakeup
  case h_4 result =>
    cases acts
    exact .collect result
  case h_5 => exact acts_of_wakeSpuriously acts
  case h_6 => exact acts_of_advance acts
  case h_7 => cases acts

/-- Every step locks the mutex, unlocks it, or leaves it alone. -/
theorem Acts.use (acts : Acts thread queue label place reached next) :
    Monitor.Use thread queue.monitor reached.monitor (place.critical = true)
      (next.critical = true) := by
  cases acts with
  | pushLock _ free | popLock free => exact .take free rfl rfl
  | pushBack _ _ free | popBack _ free => exact .take free rfl rfl
  | pushWait | pushUnlock | popWait | popUnlock => exact .give rfl rfl Bool.false_ne_true
  | pushNotify _ _ _ signalled | popNotify _ _ _ signalled =>
    exact .keep (Monitor.owner_of_notify signalled) Iff.rfl
  | _ => exact .keep rfl Iff.rfl

/-- Only the owner of the mutex changes the queue. -/
theorem Acts.que_eq (acts : Acts thread queue label place reached next)
    (outside : place.critical = false) : reached.que = queue.que := by
  cases acts with
  | pushEnqueue | popTake => cases outside
  | _ => rfl

/-- The flag is never cleared. -/
theorem Acts.clearFlag (acts : Acts thread queue label place reached next)
    (cleared : queue.clearFlag = true) : reached.clearFlag = true := by
  cases acts <;> first | exact cleared | rfl

theorem Acts.capacity_eq (acts : Acts thread queue label place reached next) :
    reached.capacity = queue.capacity := by
  cases acts <;> rfl

/-- A thread that waits after a step has waited before, or it has just begun to. -/
theorem Acts.waiting (acts : Acts thread queue label place reached next) {cond : Cond}
    {waiter : Thread} (waits : waiter ∈ reached.monitor.waiting cond) :
    waiter ∈ queue.monitor.waiting cond ∨
      waiter = thread ∧ place.blockedOn = none ∧ next.blockedOn = some cond := by
  cases acts with
  | pushWait | popWait =>
    rcases Monitor.mem_waiting_wait.mp waits with ⟨rfl, rfl⟩ | before
    · exact .inr ⟨rfl, rfl, rfl⟩
    · exact .inl before
  | pushSpurious | popSpurious => exact .inl (Monitor.mem_waiting_wake.mp waits).1
  | pushNotify _ _ _ signalled | popNotify _ _ _ signalled =>
    exact .inl (Monitor.mem_waiting_of_notify signalled waits)
  | wakeBroadcast => exact .inl (Monitor.mem_waiting_notifyAll.mp waits).1
  | _ => exact .inl waits

/-- A thread comes back from a wait only when it waits no longer. -/
theorem Acts.blockedOn (acts : Acts thread queue label place reached next) {cond : Cond}
    (waits : thread ∈ reached.monitor.waiting cond) (blocked : place.blockedOn = some cond) :
    next.blockedOn = some cond := by
  cases acts with
  | pushBack _ woken | popBack woken =>
    cases blocked
    exact absurd waits woken
  | pushSpurious | popSpurious => exact blocked
  | _ => cases blocked

/-! ### What holds at the places -/

/-- What the test at the beginning of `pop` has found stays true up to the place that relies on
it, so `pop` never asks an empty queue for its front. -/
def Tested (queue : TaskQueue Thread Task) : Point Task → Prop
  | .popWait => queue.que = []
  | .popTake => queue.clearFlag = true ∨ queue.que ≠ []
  | .undefined => False
  | _ => True

/-- A thread is in a critical section exactly when it owns the mutex, it waits only where it has
called `wait`, and what it has tested is still so. -/
structure Sound (queue : TaskQueue Thread Task) (thread : Thread) (place : Point Task) : Prop where
  exclusive : place.critical = true ↔ queue.monitor.owner = some thread
  blocked : ∀ cond, thread ∈ queue.monitor.waiting cond → place.blockedOn = some cond
  tested : queue.Tested place

theorem Tested.acts (acts : Acts thread queue label place reached next)
    (tested : queue.Tested place) : reached.Tested next := by
  cases acts with
  | popEmpty _ empty => exact empty
  | popReady ready => exact ready
  | popFront running empty =>
    refine tested.elim (fun cleared => ?_) (absurd empty)
    exact Bool.false_ne_true (running.symm.trans cleared)
  | _ => trivial

omit [DecidableEq Thread] in
theorem Tested.of_que_eq (tested : queue.Tested place) (same : reached.que = queue.que)
    (flag : queue.clearFlag = true → reached.clearFlag = true) : reached.Tested place := by
  cases place with
  | popWait => exact same.trans tested
  | popTake => exact tested.imp flag (by rw [same]; exact id)
  | undefined => exact tested
  | _ => trivial

omit [DecidableEq Thread] in
/-- Outside the critical sections nothing is relied on. -/
theorem Tested.of_outside (outside : place.critical = false) : queue.Tested place := by
  cases place with
  | popWait | popTake | undefined => cases outside
  | _ => trivial

omit [DecidableEq Thread] in
/-- While another thread is in a critical section, a thread is outside. -/
theorem Sound.outside (sound : queue.Sound thread place) {bystander : Thread}
    (different : bystander ≠ thread) {standing : Point Task}
    (bystanders : queue.Sound bystander standing) (inside : standing.critical = true) :
    place.critical = false := by
  refine Bool.eq_false_iff.mpr fun critical => different ?_
  have owner := bystanders.exclusive.mp inside
  exact Option.some_injective _ (owner.symm.trans (sound.exclusive.mp critical))

/-- A step keeps the thread sound that takes it. -/
theorem Sound.own (acts : Acts thread queue label place reached next)
    (sound : queue.Sound thread place) : reached.Sound thread next where
  exclusive := acts.use.own sound.exclusive
  blocked := by
    intro cond waits
    rcases acts.waiting waits with before | ⟨-, -, blocked⟩
    · exact acts.blockedOn waits (sound.blocked cond before)
    · exact blocked
  tested := sound.tested.acts acts

/-- A step keeps the other threads sound: while one of them relies on the queue, it owns the mutex,
so the step is none that changes the queue. -/
theorem Sound.others (acts : Acts thread queue label place reached next)
    (sound : queue.Sound thread place) {bystander : Thread} (different : bystander ≠ thread)
    {standing : Point Task} (bystanders : queue.Sound bystander standing) :
    reached.Sound bystander standing where
  exclusive := acts.use.others sound.exclusive different bystanders.exclusive
  blocked := by
    intro cond waits
    rcases acts.waiting waits with before | ⟨same, -, -⟩
    · exact bystanders.blocked cond before
    · exact absurd same different
  tested := by
    cases inside : standing.critical with
    | false => exact .of_outside inside
    | true =>
      have outside := sound.outside different bystanders inside
      exact bystanders.tested.of_que_eq (acts.que_eq outside) acts.clearFlag

end TaskQueue

/-! ### Any number of threads -/

/-- A queue and the threads that use it. -/
abbrev Callers (Thread Task : Type*) :=
  Interleaving.Threads Thread (TaskQueue Thread Task) (Point Task)

namespace Callers

/-- Nobody has called a function of the queue yet. -/
def start (capacity : Int) : Callers Thread Task := ⟨.new capacity, fun _ => .idle⟩

/-- One thread takes a step. -/
def step : Callers Thread Task → Thread × Label Thread Task → Callers Thread Task :=
  Interleaving.step TaskQueue.act

theorem step_next {callers : Callers Thread Task} {thread chosen : Thread}
    {reached : TaskQueue Thread Task} {place next : Point Task}
    (stands : callers.place thread = place)
    (advances : callers.shared.advance thread chosen place = some (reached, next)) :
    callers.step (thread, .next chosen) =
      ⟨reached, Function.update callers.place thread next⟩ := by
  refine Interleaving.step_of_some ?_
  rw [stands]
  exact advances

/-- All threads are sound. -/
def Sound (callers : Callers Thread Task) : Prop :=
  Interleaving.Asserted TaskQueue.Sound callers

omit [DecidableEq Thread] in
theorem sound_start (capacity : Int) : (start capacity : Callers Thread Task).Sound := by
  intro thread
  refine ⟨iff_of_false Bool.false_ne_true nofun, fun cond waits => ?_, trivial⟩
  exact absurd waits (Finset.notMem_empty _)

theorem sound_step {callers : Callers Thread Task} (sound : callers.Sound)
    (move : Thread × Label Thread Task) : (callers.step move).Sound := by
  refine Interleaving.asserted_step sound fun reached next acts => ?_
  have step := TaskQueue.acts_of_act acts
  refine ⟨(sound move.1).own step, fun bystander different => ?_⟩
  exact (sound move.1).others step different (sound bystander)

/-- In every run all threads stay sound. -/
theorem Sound.after {callers : Callers Thread Task} (sound : callers.Sound)
    (moves : List (Thread × Label Thread Task)) : (Runs.after step callers moves).Sound :=
  Runs.after_of_kept Sound (fun _ move sound => sound_step sound move) sound moves

theorem sound_after (capacity : Int) (moves : List (Thread × Label Thread Task)) :
    (Runs.after step (start capacity : Callers Thread Task) moves).Sound :=
  (sound_start capacity).after moves

/-- The front of an empty queue is never asked for. -/
theorem front_defined (capacity : Int) (moves : List (Thread × Label Thread Task))
    (thread : Thread) :
    (Runs.after step (start capacity : Callers Thread Task) moves).place thread ≠ .undefined := by
  intro undefined
  have tested := (sound_after capacity moves thread).tested
  rw [undefined] at tested
  exact tested

end Callers

end SearchEngine
