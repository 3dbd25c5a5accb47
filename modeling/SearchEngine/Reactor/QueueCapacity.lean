/-
This file asks whether the queue stays within its capacity.

A producer that finds the queue full waits on `_condFull`, and puts its task into
the queue once it comes back, without a second test. Between the signal and the
return another producer may take the room, and a return without a signal finds no
room at all. So the queue stays within its capacity exactly as long as every
return finds room; after a return that finds none, the next step of the producer
overfills the queue.
-/

import SearchEngine.Reactor.TaskQueue

namespace SearchEngine

variable {Thread Task : Type*}

namespace TaskQueue

variable {queue reached : TaskQueue Thread Task} {thread : Thread} {label : Label Thread Task}
  {place next : Point Task}

theorem isFull_eq_false : queue.isFull = false ↔ queue.que.length ≠ queue.limit := by
  simp [isFull]

theorem isFull_eq_true : queue.isFull = true ↔ queue.que.length = queue.limit := by
  simp [isFull]

/-- The queue holds at most as many tasks as it may. -/
def Within (queue : TaskQueue Thread Task) : Prop := queue.que.length ≤ queue.limit

/-- Where a producer is about to put a task into the queue, there is room for it. -/
def Roomy (queue : TaskQueue Thread Task) : Point Task → Prop
  | .pushEnqueue _ => queue.que.length < queue.limit
  | _ => True

variable [DecidableEq Thread]

theorem Acts.limit_eq (acts : Acts thread queue label place reached next) :
    reached.limit = queue.limit := by
  rw [limit, limit, acts.capacity_eq]

/-- A step keeps the queue within its capacity when there is room where it needs room. -/
theorem Within.acts (acts : Acts thread queue label place reached next) (within : queue.Within)
    (roomy : queue.Roomy place) : reached.Within := by
  unfold Within at within ⊢
  rw [acts.limit_eq]
  cases acts with
  | pushEnqueue elem =>
    rw [enqueue, List.length_append]
    exact roomy
  | popTake _ data rest front =>
    rw [front] at within
    exact (Nat.le_succ _).trans within
  | _ => exact within

/-- A producer reaches the queue after a test or from a wait; if the wait ends with room in the
queue, it has room. -/
theorem Roomy.acts (acts : Acts thread queue label place reached next) (within : queue.Within)
    (room : ∀ elem, place = .pushBlocked elem → next = .pushEnqueue elem → queue.isFull = false) :
    reached.Roomy next := by
  cases acts with
  | pushRoom elem notFull => exact lt_of_le_of_ne within (isFull_eq_false.mp notFull)
  | pushBack elem => exact lt_of_le_of_ne within (isFull_eq_false.mp (room elem rfl rfl))
  | _ => trivial

/-- Room does not go away while another thread owns the mutex. -/
theorem Roomy.others (acts : Acts thread queue label place reached next)
    (sound : queue.Sound thread place) {bystander : Thread} (different : bystander ≠ thread)
    {standing : Point Task} (bystanders : queue.Sound bystander standing)
    (roomy : queue.Roomy standing) : reached.Roomy standing := by
  cases standing with
  | pushEnqueue elem =>
    unfold Roomy at roomy ⊢
    rwa [acts.limit_eq, acts.que_eq (sound.outside different bystanders rfl)]
  | _ => trivial

end TaskQueue

namespace Callers

variable [DecidableEq Thread]

/-- A producer that comes back from its wait finds room. -/
def findsRoom (callers : Callers Thread Task) (move : Thread × Label Thread Task) : Bool :=
  match callers.place move.1, (callers.step move).place move.1 with
  | .pushBlocked _, .pushEnqueue _ => !callers.shared.isFull
  | _, _ => true

/-- What holds as long as every return from a wait finds room. -/
structure Bounded (callers : Callers Thread Task) : Prop where
  sound : callers.Sound
  within : callers.shared.Within
  roomy : Interleaving.Asserted (fun queue _ place => TaskQueue.Roomy queue place) callers

omit [DecidableEq Thread] in
theorem bounded_start (capacity : Int) : (start capacity : Callers Thread Task).Bounded :=
  ⟨sound_start capacity, Nat.zero_le _, fun _ => trivial⟩

theorem bounded_step {callers : Callers Thread Task} {move : Thread × Label Thread Task}
    (room : callers.findsRoom move = true) (bounded : callers.Bounded) :
    (callers.step move).Bounded where
  sound := sound_step bounded.sound move
  within := by
    refine Interleaving.step_shared _ bounded.within fun reached next acts => ?_
    exact bounded.within.acts (TaskQueue.acts_of_act acts) (bounded.roomy move.1)
  roomy := by
    refine Interleaving.asserted_step bounded.roomy fun reached next acts => ?_
    have step := TaskQueue.acts_of_act acts
    refine ⟨.acts step bounded.within fun elem waited enters => ?_, fun bystander different => ?_⟩
    · rw [findsRoom, Callers.step, Interleaving.step_of_some acts, waited] at room
      simpa [enters] using room
    · exact (bounded.roomy bystander).others step (bounded.sound move.1) different
        (bounded.sound bystander)

theorem bounded_after {capacity : Int} {moves : List (Thread × Label Thread Task)}
    (room : Runs.Throughout step (fun callers move => callers.findsRoom move = true)
      (start capacity) moves) :
    (Runs.after step (start capacity : Callers Thread Task) moves).Bounded :=
  Runs.after_of_throughout Bounded (fun _ _ => bounded_step) (bounded_start capacity) room

theorem bounded_of_passed {capacity : Int} {moves earlier : List (Thread × Label Thread Task)}
    (room : Runs.Throughout step (fun callers move => callers.findsRoom move = true)
      (start capacity) moves) (passed : earlier <+: moves) :
    (Runs.after step (start capacity : Callers Thread Task) earlier).Bounded := by
  obtain ⟨later, rfl⟩ := passed
  exact bounded_after (Runs.throughout_append.mp room).1

/-- A producer that comes back and finds no room stands before the full queue. -/
theorem of_findsRoom_eq_false {callers : Callers Thread Task}
    {move : Thread × Label Thread Task} (noRoom : callers.findsRoom move = false) :
    callers.shared.isFull = true ∧
      ∃ elem, (callers.step move).place move.1 = .pushEnqueue elem ∧
        (callers.step move).shared.que = callers.shared.que ∧
          (callers.step move).shared.limit = callers.shared.limit := by
  unfold findsRoom at noRoom
  split at noRoom
  case h_1 waited elem blocked enters =>
    refine ⟨by simpa using noRoom, elem, enters, ?_⟩
    constructor
    · refine Interleaving.step_shared
        (fun queue : TaskQueue Thread Task => queue.que = callers.shared.que) rfl ?_
      intro reached next acts
      exact (TaskQueue.acts_of_act acts).que_eq (by rw [blocked]; rfl)
    · refine Interleaving.step_shared
        (fun queue : TaskQueue Thread Task => queue.limit = callers.shared.limit) rfl ?_
      intro reached next acts
      exact (TaskQueue.acts_of_act acts).limit_eq
  case h_2 => cases noRoom

/-- The queue stays within its capacity in every run in which every producer that comes back from
its wait finds room. After a return that finds none, the queue can be overfilled. -/
theorem within_of_findsRoom (capacity : Int) (moves : List (Thread × Label Thread Task))
    (room : Runs.Throughout step (fun callers move => callers.findsRoom move = true)
      (start capacity) moves) :
    (∀ earlier, earlier <+: moves →
      (Runs.after step (start capacity) earlier).shared.que.length ≤
        (Runs.after step (start capacity : Callers Thread Task) earlier).shared.limit) ∧
    ∀ move, (Runs.after step (start capacity) moves).findsRoom move = false →
      ∃ later,
        (Runs.after step (start capacity : Callers Thread Task)
            (moves ++ move :: later)).shared.limit <
          (Runs.after step (start capacity) (moves ++ move :: later)).shared.que.length := by
  refine ⟨fun earlier passed => (bounded_of_passed room passed).within, fun move noRoom => ?_⟩
  obtain ⟨full, elem, enters, que, limit⟩ := of_findsRoom_eq_false noRoom
  -- The producer puts its task into the full queue.
  refine ⟨[(move.1, .next move.1)], ?_⟩
  rw [Runs.after_append, Runs.after_cons, Runs.after_cons, Runs.after_nil,
    step_next enters rfl]
  show TaskQueue.limit _ < (TaskQueue.enqueue _ elem).que.length
  rw [TaskQueue.enqueue, List.length_append, que, TaskQueue.isFull_eq_true.mp full]
  exact Nat.lt_succ_of_le limit.le

/-- On a queue for one task, producer `0` pushes a task, producer `1` waits with the next one, and
the consumer `2` takes a task and wakes the producer. -/
def waitedRun : List (Fin 3 × Label (Fin 3) Nat) :=
  [(0, .push 10), (0, .next 0), (0, .next 0), (0, .next 0), (0, .next 0), (0, .next 0),
    (1, .push 20), (1, .next 1), (1, .next 1), (1, .next 1),
    (2, .pop), (2, .next 2), (2, .next 2), (2, .next 2), (2, .next 1), (2, .next 2)]

/-- Producer `1` comes back and pushes its task. -/
def comeBack : List (Fin 3 × Label (Fin 3) Nat) := [(1, .next 1), (1, .next 1)]

/-- Before it comes back, producer `0` pushes another task. -/
def overtake : List (Fin 3 × Label (Fin 3) Nat) :=
  [(0, .push 30), (0, .next 0), (0, .next 0), (0, .next 0), (0, .next 0), (0, .next 0)]

theorem within_of_findsRoom_sample :
    (Runs.after step (start 1) (waitedRun ++ comeBack)).shared.que.length ≤
      (Runs.after step (start 1) (waitedRun ++ comeBack)).shared.limit :=
  (within_of_findsRoom 1 (waitedRun ++ comeBack) (by decide)).1 _ (List.prefix_refl _)

/-- Overtaken, the producer puts a second task into the queue for one. -/
theorem overtaken_exceeds :
    (Runs.after step (start 1) (waitedRun ++ overtake ++ comeBack)).shared.limit <
      (Runs.after step (start 1) (waitedRun ++ overtake ++ comeBack)).shared.que.length := by
  decide

end Callers

end SearchEngine
