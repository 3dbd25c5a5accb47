/-
This file brings the shutdown of the queue into the pool.

The steps of a pool are, for its queue, steps of the queue. So `stop` strands no
worker in `pop` as long as the broadcast of its `wakeup` finds no worker between
its test and its wait, and a worker that still stands in its wait when `stop`
joins it can come out with nothing to do.
-/

import SearchEngine.Reactor.QueueWakeup
import SearchEngine.Reactor.Shutdown

namespace SearchEngine

variable {Thread Task : Type*} [DecidableEq Thread]

/-- `wakeup` sets the flag, broadcasts, and has finished. -/
theorem TaskQueue.Acts.waking {queue reached : TaskQueue Thread Task} {thread : Thread}
    {label : Label Thread Task} {place next : Point Task}
    (acts : Acts thread queue label place reached next)
    (inside : place = .wakeFlag ∨ place = .wakeBroadcast) :
    next = .wakeBroadcast ∨ reached.log.woken = true := by
  cases acts with
  | wakeFlag => exact .inl rfl
  | wakeBroadcast => exact .inr rfl
  | _ => rcases inside with flag | broadcast <;> contradiction

namespace Callers

/-- Only a next step can be the broadcast. -/
theorem heard_of_call {callers : Callers Thread Task} {thread : Thread}
    {label : Label Thread Task} (call : ∀ chosen, label ≠ .next chosen) :
    callers.Heard (thread, label) := by
  intro broadcast finished
  cases label with
  | next chosen => exact absurd rfl (call chosen)
  | _ =>
    rw [Callers.step, Interleaving.step_of_none (by rw [broadcast]; rfl), broadcast] at finished
    cases finished

/-- The thread is on its way through `wakeup`, or a `wakeup` has finished. -/
def Waking (callers : Callers Thread Task) (thread : Thread) : Prop :=
  callers.place thread = .wakeFlag ∨ callers.place thread = .wakeBroadcast ∨
    callers.shared.log.woken = true

theorem waking_step {callers : Callers Thread Task} {thread : Thread}
    (waking : callers.Waking thread) (move : Thread × Label Thread Task) :
    (callers.step move).Waking thread := by
  by_cases same : thread = move.1
  · subst same
    cases acts : TaskQueue.act move.1 move.2 (callers.place move.1) callers.shared with
    | none => rwa [step, Interleaving.step_of_none acts]
    | some reached =>
      have step := TaskQueue.acts_of_act acts
      rw [Callers.step, Interleaving.step_of_some acts]
      rcases or_assoc.mpr waking with inside | woken
      · rcases step.waking inside with broadcast | woken
        · exact .inr (.inl ((Function.update_self ..).trans broadcast))
        · exact .inr (.inr woken)
      · exact .inr (.inr (step.log_woken woken))
  · rcases waking with flag | broadcast | woken
    · exact .inl ((Interleaving.step_place_of_ne same).trans flag)
    · exact .inr (.inl ((Interleaving.step_place_of_ne same).trans broadcast))
    · exact .inr (.inr (woken_step woken move))

theorem step_wakeup {callers : Callers Thread Task} {thread : Thread}
    (idle : callers.place thread = .idle) :
    (callers.step (thread, .wakeup)).place thread = .wakeFlag := by
  have acts : TaskQueue.act thread .wakeup (callers.place thread) callers.shared =
      some (callers.shared, .wakeFlag) := by
    rw [idle]
    rfl
  rw [step, Interleaving.step_of_some acts]
  exact Function.update_self ..

end Callers

namespace Threadpool

variable {Producer : Type} {threadNum : Nat} [DecidableEq Producer]
  {pool reached : Threadpool Producer threadNum}

/-- A broadcast in the queue of the pool finds no worker between its test and its wait. -/
def Heard (pool : Threadpool Producer threadNum) : Move Producer threadNum → Prop
  | .inQueue thread chosen => pool.tq.Heard (thread, .next chosen)
  | _ => True

instance decidableHeard [Fintype Producer] (pool : Threadpool Producer threadNum) :
    ∀ move, Decidable (pool.Heard move)
  | .inQueue thread chosen => inferInstanceAs (Decidable (pool.tq.Heard (thread, .next chosen)))
  | .addTask _ _ | .spurious _ | .worker _ | .stop | .stopper => .isTrue trivial

/-- A step of the pool is for its queue a step or none, and a next step only where it is meant. -/
def FollowedBy (pool : Threadpool Producer threadNum) (move : Move Producer threadNum)
    (tq : Callers (PoolThread Producer threadNum) Nat) : Prop :=
  tq = pool.tq ∨ ∃ thread label, tq = pool.tq.step (thread, label) ∧
    ∀ chosen, label = .next chosen → move = .inQueue thread chosen

theorem followedBy_wokerDoTask (index : Fin threadNum) :
    pool.FollowedBy (.worker index) (pool.wokerDoTask index).tq := by
  unfold wokerDoTask
  split
  · split_ifs
    · exact .inl rfl
    · exact .inr ⟨.worker index, .pop, rfl, nofun⟩
  · split
    · exact .inr ⟨.worker index, .collect, rfl, nofun⟩
    · exact .inr ⟨.worker index, .collect, rfl, nofun⟩
    · exact .inl rfl
  · exact .inl rfl
  · exact .inl rfl

theorem followedBy_stopStep : pool.FollowedBy .stopper pool.stopStep.tq := by
  unfold stopStep
  split
  · split_ifs <;> exact .inl rfl
  · split_ifs <;> exact .inl rfl
  · exact .inr ⟨.stopper, .wakeup, rfl, nofun⟩
  · split <;> exact .inl rfl
  · split_ifs
    · split <;> exact .inl rfl
    · exact .inl rfl
  · exact .inl rfl
  · exact .inl rfl

theorem followedBy_step (move : Move Producer threadNum) :
    pool.FollowedBy move (pool.step move).tq := by
  cases move with
  | addTask producer callable =>
    cases callable with
    | true => exact .inr ⟨.producer producer, .push _, rfl, nofun⟩
    | false => exact .inl rfl
  | inQueue thread chosen =>
    refine .inr ⟨thread, .next chosen, rfl, fun other same => ?_⟩
    rw [Label.next.inj same]
  | spurious thread => exact .inr ⟨thread, .spurious, rfl, nofun⟩
  | worker index => exact followedBy_wokerDoTask index
  | stop =>
    show pool.FollowedBy .stop pool.stop.tq
    unfold stop
    split <;> exact .inl rfl
  | stopper => exact followedBy_stopStep

theorem roused_step (move : Move Producer threadNum) (heard : pool.Heard move)
    (roused : pool.tq.Roused) : (pool.step move).tq.Roused := by
  have followed : pool.FollowedBy move (pool.step move).tq := followedBy_step move
  rcases followed with same | ⟨thread, label, step, meant⟩
  · rwa [same]
  · rw [step]
    refine Callers.roused_step ?_ roused
    cases label with
    | next chosen =>
      rw [meant chosen rfl] at heard
      exact heard
    | _ => exact Callers.heard_of_call nofun

/-! ### From `wakeup` to the joins -/

/-- The thread that stops the pool is inside the queue only in `wakeup`, and joins after it. -/
structure Waking (pool : Threadpool Producer threadNum) : Prop where
  outside : pool.stopper ≠ .wakeup → pool.tq.place .stopper = .idle
  wakes : pool.stopper = .wakeup → pool.tq.Waking .stopper
  woken : ∀ count, pool.stopper = .join count → pool.tq.shared.log.woken = true

omit [DecidableEq Producer] in
theorem waking_start (capacity : Int) : (start capacity : Threadpool Producer threadNum).Waking :=
  ⟨fun _ => rfl, nofun, nofun⟩

/-- The queue takes a step while the thread that stops the pool stands still, or is in `wakeup`. -/
theorem Waking.call (waking : pool.Waking) {thread : PoolThread Producer threadNum}
    {label : Label (PoolThread Producer threadNum) Nat}
    (quiet : thread ≠ .stopper ∨ label = .spurious ∨ ∃ chosen, label = .next chosen) :
    (pool.call thread label).Waking where
  outside := by
    intro apart
    rcases quiet with other | quiet
    · exact (call_place_of_ne other.symm label).trans (waking.outside apart)
    · exact Callers.step_idle quiet (waking.outside apart)
  wakes := fun inside => Callers.waking_step (waking.wakes inside) _
  woken := fun count joins => Callers.woken_step (waking.woken count joins) _

theorem waking_of_acts (acts : pool.Acts reached) (waking : pool.Waking) : reached.Waking := by
  cases acts with
  | addTask producer => exact waking.call (.inl nofun)
  | inQueue thread chosen => exact waking.call (.inr (.inr ⟨chosen, rfl⟩))
  | spurious thread => exact waking.call (.inr (.inl rfl))
  | pops index =>
    have called : (pool.call (.worker index) .pop).Waking := waking.call (.inl nofun)
    exact ⟨called.outside, called.wakes, called.woken⟩
  | starts index | skips index =>
    have called : (pool.call (.worker index) .collect).Waking := waking.call (.inl nofun)
    exact ⟨called.outside, called.wakes, called.woken⟩
  | exits | finishes => exact ⟨waking.outside, waking.wakes, waking.woken⟩
  | setsExit stands =>
    have idle := waking.outside (by rw [stands]; exact nofun)
    exact ⟨fun apart => absurd rfl apart, fun _ => .inl (Callers.step_wakeup idle), nofun⟩
  | woken stands returned =>
    refine ⟨fun _ => returned, nofun, fun _ _ => ?_⟩
    rcases waking.wakes stands with flag | broadcast | woken
    · cases returned.symm.trans flag
    · cases returned.symm.trans broadcast
    · exact woken
  | joins index stands =>
    exact ⟨fun _ => waking.outside (by rw [stands]; exact nofun), nofun,
      fun _ _ => waking.woken index stands⟩
  | stop stands | returns stands | drains stands | drained stands | joinedAll _ stands =>
    exact ⟨fun _ => waking.outside (by rw [stands]; exact nofun), nofun, nofun⟩

/-! ### Every run of the pool -/

/-- Steps of threads inside the queue are steps of the pool. -/
theorem exists_inQueue {later : List (PoolThread Producer threadNum × Label _ Nat)}
    (plain : ∀ move ∈ later, ∃ chosen, move.2 = .next chosen) :
    ∃ moves : List (Move Producer threadNum),
      (∀ move ∈ moves, ∃ thread chosen, move = .inQueue thread chosen) ∧
      ∀ pool : Threadpool Producer threadNum,
        (Runs.after step pool moves).tq = Runs.after Callers.step pool.tq later := by
  induction later with
  | nil => exact ⟨[], nofun, fun _ => rfl⟩
  | cons move later inductionHypothesis =>
    obtain ⟨⟨chosen, next⟩, rest⟩ := List.forall_mem_cons.mp plain
    obtain ⟨moves, inside, follows⟩ := inductionHypothesis rest
    refine ⟨.inQueue move.1 chosen :: moves, ?_, fun pool => ?_⟩
    · exact List.forall_mem_cons.mpr ⟨⟨move.1, chosen, rfl⟩, inside⟩
    · rw [Runs.after_cons, Runs.after_cons, follows]
      show Runs.after _ (pool.tq.step (move.1, .next chosen)) _ = _
      rw [← next]

/-- What holds of the pool when every broadcast has been heard. -/
structure Joinable (pool : Threadpool Producer threadNum) : Prop where
  sound : pool.tq.Sound
  roused : pool.tq.Roused
  waking : pool.Waking

theorem joinable_after {capacity : Int} {moves : List (Move Producer threadNum)}
    (heard : Runs.Throughout step Heard (start capacity) moves) :
    (Runs.after step (start capacity : Threadpool Producer threadNum) moves).Joinable := by
  refine Runs.after_of_throughout Joinable (fun pool move heard joinable => ?_) ?_ heard
  · refine ⟨?_, roused_step move heard joinable.roused, ?_⟩
    · refine @step_kept _ _ _ _ (fun pool => pool.tq.Sound) joinable.sound
        (fun reached acts => ?_) move
      exact acts.tq_kept joinable.sound (Callers.sound_step joinable.sound)
    · exact step_kept joinable.waking (fun reached acts => waking_of_acts acts joinable.waking) move
  · exact ⟨Callers.sound_start capacity, Callers.roused_start capacity, waking_start capacity⟩

/-- In every run in which the broadcast of `stop` finds no worker between its test and its wait, no
worker is stranded, and a worker that waits in `pop` while `stop` joins can come out of it with
nothing to do, by steps of threads that are inside the queue. -/
theorem joins_leave (capacity : Int) (moves : List (Move Producer threadNum))
    (heard : Runs.Throughout step Heard (start capacity) moves) (index : Fin threadNum) :
    let pool := Runs.after step (start capacity : Threadpool Producer threadNum) moves
    ¬ pool.tq.Stranded (.worker index) ∧
      ∀ count, pool.stopper = .join count → pool.tq.place (.worker index) = .popBlocked →
        ∃ later, (∀ move ∈ later, ∃ thread chosen, move = .inQueue thread chosen) ∧
          (Runs.after step pool later).tq.place (.worker index) = .popped none := by
  intro pool
  have joinable : pool.Joinable := joinable_after heard
  refine ⟨Callers.not_stranded joinable.roused _, fun count joins blocked => ?_⟩
  obtain ⟨later, plain, leaves⟩ := Callers.leaves_of_roused joinable.sound joinable.roused
    (joinable.waking.woken count joins) blocked
  obtain ⟨moves, inside, follows⟩ := exists_inQueue plain
  exact ⟨moves, inside, by rw [follows, leaves]⟩

/-- `stop` is called while the only worker waits for a task, and begins to join. -/
def stopWhileWaiting : List (Move (Fin 1) 1) :=
  [.worker 0] ++ List.replicate 3 (.inQueue (.worker 0) .stopper) ++ [.stop] ++
    List.replicate 3 .stopper ++ List.replicate 2 (.inQueue .stopper .stopper) ++ [.stopper]

theorem joins_leave_sample :
    ∃ later, (∀ move ∈ later, ∃ thread chosen, move = .inQueue thread chosen) ∧
      (Runs.after step (Runs.after step (start 1) stopWhileWaiting) later).tq.place (.worker 0) =
        .popped none :=
  (joins_leave 1 stopWhileWaiting (by decide) 0).2 0 (by decide) (by decide)

end Threadpool

end SearchEngine
