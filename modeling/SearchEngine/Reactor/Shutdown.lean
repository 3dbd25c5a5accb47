/-
This file shows that the pool runs every task once and loses none at shutdown.

The names of the tasks are all different, so the accounts of the queue say that no
task is handed over twice, and a worker starts a task exactly when it is handed
over. `stop` sees an empty queue before it sets `_isExit`; what had been accepted
before `stop` was called has left the queue by then, although the queue may fill
up again. The worker that has taken such a task runs it before it tests `_isExit`
again, and `stop` joins it.
-/

import SearchEngine.Reactor.Threadpool

namespace SearchEngine

/-- The task that a worker runs. -/
def WorkerPoint.task : WorkerPoint → Multiset Nat
  | .running task => {task}
  | _ => 0

variable {Producer : Type} {threadNum : Nat}

namespace Threadpool

/-! ### What holds in every state -/

/-- A task is named by its place among the tasks that were given to the queue. -/
def Named (callers : Callers (PoolThread Producer threadNum) Nat) : Prop :=
  callers.shared.log.called = List.range callers.shared.log.called.length

/-- A worker is inside the queue only in `getTask`, and the other threads never call `pop`. -/
structure Placed (pool : Threadpool Producer threadNum) : Prop where
  workers : ∀ index, pool.workers index ≠ .getTask → pool.tq.place (.worker index) = .idle
  others : ∀ thread, (∀ index, thread ≠ .worker index) → (pool.tq.place thread).popping = false

/-- The tasks that were handed over are those that were started, and these are finished or run. -/
structure Counted (pool : Threadpool Producer threadNum) : Prop where
  handed : pool.tq.shared.log.collected = pool.started.map Prod.snd
  ran : Interleaving.Balanced
    (fun pool : Threadpool Producer threadNum => (pool.started.map Prod.snd : Multiset Nat))
    (fun pool => (pool.finished : Multiset Nat)) WorkerPoint.task ⟨pool, pool.workers⟩

/-- Up to the call of `stop` the pool runs. What had been accepted by then has left the queue once
`stop` has seen it empty, and the workers that were joined have exited. -/
structure Closing (pool : Threadpool Producer threadNum) : Prop where
  running : pool.stopper = .idle → pool.isExit = false
  accepted : pool.before ⊆ pool.tq.shared.log.returned
  left : pool.isExit = true ∨ pool.stopper = .setExit → pool.before ⊆ pool.tq.shared.log.left
  joined : ∀ count, pool.stopper = .join count →
    ∀ index, index.val < count → pool.workers index = .exited
  exit : pool.stopper = .returned → pool.isExit = true
  exited : pool.stopper = .returned ∨ pool.stopper = .test ∧ pool.isExit = true →
    ∀ index, pool.workers index = .exited

/-- What holds in every state of the pool. -/
structure Orderly [Fintype Producer] (pool : Threadpool Producer threadNum) : Prop where
  accounted : pool.tq.Accounted
  named : Named pool.tq
  placed : pool.Placed
  counted : pool.Counted
  closing : pool.Closing

theorem closing_start (capacity : Int) :
    (start capacity : Threadpool Producer threadNum).Closing where
  running := fun _ => rfl
  accepted := List.nil_subset _
  left := fun _ => List.nil_subset _
  joined := nofun
  exit := nofun
  exited := by
    rintro (returned | ⟨test, -⟩)
    · cases returned
    · cases test

theorem orderly_start [Fintype Producer] (capacity : Int) :
    (start capacity : Threadpool Producer threadNum).Orderly where
  accounted := Callers.accounted_start capacity
  named := rfl
  placed := ⟨fun _ _ => rfl, fun _ _ => rfl⟩
  counted := ⟨rfl, by simp [Interleaving.Balanced, start, WorkerPoint.task]⟩
  closing := closing_start capacity

variable {pool reached : Threadpool Producer threadNum}

/-! ### What follows for the tasks -/

/-- No task is started twice. -/
theorem Orderly.nodup_started [Fintype Producer] (orderly : pool.Orderly) :
    (pool.started.map Prod.snd).Nodup := by
  rw [← orderly.counted.handed]
  refine orderly.accounted.nodup_collected ?_
  rw [orderly.named]
  exact List.nodup_range

/-- When every worker has exited, nobody is inside `pop`. -/
theorem Orderly.outside [Fintype Producer] (orderly : pool.Orderly)
    (exited : ∀ index, pool.workers index = .exited) (thread : PoolThread Producer threadNum) :
    (pool.tq.place thread).popping = false := by
  cases thread with
  | worker index =>
    rw [orderly.placed.workers index (by rw [exited index]; exact nofun)]
    rfl
  | producer producer => exact orderly.placed.others _ nofun
  | stopper => exact orderly.placed.others _ nofun

/-- When every worker has exited, every task that has left the queue is finished. -/
theorem Orderly.finished [Fintype Producer] (orderly : pool.Orderly)
    (exited : ∀ index, pool.workers index = .exited) :
    (pool.tq.shared.log.left : Multiset Nat) = pool.finished := by
  have ran := orderly.counted.ran.entered_eq fun index => by
    show (pool.workers index).task = 0
    rw [exited index]
    rfl
  rw [orderly.accounted.left_eq (orderly.outside exited), orderly.counted.handed]
  exact ran

/-- The step in which `stop` finds the queue empty: every task that has entered has left. -/
theorem Closing.drained [Fintype Producer] (closing : pool.Closing) (accounted : pool.tq.Accounted)
    (empty : pool.tq.shared.que = []) : pool.before ⊆ pool.tq.shared.log.left := by
  have entered := accounted.inOrder
  rw [empty, List.append_nil] at entered
  rw [← entered]
  exact List.Subset.trans closing.accepted accounted.returned_subset

/-! ### Steps of one thread -/

/-- One worker goes on, in `wokerDoTask` or into and out of the queue. -/
theorem Placed.goesOn (placed : pool.Placed) {index : Fin threadNum}
    (places : ∀ thread, thread ≠ .worker index → reached.tq.place thread = pool.tq.place thread)
    (workers : ∀ other, other ≠ index → reached.workers other = pool.workers other)
    (own : reached.workers index ≠ .getTask → reached.tq.place (.worker index) = .idle) :
    reached.Placed where
  workers := by
    intro other outside
    by_cases same : other = index
    · subst same
      exact own outside
    · rw [workers other same] at outside
      rw [places _ fun equal => same (PoolThread.worker.inj equal)]
      exact placed.workers other outside
  others := by
    intro other apart
    rw [places other (apart index)]
    exact placed.others other apart

/-- The other threads may go on meanwhile. -/
theorem Closing.meanwhile (closing : pool.Closing) (stopper : reached.stopper = pool.stopper)
    (exit : reached.isExit = pool.isExit) (before : reached.before = pool.before)
    (left : pool.tq.shared.log.left ⊆ reached.tq.shared.log.left)
    (returned : pool.tq.shared.log.returned ⊆ reached.tq.shared.log.returned)
    (workers : ∀ index, pool.workers index = .exited → reached.workers index = .exited) :
    reached.Closing where
  running := by
    rw [stopper, exit]
    exact closing.running
  accepted := by
    rw [before]
    exact List.Subset.trans closing.accepted returned
  left := by
    rw [stopper, exit, before]
    exact fun closed => List.Subset.trans (closing.left closed) left
  joined := by
    rw [stopper]
    exact fun count join index lower => workers index (closing.joined count join index lower)
  exit := by
    rw [stopper, exit]
    exact closing.exit
  exited := by
    rw [stopper, exit]
    exact fun ended index => workers index (closing.exited ended index)

/-- A worker that has not exited goes on. -/
theorem workerAt_exited {index : Fin threadNum} {point : WorkerPoint}
    (runs : pool.workers index ≠ .exited) (other : Fin threadNum)
    (exited : pool.workers other = .exited) :
    (pool.workerAt index point).workers other = .exited := by
  have different : other ≠ index := by
    rintro rfl
    exact runs exited
  rw [workerAt_of_ne different]
  exact exited

/-- While `stop` neither joins nor returns, only the tasks matter. -/
theorem closing_between
    (between : reached.stopper = .drain ∨ reached.stopper = .setExit ∨ reached.stopper = .wakeup)
    (accepted : reached.before ⊆ reached.tq.shared.log.returned)
    (left : reached.isExit = true ∨ reached.stopper = .setExit →
      reached.before ⊆ reached.tq.shared.log.left) : reached.Closing where
  running := by rcases between with stands | stands | stands <;> simp [stands]
  accepted := accepted
  left := left
  joined := by rcases between with stands | stands | stands <;> simp [stands]
  exit := by rcases between with stands | stands | stands <;> simp [stands]
  exited := by rcases between with stands | stands | stands <;> simp [stands]

/-- While `stop` joins, the workers that were joined have exited. -/
theorem closing_join {count : Nat} (accepted : pool.before ⊆ pool.tq.shared.log.returned)
    (left : pool.isExit = true ∨ StopPoint.join count = .setExit →
      pool.before ⊆ pool.tq.shared.log.left)
    (joined : ∀ index, index.val < count → pool.workers index = .exited) :
    ({ pool with stopper := .join count } : Threadpool Producer threadNum).Closing where
  running := nofun
  accepted := accepted
  left := left
  joined := by
    intro other same
    cases same
    exact joined
  exit := nofun
  exited := fun ended => absurd (ended.resolve_left nofun).1 nofun

end Threadpool

/-! ### What a step of the queue keeps -/

namespace Callers

variable {Thread Task : Type*} [DecidableEq Thread] {callers : Callers Thread Task}
  {thread other : Thread} {label : Label Thread Task}

/-- A thread that calls nothing stays outside the queue. -/
theorem step_idle (quiet : label = .spurious ∨ ∃ chosen, label = .next chosen)
    (idle : callers.place other = .idle) : (callers.step (thread, label)).place other = .idle := by
  by_cases same : other = thread
  · subst same
    rcases quiet with rfl | ⟨chosen, rfl⟩
    · rw [step, Interleaving.step_of_none (by rw [idle]; rfl), idle]
    · rw [step, Interleaving.step_of_none (by rw [idle]; rfl), idle]
  · rw [step, Interleaving.step_place_of_ne same, idle]

theorem step_popping (call : label ≠ .pop) (outside : (callers.place other).popping = false) :
    ((callers.step (thread, label)).place other).popping = false := by
  by_cases same : other = thread
  · subst same
    cases acts : TaskQueue.act other label (callers.place other) callers.shared with
    | none => rwa [step, Interleaving.step_of_none acts]
    | some reached =>
      rw [step, Interleaving.step_of_some acts]
      show (Function.update callers.place other reached.2 other).popping = false
      rw [Function.update_self]
      exact (TaskQueue.acts_of_act acts).popping call outside
  · rwa [step, Interleaving.step_place_of_ne same]

/-- The end of a `pop`. -/
theorem step_collect {result : Option Task} (popped : callers.place thread = .popped result) :
    callers.step (thread, .collect) =
      ⟨{ callers.shared with
          log.collected := callers.shared.log.collected ++ result.toList },
        Function.update callers.place thread .idle⟩ := by
  refine Interleaving.step_of_some ?_
  rw [popped]
  rfl

theorem step_called (call : ∀ elem, label ≠ .push elem) :
    (callers.step (thread, label)).shared.log.called = callers.shared.log.called :=
  Interleaving.step_shared
    (fun queue : TaskQueue Thread Task => queue.log.called = callers.shared.log.called) rfl
    fun _ _ acts => (TaskQueue.acts_of_act acts).called_eq call

theorem step_collected (call : label ≠ .collect) :
    (callers.step (thread, label)).shared.log.collected = callers.shared.log.collected :=
  Interleaving.step_shared
    (fun queue : TaskQueue Thread Task => queue.log.collected = callers.shared.log.collected) rfl
    fun _ _ acts => (TaskQueue.acts_of_act acts).collected_eq call

theorem step_left (callers : Callers Thread Task) (move : Thread × Label Thread Task) :
    callers.shared.log.left ⊆ (callers.step move).shared.log.left :=
  Interleaving.step_shared
    (fun queue : TaskQueue Thread Task => callers.shared.log.left ⊆ queue.log.left)
    (List.Subset.refl _) fun _ _ acts => (TaskQueue.acts_of_act acts).left_grows.subset

theorem step_returned (callers : Callers Thread Task) (move : Thread × Label Thread Task) :
    callers.shared.log.returned ⊆ (callers.step move).shared.log.returned :=
  Interleaving.step_shared
    (fun queue : TaskQueue Thread Task => callers.shared.log.returned ⊆ queue.log.returned)
    (List.Subset.refl _) fun _ _ acts => (TaskQueue.acts_of_act acts).returned_grows.subset

end Callers

namespace Threadpool

variable [DecidableEq Producer] {pool reached : Threadpool Producer threadNum}

/-! ### What a step of the pool keeps -/

/-- The queue takes one step, or none. -/
theorem Acts.tq (acts : pool.Acts reached) :
    reached.tq = pool.tq ∨ ∃ move, reached.tq = pool.tq.step move := by
  cases acts with
  | exits | finishes | stop | returns | drains => exact .inl rfl
  | drained | woken | joins | joinedAll => exact .inl rfl
  | _ => exact .inr ⟨_, rfl⟩

/-- What every step of the queue keeps, every step of the pool keeps. -/
theorem Acts.tq_kept (acts : pool.Acts reached)
    {invariant : Callers (PoolThread Producer threadNum) Nat → Prop} (holds : invariant pool.tq)
    (kept : ∀ move, invariant (pool.tq.step move)) : invariant reached.tq := by
  rcases acts.tq with same | ⟨move, step⟩
  · rwa [same]
  · rw [step]
    exact kept move

theorem named_push {callers : Callers (PoolThread Producer threadNum) Nat} (named : Named callers)
    (thread : PoolThread Producer threadNum) :
    Named (callers.step (thread, .push callers.shared.log.called.length)) := by
  refine Interleaving.step_shared
    (fun queue : TaskQueue (PoolThread Producer threadNum) Nat =>
      queue.log.called = List.range queue.log.called.length) named fun queue place acts => ?_
  rw [(TaskQueue.acts_of_act acts).called_push, List.length_append, List.length_singleton,
    List.range_succ, ← named]

theorem named_of_acts (acts : pool.Acts reached) (named : Named pool.tq) : Named reached.tq := by
  have other {thread label} (call : ∀ elem, label ≠ Label.push elem) :
      Named (pool.tq.step (thread, label)) := by
    unfold Named
    rw [Callers.step_called call]
    exact named
  cases acts with
  | addTask producer => exact named_push named _
  | inQueue | spurious | pops | starts | skips | setsExit => exact other nofun
  | _ => exact named

/-- A call that is no `pop`, of a thread that is no worker. -/
theorem Placed.call (placed : pool.Placed) {thread : PoolThread Producer threadNum}
    {label : Label (PoolThread Producer threadNum) Nat}
    (bystander : ∀ index, PoolThread.worker index ≠ thread) (call : label ≠ .pop) :
    (pool.call thread label).Placed where
  workers := by
    intro index outside
    exact (Interleaving.step_place_of_ne (bystander index)).trans (placed.workers index outside)
  others := fun other apart => Callers.step_popping call (placed.others other apart)

/-- A step inside the queue. -/
theorem Placed.inside (placed : pool.Placed) (thread : PoolThread Producer threadNum)
    {label : Label (PoolThread Producer threadNum) Nat}
    (quiet : label = .spurious ∨ ∃ chosen, label = .next chosen) :
    (pool.call thread label).Placed where
  workers := fun index outside => Callers.step_idle quiet (placed.workers index outside)
  others := by
    intro other apart
    refine Callers.step_popping ?_ (placed.others other apart)
    rcases quiet with rfl | ⟨chosen, rfl⟩ <;> exact nofun

/-- After the end of a `pop` the worker is outside the queue. -/
theorem place_collect {thread : PoolThread Producer threadNum} {result : Option Nat}
    (popped : pool.tq.place thread = .popped result) :
    (pool.call thread .collect).tq.place thread = .idle := by
  rw [Threadpool.call, Callers.step_collect popped]
  exact Function.update_self ..

theorem placed_of_acts (acts : pool.Acts reached) (placed : pool.Placed) : reached.Placed := by
  cases acts with
  | addTask producer => exact placed.call nofun nofun
  | setsExit =>
    have called : (pool.call .stopper .wakeup).Placed := placed.call nofun nofun
    exact ⟨called.workers, called.others⟩
  | inQueue thread chosen => exact placed.inside thread (.inr ⟨chosen, rfl⟩)
  | spurious thread => exact placed.inside thread (.inl rfl)
  | exits index stands =>
    refine placed.goesOn (fun _ _ => rfl) (fun _ apart => workerAt_of_ne apart _) fun _ => ?_
    exact placed.workers index (by rw [stands]; exact nofun)
  | finishes index task stands =>
    refine placed.goesOn (fun _ _ => rfl) (fun _ apart => workerAt_of_ne apart _) fun _ => ?_
    exact placed.workers index (by rw [stands]; exact nofun)
  | pops index =>
    refine placed.goesOn (fun _ different => call_place_of_ne different _)
      (fun _ different => workerAt_of_ne different _) fun outside => ?_
    exact absurd (workerAt_self _) outside
  | starts index task _ popped =>
    exact placed.goesOn (fun _ different => call_place_of_ne different _)
      (fun _ different => workerAt_of_ne different _) fun _ => place_collect popped
  | skips index _ popped =>
    exact placed.goesOn (fun _ different => call_place_of_ne different _)
      (fun _ different => workerAt_of_ne different _) fun _ => place_collect popped
  | _ => exact ⟨placed.workers, placed.others⟩

theorem counted_of_acts (acts : pool.Acts reached) (counted : pool.Counted) : reached.Counted := by
  cases acts with
  | addTask | inQueue | spurious | setsExit =>
    exact ⟨(Callers.step_collected (by exact nofun)).trans counted.handed, counted.ran⟩
  | exits index stands =>
    refine ⟨counted.handed, counted.ran.update index ?_⟩
    simp only [stands, WorkerPoint.task, Threadpool.workerAt]
  | pops index stands =>
    refine ⟨(Callers.step_collected (by exact nofun)).trans counted.handed,
      counted.ran.update index ?_⟩
    simp only [stands, WorkerPoint.task, Threadpool.workerAt, Threadpool.call]
  | starts index task stands popped =>
    refine ⟨?_, counted.ran.update index ?_⟩
    · show (pool.tq.step (.worker index, .collect)).shared.log.collected =
        (pool.started ++ [(index, task)]).map Prod.snd
      rw [Callers.step_collect popped, List.map_append, ← counted.handed]
      rfl
    · simp [stands, WorkerPoint.task, Threadpool.workerAt, Threadpool.call, ← Multiset.coe_add]
  | skips index stands popped =>
    refine ⟨?_, counted.ran.update index ?_⟩
    · show (pool.tq.step (.worker index, .collect)).shared.log.collected = _
      rw [Callers.step_collect popped]
      exact (List.append_nil _).trans counted.handed
    · simp only [stands, WorkerPoint.task, Threadpool.workerAt, Threadpool.call]
  | finishes index task stands =>
    refine ⟨counted.handed, counted.ran.update index ?_⟩
    simp only [stands, WorkerPoint.task, Threadpool.workerAt, ← Multiset.coe_add,
      Multiset.coe_singleton]
    abel
  | _ => exact ⟨counted.handed, counted.ran⟩

theorem closing_of_acts [Fintype Producer] (acts : pool.Acts reached)
    (accounted : pool.tq.Accounted) (closing : pool.Closing) : reached.Closing := by
  cases acts with
  | addTask | inQueue | spurious =>
    exact closing.meanwhile rfl rfl rfl (Callers.step_left _ _) (Callers.step_returned _ _)
      fun _ exited => exited
  | exits index stands | finishes index _ stands =>
    exact closing.meanwhile rfl rfl rfl (List.Subset.refl _) (List.Subset.refl _)
      (workerAt_exited (by rw [stands]; exact nofun))
  | pops index stands | starts index _ stands | skips index stands =>
    exact closing.meanwhile rfl rfl rfl (Callers.step_left _ _) (Callers.step_returned _ _)
      (@workerAt_exited _ _ pool _ _ (by rw [stands]; exact nofun))
  | stop stands =>
    have runs := closing.running stands
    exact {
      running := nofun
      accepted := List.Subset.refl _
      left := fun closed => absurd (closed.resolve_right nofun) (by simp [runs])
      joined := nofun
      exit := nofun
      exited := fun ended => absurd (ended.resolve_left nofun).2 (by simp [runs]) }
  | returns stands exit =>
    exact {
      running := nofun
      accepted := closing.accepted
      left := fun _ => closing.left (.inl exit)
      joined := nofun
      exit := fun _ => exit
      exited := fun _ => closing.exited (.inr ⟨stands, exit⟩) }
  | drains stands runs =>
    exact closing_between (.inl rfl) closing.accepted
      fun closed => absurd (closed.resolve_right nofun) (by simp [runs])
  | drained stands empty =>
    exact closing_between (.inr (.inl rfl)) closing.accepted
      fun _ => closing.drained accounted empty
  | setsExit stands =>
    exact closing_between (.inr (.inr rfl))
      (List.Subset.trans closing.accepted (Callers.step_returned _ _))
      fun _ => List.Subset.trans (closing.left (.inr stands)) (Callers.step_left _ _)
  | woken stands =>
    exact closing_join closing.accepted
      (fun closed => closing.left (.inl (closed.resolve_right nofun)))
      fun _ lower => absurd lower (Nat.not_lt_zero _)
  | joins index stands inside exited =>
    exact closing_join closing.accepted
      (fun closed => closing.left (.inl (closed.resolve_right nofun))) fun other lower => by
        rcases Nat.lt_succ_iff_lt_or_eq.mp lower with earlier | same
        · exact closing.joined index stands other earlier
        · rwa [show other = ⟨index, inside⟩ from Fin.ext same]
  | joinedAll index stands all =>
    exact {
      running := nofun
      accepted := closing.accepted
      left := fun closed => closing.left (.inl (closed.resolve_right nofun))
      joined := nofun
      exit := nofun
      exited := fun _ other =>
        closing.joined index stands other (lt_of_lt_of_le other.isLt (not_lt.mp all)) }

/-! ### Every run of the pool -/

theorem orderly_after [Fintype Producer] (capacity : Int) (moves : List (Move Producer threadNum)) :
    (Runs.after step (start capacity : Threadpool Producer threadNum) moves).Orderly := by
  refine Runs.after_of_kept Orderly (fun pool move orderly => ?_) ?_ moves
  · refine step_kept orderly (fun reached acts => ?_) move
    exact ⟨acts.tq_kept orderly.accounted (Callers.accounted_step orderly.accounted),
      named_of_acts acts orderly.named, placed_of_acts acts orderly.placed,
      counted_of_acts acts orderly.counted,
      closing_of_acts acts orderly.accounted orderly.closing⟩
  · exact orderly_start capacity

/-- In every run the tasks leave the queue in the order in which they have entered it, no task is
started twice, by one worker or by two, and once `stop` has returned, every task whose `addTask` had
returned when `stop` was called is finished. -/
theorem tasks_run_once [Fintype Producer] (capacity : Int)
    (moves : List (Move Producer threadNum)) :
    let pool := Runs.after step (start capacity : Threadpool Producer threadNum) moves
    pool.tq.shared.log.left <+: pool.tq.shared.log.entered ∧
      (pool.started.map Prod.snd).Nodup ∧
      (pool.stopper = .returned → ∀ task ∈ pool.before, task ∈ pool.finished) := by
  intro pool
  have orderly : pool.Orderly := orderly_after capacity moves
  refine ⟨orderly.accounted.left_inOrder, orderly.nodup_started, fun returned task accepted => ?_⟩
  have left := orderly.closing.left (.inl (orderly.closing.exit returned)) accepted
  have finished := orderly.finished (orderly.closing.exited (.inl returned))
  exact Multiset.mem_coe.mp (finished ▸ Multiset.mem_coe.mpr left)

/-- `stop` is called while the only worker runs the only task, and returns. -/
example :
    let moves : List (List (Move (Fin 1) 1)) :=
      [[.addTask 0 true], List.replicate 5 (.inQueue (.producer 0) .stopper), [.worker 0],
        List.replicate 5 (.inQueue (.worker 0) .stopper), [.worker 0, .stop],
        List.replicate 3 .stopper, List.replicate 2 (.inQueue .stopper .stopper),
        [.stopper, .worker 0, .worker 0], List.replicate 3 .stopper]
    let pool := Runs.after step (start 1 : Threadpool (Fin 1) 1) moves.flatten
    pool.stopper = .returned ∧ pool.before = [0] ∧ pool.finished = [0] := by
  decide

end Threadpool

end SearchEngine
