/-
This file asks whether `wakeup` wakes every thread that waits for a task.

`pop` tests the flag and the queue and then waits, with the mutex locked, but
`wakeup` sets the flag and broadcasts without it. A worker that has tested before
the flag is set and has not begun to wait when the broadcast comes is not among
the threads that are woken; it begins to wait afterwards, and nothing wakes it any
more. The broadcast reaches every worker exactly when it finds none between its
test and its wait, and then every worker can leave `pop`.
-/

import SearchEngine.Reactor.TaskQueue

namespace SearchEngine

variable {Thread Task : Type*} [DecidableEq Thread]

/-- The points of a thread inside `push`. -/
def Point.pushing {Task : Type*} : Point Task → Bool
  | .pushLock _ | .pushTest _ | .pushWait _ | .pushBlocked _ => true
  | .pushEnqueue _ | .pushUnlock _ | .pushNotify _ => true
  | _ => false

/-- The number of steps up to the release of the mutex, at most. -/
def Point.toUnlock {Task : Type*} : Point Task → Nat
  | .popTest => 4
  | .pushTest _ | .popTake => 3
  | .pushEnqueue _ | .popNotify _ => 2
  | .pushWait _ | .pushUnlock _ | .popWait | .popUnlock _ => 1
  | _ => 0

namespace TaskQueue

variable {queue reached : TaskQueue Thread Task} {thread : Thread} {label : Label Thread Task}
  {place next : Point Task}

/-- The flag is set before the broadcast. After a broadcast that reaches every worker, no worker
stands before its wait, and none waits. -/
structure Roused (queue : TaskQueue Thread Task) (thread : Thread) (place : Point Task) : Prop where
  flagged : place = .wakeBroadcast → queue.clearFlag = true
  cleared : queue.log.woken = true → queue.clearFlag = true
  passed : queue.log.woken = true → place ≠ .popWait
  awake : queue.log.woken = true → thread ∉ queue.monitor.waiting .condEmpty

/-- A finished `wakeup` stays finished. -/
theorem Acts.log_woken (acts : Acts thread queue label place reached next)
    (woken : queue.log.woken = true) : reached.log.woken = true := by
  cases acts <;> first | exact woken | rfl

theorem Acts.woken (acts : Acts thread queue label place reached next)
    (woken : reached.log.woken = true) :
    queue.log.woken = true ∨ place = .wakeBroadcast ∧ next = .idle := by
  cases acts with
  | wakeBroadcast => exact .inr ⟨rfl, rfl⟩
  | _ => exact .inl woken

/-- A worker begins to wait in one step only. -/
theorem Acts.begins (acts : Acts thread queue label place reached next)
    (stood : place.blockedOn = none) (blocked : next.blockedOn = some .condEmpty) :
    place = .popWait := by
  cases acts with
  | popWait => rfl
  | popSpurious => cases stood
  | _ => cases blocked

/-- Once workers are awake, they stay so. -/
theorem Roused.waits (roused : queue.Roused thread place)
    (acts : Acts thread queue label place reached next) (woken : reached.log.woken = true)
    {waiter : Thread} (waits : waiter ∈ reached.monitor.waiting .condEmpty) :
    queue.log.woken = true ∧ waiter ∈ queue.monitor.waiting .condEmpty := by
  rcases acts.woken woken with before | ⟨rfl, rfl⟩
  · refine ⟨before, ?_⟩
    rcases acts.waiting waits with already | ⟨-, stood, blocked⟩
    · exact already
    · exact absurd (acts.begins stood blocked) (roused.passed before)
  · cases acts with
    | wakeBroadcast => exact absurd rfl (Monitor.mem_waiting_notifyAll.mp waits).2

theorem Roused.clears (roused : queue.Roused thread place)
    (acts : Acts thread queue label place reached next) (woken : reached.log.woken = true) :
    reached.clearFlag = true := by
  rcases acts.woken woken with before | ⟨broadcast, -⟩
  · exact acts.clearFlag (roused.cleared before)
  · exact acts.clearFlag (roused.flagged broadcast)

theorem Roused.own (roused : queue.Roused thread place)
    (acts : Acts thread queue label place reached next) : reached.Roused thread next where
  flagged := by
    rintro rfl
    cases acts with
    | wakeFlag => rfl
  cleared := roused.clears acts
  passed := by
    rintro woken rfl
    cases acts with
    | popEmpty running => exact Bool.false_ne_true (running.symm.trans (roused.cleared woken))
  awake := by
    intro woken waits
    obtain ⟨before, waited⟩ := roused.waits acts woken waits
    exact roused.awake before waited

theorem Roused.others (roused : queue.Roused thread place)
    (acts : Acts thread queue label place reached next) {bystander : Thread} {standing : Point Task}
    (bystanders : queue.Roused bystander standing)
    (heard : place = .wakeBroadcast → next = .idle → standing ≠ .popWait) :
    reached.Roused bystander standing where
  flagged := fun broadcast => acts.clearFlag (bystanders.flagged broadcast)
  cleared := roused.clears acts
  passed := by
    intro woken
    rcases acts.woken woken with before | ⟨broadcast, finished⟩
    · exact bystanders.passed before
    · exact heard broadcast finished
  awake := by
    intro woken waits
    obtain ⟨before, waited⟩ := roused.waits acts woken waits
    exact bystanders.awake before waited

/-- The owner of the mutex can always take a step, and comes closer to its release. -/
theorem advances (inside : place.critical = true) (tested : queue.Tested place) :
    ∃ chosen reached next, queue.advance thread chosen place = some (reached, next) ∧
      next.toUnlock < place.toUnlock := by
  cases place with
  | popNotify data =>
    obtain ⟨chosen, monitor, signalled⟩ :=
      queue.monitor.exists_notify Cond.condFull thread
    refine ⟨chosen, { queue with monitor }, .popUnlock (some data), ?_, Nat.lt_succ_self _⟩
    exact withMonitor_eq_some.mpr ⟨monitor, signalled, rfl, rfl⟩
  | pushTest elem =>
    refine ⟨thread, _, _, rfl, ?_⟩
    split_ifs <;> simp [Point.toUnlock]
  | popTest =>
    refine ⟨thread, _, _, rfl, ?_⟩
    split_ifs <;> simp [Point.toUnlock]
  | popTake =>
    have closer : (if !queue.clearFlag then queue.dequeue
        else (queue, .popUnlock none)).2.toUnlock < 3 := by
      unfold dequeue
      cases queue.clearFlag <;> cases queue.que <;> simp [Point.toUnlock]
    exact ⟨thread, _, _, rfl, closer⟩
  | undefined => exact tested.elim
  | pushWait | pushEnqueue | pushUnlock | popWait | popUnlock =>
    exact ⟨thread, _, _, rfl, Nat.lt_succ_self _⟩
  | _ => cases inside

end TaskQueue

namespace Callers

/-- A broadcast of `wakeup` finds no worker between its test and its wait. -/
def Heard (callers : Callers Thread Task) (move : Thread × Label Thread Task) : Prop :=
  callers.place move.1 = .wakeBroadcast → (callers.step move).place move.1 = .idle →
    ∀ thread, callers.place thread ≠ .popWait

instance decidableHeard [Fintype Thread] [DecidableEq Task] (callers : Callers Thread Task)
    (move : Thread × Label Thread Task) : Decidable (callers.Heard move) := by
  unfold Heard
  infer_instance

/-- `wakeup` has finished, the queue is empty and nobody pushes, and the thread waits in `pop`
without a signal. -/
structure Stranded (callers : Callers Thread Task) (thread : Thread) : Prop where
  woken : callers.shared.log.woken = true
  empty : callers.shared.que = []
  noPush : ∀ other, (callers.place other).pushing = false
  blocked : callers.place thread = .popBlocked
  unsignalled : thread ∈ callers.shared.monitor.waiting .condEmpty

/-- All threads are roused. -/
def Roused (callers : Callers Thread Task) : Prop :=
  Interleaving.Asserted TaskQueue.Roused callers

omit [DecidableEq Thread] in
theorem roused_start (capacity : Int) : (start capacity : Callers Thread Task).Roused :=
  fun _ => ⟨nofun, nofun, nofun, nofun⟩

theorem roused_step {callers : Callers Thread Task} {move : Thread × Label Thread Task}
    (heard : callers.Heard move) (roused : callers.Roused) : (callers.step move).Roused := by
  refine Interleaving.asserted_step roused fun reached next acts => ?_
  have step := TaskQueue.acts_of_act acts
  refine ⟨(roused move.1).own step, fun bystander different => ?_⟩
  refine (roused move.1).others step (roused bystander) fun broadcast finished => ?_
  refine heard broadcast ?_ bystander
  rw [Callers.step, Interleaving.step_of_some acts]
  exact (Function.update_self ..).trans finished

theorem roused_after {capacity : Int} {moves : List (Thread × Label Thread Task)}
    (heard : Runs.Throughout step Heard (start capacity) moves) :
    (Runs.after step (start capacity : Callers Thread Task) moves).Roused :=
  Runs.after_of_throughout Roused (fun _ _ => roused_step) (roused_start capacity) heard

theorem woken_step {callers : Callers Thread Task} (woken : callers.shared.log.woken = true)
    (move : Thread × Label Thread Task) : (callers.step move).shared.log.woken = true := by
  refine Interleaving.step_shared (fun queue : TaskQueue Thread Task => queue.log.woken = true)
    woken fun reached next acts => ?_
  exact (TaskQueue.acts_of_act acts).log_woken woken

/-! ### A worker that is not reached -/

/-- A step that finishes `wakeup` is a broadcast. -/
theorem step_broadcast {callers : Callers Thread Task} {move : Thread × Label Thread Task}
    (broadcast : callers.place move.1 = .wakeBroadcast)
    (finished : (callers.step move).place move.1 = .idle) :
    callers.step move =
      ⟨{ callers.shared with
          monitor := callers.shared.monitor.notifyAll .condEmpty, log.woken := true },
        Function.update callers.place move.1 .idle⟩ := by
  obtain ⟨thread, label⟩ := move
  cases label with
  | next chosen => exact step_next broadcast rfl
  | _ =>
    rw [Callers.step, Interleaving.step_of_none (by rw [broadcast]; rfl), broadcast] at finished
    cases finished

theorem step_wait {callers : Callers Thread Task} {thread chosen : Thread}
    (stands : callers.place thread = .popWait) :
    callers.step (thread, .next chosen) =
      ⟨{ callers.shared with monitor := callers.shared.monitor.wait thread .condEmpty },
        Function.update callers.place thread .popBlocked⟩ :=
  step_next stands rfl

/-- After a broadcast that does not find every worker, one of them can begin to wait for a signal
that does not come, unless somebody still pushes. -/
theorem strands_of_not_heard {callers : Callers Thread Task} (sound : callers.Sound)
    {move : Thread × Label Thread Task} (unheard : ¬ callers.Heard move)
    (noPush : ∀ other, (callers.place other).pushing = false) :
    ∃ worker, ((callers.step move).step (worker, .next worker)).Stranded worker := by
  unfold Heard at unheard
  push Not at unheard
  obtain ⟨broadcast, finished, worker, stands⟩ := unheard
  have different : worker ≠ move.1 := by
    rintro rfl
    exact nomatch stands.symm.trans broadcast
  have empty : callers.shared.que = [] := by
    have tested := (sound worker).tested
    rwa [stands] at tested
  refine ⟨worker, ?_⟩
  rw [step_broadcast broadcast finished,
    step_wait ((Function.update_of_ne different _ _).trans stands)]
  refine ⟨rfl, empty, fun other => ?_, Function.update_self .., ?_⟩
  · show (Function.update (Function.update callers.place move.1 .idle) worker .popBlocked
      other).pushing = false
    rw [Function.update_apply, Function.update_apply]
    split_ifs
    · rfl
    · rfl
    · exact noPush other
  · exact Monitor.mem_waiting_wait.mpr (.inl ⟨rfl, rfl⟩)

/-! ### The way out of `pop` -/

theorem unlocks_of_critical {callers : Callers Thread Task} (sound : callers.Sound)
    {owner : Thread} (inside : (callers.place owner).critical = true) :
    ∃ later,
      (∀ move ∈ later, move.1 = owner ∧ ∃ chosen, move.2 = .next chosen) ∧
      Runs.Throughout step (fun callers move => (callers.place move.1).critical = true)
        callers later ∧
      ((Runs.after step callers later).place owner).critical = false := by
  induction steps : (callers.place owner).toUnlock using Nat.strong_induction_on
    generalizing callers with
  | _ steps inductionHypothesis =>
    obtain ⟨chosen, reached, next, advances, closer⟩ :=
      TaskQueue.advances inside (sound owner).tested
    have step := step_next rfl advances
    cases again : next.critical with
    | false =>
      refine ⟨[(owner, .next chosen)], ?_, ⟨inside, trivial⟩, ?_⟩
      · exact List.forall_mem_singleton.mpr ⟨rfl, chosen, rfl⟩
      · rw [Runs.after_cons, Runs.after_nil, step]
        show (Function.update callers.place owner next owner).critical = false
        rw [Function.update_self, again]
    | true =>
      have place : (callers.step (owner, .next chosen)).place owner = next := by
        rw [step]
        exact Function.update_self ..
      obtain ⟨later, own, throughout, outside⟩ := inductionHypothesis next.toUnlock
        (steps ▸ closer) (sound_step sound (owner, .next chosen)) (place.symm ▸ again)
        (congrArg Point.toUnlock place)
      exact ⟨(owner, .next chosen) :: later, List.forall_mem_cons.mpr ⟨⟨rfl, chosen, rfl⟩, own⟩,
        ⟨inside, throughout⟩, outside⟩

/-- Once the mutex is free, a worker that was woken after the flag was set leaves `pop`. -/
theorem leaves_of_free {callers : Callers Thread Task} {worker : Thread}
    (blocked : callers.place worker = .popBlocked) (free : callers.shared.monitor.owner = none)
    (cleared : callers.shared.clearFlag = true)
    (woken : worker ∉ callers.shared.monitor.waiting .condEmpty) :
    (Runs.after step callers (List.replicate 4 (worker, .next worker))).place worker =
      .popped none := by
  let held : TaskQueue Thread Task :=
    { callers.shared with monitor := { callers.shared.monitor with owner := some worker } }
  have back : callers.shared.advance worker worker .popBlocked = some (held, .popTest) :=
    TaskQueue.withMonitor_eq_some.mpr
      ⟨_, Monitor.relock_eq_some.mpr ⟨woken, free, rfl⟩, rfl, rfl⟩
  have test : held.advance worker worker .popTest = some (held, .popTake) := by
    simp [TaskQueue.advance, held, cleared]
  have take : held.advance worker worker .popTake = some (held, .popUnlock none) := by
    simp [TaskQueue.advance, held, cleared]
  have second (places : Thread → Point Task) (stands : places worker = .popTest) :=
    @step_next _ _ _ ⟨held, places⟩ _ _ _ _ _ stands test
  have third (places : Thread → Point Task) (stands : places worker = .popTake) :=
    @step_next _ _ _ ⟨held, places⟩ _ _ _ _ _ stands take
  simp only [List.replicate, Runs.after_cons, Runs.after_nil]
  rw [step_next blocked back, second _ (Function.update_self ..),
    third _ (Function.update_self ..), step_next (Function.update_self ..) rfl]
  exact Function.update_self ..

/-- While the owner of the mutex goes on, everything stays heard. -/
theorem heard_of_critical {callers : Callers Thread Task} {move : Thread × Label Thread Task}
    (inside : (callers.place move.1).critical = true) : callers.Heard move := by
  intro broadcast
  rw [broadcast] at inside
  cases inside

/-- The owner of the mutex can give it back, while the threads outside stand still. -/
theorem frees {callers : Callers Thread Task} (sound : callers.Sound) :
    ∃ later,
      (∀ move ∈ later, ∃ chosen, move.2 = .next chosen) ∧
      Runs.Throughout step (fun callers move => (callers.place move.1).critical = true)
        callers later ∧
      (∀ bystander, (callers.place bystander).critical = false →
        (Runs.after step callers later).place bystander = callers.place bystander) ∧
      (Runs.after step callers later).shared.monitor.owner = none := by
  cases owner : callers.shared.monitor.owner with
  | none => exact ⟨[], nofun, trivial, fun _ _ => rfl, owner⟩
  | some other =>
    have inside := (sound other).exclusive.mpr owner
    obtain ⟨later, own, throughout, outside⟩ := unlocks_of_critical sound inside
    have still (bystander : Thread) (apart : bystander ≠ other) :
        (Runs.after step callers later).place bystander = callers.place bystander :=
      Interleaving.after_place_of_ne fun move member same =>
        apart (same.symm.trans (own move member).1)
    refine ⟨later, fun move member => (own move member).2, throughout,
      fun bystander apart => still bystander ?_, ?_⟩
    · rintro rfl
      exact Bool.false_ne_true (apart.symm.trans inside)
    · -- An owner would be in a critical section: neither `other`, which has left its own, nor a
      -- thread that stood still.
      refine Option.eq_none_iff_forall_ne_some.mpr fun holder holds => ?_
      have holding := (sound.after later holder).exclusive.mpr holds
      by_cases same : holder = other
      · rw [same, outside] at holding
        cases holding
      · rw [still holder same] at holding
        have before := owner.symm.trans ((sound holder).exclusive.mp holding)
        exact same (Option.some_injective _ before).symm

/-- After a `wakeup` that has reached everybody, a worker that still stands in the wait of `pop` can
leave it: the owner of the mutex gives it back, and then nothing keeps the worker. -/
theorem leaves_of_roused {callers : Callers Thread Task} (sound : callers.Sound)
    (roused : callers.Roused) (woken : callers.shared.log.woken = true) {worker : Thread}
    (blocked : callers.place worker = .popBlocked) :
    ∃ later, (∀ move ∈ later, ∃ chosen, move.2 = .next chosen) ∧
      (Runs.after step callers later).place worker = .popped none := by
  obtain ⟨later, plain, throughout, still, free⟩ := frees sound
  obtain ⟨rousedLater, wokenLater⟩ := Runs.after_of_throughout
    (fun callers => callers.Roused ∧ callers.shared.log.woken = true)
    (fun _ move critical kept => ⟨roused_step (heard_of_critical critical) kept.1,
      woken_step kept.2 move⟩) ⟨roused, woken⟩ throughout
  have stands := (still worker (by rw [blocked]; rfl)).trans blocked
  refine ⟨later ++ List.replicate 4 (worker, .next worker), fun move member => ?_, ?_⟩
  · rcases List.mem_append.mp member with early | late
    · exact plain move early
    · exact ⟨worker, congrArg Prod.snd (List.eq_of_mem_replicate late)⟩
  · rw [Runs.after_append]
    exact leaves_of_free stands free ((rousedLater worker).cleared wokenLater)
      ((rousedLater worker).awake wokenLater)

/-! ### Shutdown -/

omit [DecidableEq Thread] in
theorem not_stranded {callers : Callers Thread Task} (roused : callers.Roused)
    (worker : Thread) : ¬ callers.Stranded worker := by
  intro stranded
  exact (roused worker).awake stranded.woken stranded.unsignalled

/-- In every run in which each broadcast of `wakeup` finds no worker between its test and its wait,
no worker is stranded, and one that still stands in its wait when `wakeup` has finished can leave
`pop`. After a broadcast that finds such a worker while nobody pushes, a worker can be stranded. -/
theorem not_stranded_of_heard (capacity : Int) (moves : List (Thread × Label Thread Task))
    (heard : Runs.Throughout step Heard (start capacity) moves) :
    (∀ earlier, earlier <+: moves → ∀ worker,
      ¬ (Runs.after step (start capacity : Callers Thread Task) earlier).Stranded worker) ∧
    (∀ worker, (Runs.after step (start capacity) moves).shared.log.woken = true →
      (Runs.after step (start capacity) moves).place worker = .popBlocked →
        ∃ later : List (Thread × Label Thread Task),
          (∀ move ∈ later, ∃ chosen, move.2 = .next chosen) ∧
          (Runs.after step (start capacity) (moves ++ later)).place worker = .popped none) ∧
    ∀ move, ¬ (Runs.after step (start capacity) moves).Heard move →
      (∀ other, ((Runs.after step (start capacity) moves).place other).pushing = false) →
        ∃ later worker,
          (Runs.after step (start capacity) (moves ++ move :: later)).Stranded worker := by
  refine ⟨fun earlier passed worker => ?_, fun worker woken blocked => ?_,
    fun move unheard noPush => ?_⟩
  · obtain ⟨later, rfl⟩ := passed
    exact not_stranded (roused_after (Runs.throughout_append.mp heard).1) worker
  · obtain ⟨later, plain, leaves⟩ :=
      leaves_of_roused (sound_after capacity moves) (roused_after heard) woken blocked
    refine ⟨later, plain, ?_⟩
    rwa [Runs.after_append]
  · obtain ⟨worker, stranded⟩ :=
      strands_of_not_heard (sound_after capacity moves) unheard noPush
    refine ⟨[(worker, .next worker)], worker, ?_⟩
    rwa [Runs.after_append]

/-- Worker `0` calls `pop` and tests the flag and the queue. -/
def testEmpty : List (Fin 2 × Label (Fin 2) Nat) := [(0, .pop), (0, .next 0), (0, .next 0)]

/-- Worker `0` begins to wait. -/
def beginWait : List (Fin 2 × Label (Fin 2) Nat) := [(0, .next 0)]

/-- Thread `1` calls `wakeup`. -/
def callWakeup : List (Fin 2 × Label (Fin 2) Nat) := [(1, .wakeup), (1, .next 1), (1, .next 1)]

theorem not_stranded_of_heard_sample :
    ¬ (Runs.after step (start 1) (testEmpty ++ beginWait ++ callWakeup)).Stranded 0 :=
  (not_stranded_of_heard 1 (testEmpty ++ beginWait ++ callWakeup) (by decide)).1 _
    (List.prefix_refl _) 0

/-- The broadcast falls between the test and the wait. -/
theorem unheard_stranded :
    (Runs.after step (start 1) (testEmpty ++ callWakeup ++ beginWait)).Stranded 0 :=
  ⟨by decide, by decide, by decide, by decide, by decide⟩

end Callers

end SearchEngine
