/-
This file models how the event loop takes functors over from other threads, and
proves that it calls each of them once, in the order of their appends, and that
none is stranded.

The list of functors is behind a mutex, and the signal is an eventfd, a counter
that a write increments and a read resets. A call of `runInLoop` appends and then
writes; the loop thread reads, takes the whole list over, and then calls the
functors. Each of these is a step, and the steps of all threads are interleaved in
any order.

The logs record the functors that were appended and those that were called.
Nothing reads them.
-/

import SearchEngine.Library.Runs

namespace SearchEngine

/-- Where a thread stands that calls `EventLoop::runInLoop`. -/
inductive CallerPoint where
  | outside
  /-- between the append and the write -/
  | appended
deriving DecidableEq

/-- Where the loop thread stands. -/
inductive LoopPoint (Functor : Type*) where
  /-- in `epoll_wait`, or with other descriptors -/
  | waiting
  /-- the eventfd was reported with `EPOLLIN` -/
  | readable
  /-- behind `handleRead` -/
  | swapping
  /-- in the loop of `doPendingFunctors`, with the functors of `tmp` that are still to be called -/
  | calling (tmp : List Functor)
deriving DecidableEq

/-- The loop thread is between a read and the end of the matching `doPendingFunctors`. -/
def LoopPoint.working {Functor : Type*} : LoopPoint Functor → Bool
  | .swapping | .calling _ => true
  | _ => false

/-- The functors the loop thread has taken over and not yet called. -/
def LoopPoint.taken {Functor : Type*} : LoopPoint Functor → List Functor
  | .calling tmp => tmp
  | _ => []

/-- An event loop, the threads that call `runInLoop`, and the logs. -/
structure EventLoop (Caller Functor : Type*) where
  eventfd : Nat
  pendingFunctors : List Functor
  loop : LoopPoint Functor
  caller : Caller → CallerPoint
  appended : List Functor
  executed : List Functor

namespace EventLoop

variable {Caller Functor : Type*}

/-- A step of one of the threads. -/
inductive Move (Caller Functor : Type*) where
  /-- `_pendingFunctors.push_back` under the mutex -/
  | append (caller : Caller) (cb : Functor)
  /-- `wakeup` -/
  | wakeup (caller : Caller)
  /-- `epoll_wait` reports the eventfd -/
  | report
  | handleRead
  /-- `tmp.swap(_pendingFunctors)` under the mutex -/
  | swap
  /-- `tmp[i]()`, or the end of `doPendingFunctors` -/
  | call

/-- The constructor; no thread has called. -/
def start : EventLoop Caller Functor := ⟨0, [], .waiting, fun _ => .outside, [], []⟩

variable [DecidableEq Caller]

/-- A step that cannot be taken leaves everything as it is. -/
def step (state : EventLoop Caller Functor) : Move Caller Functor → EventLoop Caller Functor
  | .append caller cb =>
    if state.caller caller = .outside then
      { state with
        pendingFunctors := state.pendingFunctors ++ [cb]
        caller := Function.update state.caller caller .appended
        appended := state.appended ++ [cb] }
    else state
  | .wakeup caller =>
    if state.caller caller = .appended then
      { state with
        eventfd := state.eventfd + 1
        caller := Function.update state.caller caller .outside }
    else state
  | .report =>
    match state.loop with
    | .waiting => if state.eventfd = 0 then state else { state with loop := .readable }
    | _ => state
  | .handleRead =>
    match state.loop with
    -- a read of a counter that is zero blocks
    | .readable =>
      if state.eventfd = 0 then state else { state with eventfd := 0, loop := .swapping }
    | _ => state
  | .swap =>
    match state.loop with
    | .swapping => { state with pendingFunctors := [], loop := .calling state.pendingFunctors }
    | _ => state
  | .call =>
    match state.loop with
    | .calling [] => { state with loop := .waiting }
    | .calling (cb :: tmp) =>
      { state with loop := .calling tmp, executed := state.executed ++ [cb] }
    | _ => state

/-- What a step does, with what holds where it is taken. -/
inductive Acts (state : EventLoop Caller Functor) :
    Move Caller Functor → EventLoop Caller Functor → Prop
  | append (caller : Caller) (cb : Functor) (outside : state.caller caller = .outside) :
      Acts state (.append caller cb)
        { state with
          pendingFunctors := state.pendingFunctors ++ [cb]
          caller := Function.update state.caller caller .appended
          appended := state.appended ++ [cb] }
  | wakeup (caller : Caller) (inside : state.caller caller = .appended) :
      Acts state (.wakeup caller)
        { state with
          eventfd := state.eventfd + 1
          caller := Function.update state.caller caller .outside }
  | report (waiting : state.loop = .waiting) (positive : 0 < state.eventfd) :
      Acts state .report { state with loop := .readable }
  | handleRead (readable : state.loop = .readable) (positive : 0 < state.eventfd) :
      Acts state .handleRead { state with eventfd := 0, loop := .swapping }
  | swap (swapping : state.loop = .swapping) :
      Acts state .swap { state with pendingFunctors := [], loop := .calling state.pendingFunctors }
  | call (cb : Functor) (tmp : List Functor) (calling : state.loop = .calling (cb :: tmp)) :
      Acts state .call { state with loop := .calling tmp, executed := state.executed ++ [cb] }
  | finish (calling : state.loop = .calling []) : Acts state .call { state with loop := .waiting }
  | stands (move : Move Caller Functor) : Acts state move state

theorem acts_step (state : EventLoop Caller Functor) (move : Move Caller Functor) :
    Acts state move (state.step move) := by
  cases move with
  | append caller cb =>
    rw [step]
    split_ifs with outside
    · exact .append caller cb outside
    · exact .stands _
  | wakeup caller =>
    rw [step]
    split_ifs with inside
    · exact .wakeup caller inside
    · exact .stands _
  | report =>
    cases place : state.loop with
    | waiting =>
      rw [step, place]
      dsimp only
      split_ifs with zero
      · exact .stands _
      · exact .report place (Nat.pos_of_ne_zero zero)
    | _ =>
      rw [step, place]
      exact .stands _
  | handleRead =>
    cases place : state.loop with
    | readable =>
      rw [step, place]
      dsimp only
      split_ifs with zero
      · exact .stands _
      · exact .handleRead place (Nat.pos_of_ne_zero zero)
    | _ =>
      rw [step, place]
      exact .stands _
  | swap =>
    cases place : state.loop with
    | swapping =>
      rw [step, place]
      exact .swap place
    | _ =>
      rw [step, place]
      exact .stands _
  | call =>
    cases place : state.loop with
    | calling tmp =>
      cases tmp with
      | nil =>
        rw [step, place]
        exact .finish place
      | cons cb tmp =>
        rw [step, place]
        exact .call cb tmp place
    | _ =>
      rw [step, place]
      exact .stands _

/-! ### The invariant -/

/-- Some thread is between its append and its write. -/
def Appending (state : EventLoop Caller Functor) : Prop :=
  ∃ caller, state.caller caller = .appended

/-- What holds in every state that is reached. -/
structure Sound (state : EventLoop Caller Functor) : Prop where
  /-- the appended functors were called, taken over, or are still in the list, in this order -/
  accounted : state.appended = state.executed ++ state.loop.taken ++ state.pendingFunctors
  /-- a functor in the list has a signal that is set, to come, or being answered -/
  signalled : state.pendingFunctors ≠ [] →
    0 < state.eventfd ∨ state.Appending ∨ state.loop = .swapping
  /-- a signal that was reported is set until it is read -/
  reported : state.loop = .readable → 0 < state.eventfd

omit [DecidableEq Caller] in
theorem sound_start : (start : EventLoop Caller Functor).Sound := ⟨rfl, nofun, nofun⟩

variable {state : EventLoop Caller Functor}

theorem Sound.acts {move : Move Caller Functor} {next : EventLoop Caller Functor}
    (acts : Acts state move next) (sound : state.Sound) : next.Sound := by
  obtain ⟨accounted, signalled, reported⟩ := sound
  cases acts with
  | append caller cb outside =>
    refine ⟨?_, fun _ => Or.inr (Or.inl ⟨caller, Function.update_self ..⟩), reported⟩
    show state.appended ++ [cb] = _
    rw [accounted, List.append_assoc]
  | wakeup caller inside =>
    exact ⟨accounted, fun _ => Or.inl (Nat.succ_pos _), fun _ => Nat.succ_pos _⟩
  | report waiting positive =>
    rw [waiting] at accounted
    exact ⟨accounted, fun _ => Or.inl positive, fun _ => positive⟩
  | handleRead readable positive =>
    rw [readable] at accounted
    exact ⟨accounted, fun _ => Or.inr (Or.inr rfl), nofun⟩
  | swap swapping =>
    refine ⟨?_, fun left => absurd rfl left, nofun⟩
    rw [accounted, swapping]
    simp [LoopPoint.taken]
  | call cb tmp calling =>
    refine ⟨?_, fun left => ?_, nofun⟩
    · rw [accounted, calling]
      simp [LoopPoint.taken]
    · -- the loop thread is not behind a read, so the signal is set or to come
      rcases signalled left with positive | appending | swapping
      · exact Or.inl positive
      · exact Or.inr (Or.inl appending)
      · rw [calling] at swapping
        cases swapping
  | finish calling =>
    rw [calling] at accounted
    refine ⟨accounted, fun left => ?_, nofun⟩
    rcases signalled left with positive | appending | swapping
    · exact Or.inl positive
    · exact Or.inr (Or.inl appending)
    · rw [calling] at swapping
      cases swapping
  | stands => exact ⟨accounted, signalled, reported⟩

theorem sound_step (move : Move Caller Functor) (sound : state.Sound) :
    (state.step move).Sound := sound.acts (acts_step state move)

theorem sound_after (moves : List (Move Caller Functor)) (sound : state.Sound) :
    (Runs.after step state moves).Sound :=
  Runs.after_of_kept Sound (fun _ move => sound_step move) sound moves

/-! ### Functors run once and are not stranded -/

/-- In every state that threads and loop reach by any steps, the functors that were called are the
first ones that were appended, each called once and in this order, and while one is not yet called,
the counter is positive, a thread is between its append and its write, or the loop thread is
between a read and the end of `doPendingFunctors`. -/
theorem functors_run_once (moves : List (Move Caller Functor)) :
    let state := Runs.after step (start : EventLoop Caller Functor) moves
    state.executed <+: state.appended ∧
      (state.executed ≠ state.appended →
        0 < state.eventfd ∨ state.Appending ∨ state.loop.working = true) := by
  intro state
  have sound : state.Sound := sound_after moves sound_start
  refine ⟨⟨_, by rw [sound.accounted, List.append_assoc]⟩, fun waiting => ?_⟩
  by_cases left : state.pendingFunctors = []
  · -- the functors that are not yet called were taken over
    have taken : state.loop.taken ≠ [] := by
      intro nothing
      rw [sound.accounted, left, nothing, List.append_nil, List.append_nil] at waiting
      exact waiting rfl
    refine Or.inr (Or.inr ?_)
    cases place : state.loop with
    | swapping => rfl
    | calling tmp => rfl
    | waiting => rw [place] at taken; exact absurd rfl taken
    | readable => rw [place] at taken; exact absurd rfl taken
  · rcases sound.signalled left with positive | appending | swapping
    · exact Or.inl positive
    · exact Or.inr (Or.inl appending)
    · exact Or.inr (Or.inr (by rw [swapping]; rfl))

/-- Steps that append nothing call all functors that were appended. -/
def Drains (state : EventLoop Caller Functor) : Prop :=
  ∃ moves : List (Move Caller Functor), (∀ move ∈ moves, ∀ caller cb, move ≠ .append caller cb) ∧
    (Runs.after step state moves).executed = state.appended

theorem Acts.appended_eq {move : Move Caller Functor} {next : EventLoop Caller Functor}
    (acts : Acts state move next) (quiet : ∀ caller cb, move ≠ .append caller cb) :
    next.appended = state.appended := by
  cases acts with
  | append caller cb => exact absurd rfl (quiet caller cb)
  | _ => rfl

theorem drains_of_executed (all : state.executed = state.appended) : state.Drains :=
  ⟨[], List.forall_mem_nil _, all⟩

theorem drains_of_step (move : Move Caller Functor) (quiet : ∀ caller cb, move ≠ .append caller cb)
    (drains : (state.step move).Drains) : state.Drains := by
  obtain ⟨moves, allQuiet, ended⟩ := drains
  refine ⟨move :: moves, List.forall_mem_cons.mpr ⟨quiet, allQuiet⟩, ?_⟩
  rw [Runs.after_cons, ended, (acts_step state move).appended_eq quiet]

theorem drains_of_taken (sound : state.Sound) {tmp : List Functor}
    (calling : state.loop = .calling tmp) (nothing : state.pendingFunctors = []) :
    state.Drains := by
  induction tmp generalizing state with
  | nil =>
    refine drains_of_executed ?_
    rw [sound.accounted, calling, nothing]
    simp [LoopPoint.taken]
  | cons cb tmp inductionHypothesis =>
    refine drains_of_step .call nofun (inductionHypothesis (sound_step .call sound) ?_ ?_)
    · rw [step, calling]
    · rw [step, calling]
      exact nothing

theorem drains_of_swapping (sound : state.Sound) (swapping : state.loop = .swapping) :
    state.Drains := by
  have calling : (state.step .swap).loop = .calling state.pendingFunctors := by
    rw [step, swapping]
  refine drains_of_step .swap nofun (drains_of_taken (sound_step .swap sound) calling ?_)
  rw [step, swapping]

theorem drains_of_readable (sound : state.Sound) (readable : state.loop = .readable) :
    state.Drains := by
  refine drains_of_step .handleRead nofun
    (drains_of_swapping (sound_step .handleRead sound) ?_)
  rw [step, readable]
  dsimp only
  rw [if_neg (sound.reported readable).ne']

theorem drains_of_waiting (sound : state.Sound) (waiting : state.loop = .waiting) :
    state.Drains := by
  have signal {state : EventLoop Caller Functor} (sound : state.Sound)
      (waiting : state.loop = .waiting) (positive : 0 < state.eventfd) : state.Drains := by
    refine drains_of_step .report nofun (drains_of_readable (sound_step .report sound) ?_)
    rw [step, waiting]
    dsimp only
    rw [if_neg positive.ne']
  by_cases left : state.pendingFunctors = []
  · refine drains_of_executed ?_
    rw [sound.accounted, waiting, left]
    simp [LoopPoint.taken]
  · rcases sound.signalled left with positive | ⟨caller, appended⟩ | swapping
    · exact signal sound waiting positive
    · refine drains_of_step (.wakeup caller) nofun (signal (sound_step _ sound) ?_ ?_)
      · rw [step, if_pos appended]
        exact waiting
      · rw [step, if_pos appended]
        exact Nat.succ_pos _
    · exact absurd (waiting.symm.trans swapping) nofun

theorem drains_of_calling (sound : state.Sound) {tmp : List Functor}
    (calling : state.loop = .calling tmp) : state.Drains := by
  induction tmp generalizing state with
  | nil =>
    refine drains_of_step .call nofun (drains_of_waiting (sound_step .call sound) ?_)
    rw [step, calling]
  | cons cb tmp inductionHypothesis =>
    refine drains_of_step .call nofun (inductionHypothesis (sound_step .call sound) ?_)
    rw [step, calling]

theorem Sound.drains (sound : state.Sound) : state.Drains := by
  cases place : state.loop with
  | waiting => exact drains_of_waiting sound place
  | readable => exact drains_of_readable sound place
  | swapping => exact drains_of_swapping sound place
  | calling tmp => exact drains_of_calling sound place

/-- From every state that is reached, the threads need only finish what they have begun, and the
loop thread go on, for every functor to be called. -/
theorem not_stranded (moves : List (Move Caller Functor)) :
    (Runs.after step (start : EventLoop Caller Functor) moves).Drains :=
  (sound_after moves sound_start).drains

end EventLoop

end SearchEngine
