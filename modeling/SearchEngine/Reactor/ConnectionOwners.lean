/-
This file models who owns a connection while its responses are on their way, and
proves when a pending response still finds its connection.

A connection is owned through shared pointers: by its entry in `EventLoop::_conns`
and by each task that was made from a message of it, from the queue to the end of
`wokerDoTask`'s iteration. `sendInLoop` binds the plain pointer `this`, so the
functor that waits for `doPendingFunctors` owns nothing. Once the peer has closed
and the tasks are gone, the functor calls `send` of a connection that was destroyed.
-/

import SearchEngine.Basic
import SearchEngine.Reactor.EventLoop

namespace SearchEngine

/-- `std::bind(&TcpConnection::send, this, msg)`. Connections are numbered as they are accepted. -/
structure Send where
  conn : Nat
  msg : Bytes
deriving DecidableEq

/-- The connections a functor owns: `this` is a plain pointer. -/
def Send.owned (_ : Send) : List Nat := []

/-- Where a worker stands in `Threadpool::wokerDoTask`. -/
inductive WorkerStage where
  | idle
  /-- in `MyTask::process`, before `sendInLoop` -/
  | processing (conn : Nat)
  /-- behind the append of `sendInLoop`; the task is not yet destroyed -/
  | sent (conn : Nat)
deriving DecidableEq

/-- The connection that the task of a worker holds. -/
def WorkerStage.held : WorkerStage → Option Nat
  | .idle => none
  | .processing conn => some conn
  | .sent conn => some conn

/-- The server: its event loop with the entries of `_conns`, the queue of tasks, each with the
connection it holds, and the workers. -/
structure EchoServer (Worker : Type*) where
  eventLoop : EventLoop Worker Send
  conns : Int → Option Nat
  tasks : List Nat
  worker : Worker → WorkerStage
  created : Nat

namespace EchoServer

variable {Worker : Type*}

/-! ### Owners -/

/-- The functors that are still to be called. -/
def pending (state : EchoServer Worker) : List Send :=
  state.eventLoop.loop.taken ++ state.eventLoop.pendingFunctors

/-- A send of the connection is still to be called. -/
def Pending (state : EchoServer Worker) (conn : Nat) : Prop :=
  ∃ send ∈ state.pending, send.conn = conn

/-- The connection has an entry in `_conns`. -/
def Listed (state : EchoServer Worker) (conn : Nat) : Prop := ∃ fd, state.conns fd = some conn

/-- The task of a worker holds the connection. -/
def Held (state : EchoServer Worker) (conn : Nat) : Prop :=
  ∃ worker, (state.worker worker).held = some conn

/-- The connection has an owner. -/
def Owned (state : EchoServer Worker) (conn : Nat) : Prop :=
  state.Listed conn ∨ conn ∈ state.tasks ∨ state.Held conn ∨
    ∃ send ∈ state.pending, conn ∈ send.owned

/-- Nothing but entries and tasks owns a connection. -/
theorem owned_iff {state : EchoServer Worker} {conn : Nat} :
    state.Owned conn ↔ state.Listed conn ∨ conn ∈ state.tasks ∨ state.Held conn := by
  simp only [Owned, Send.owned, List.not_mem_nil, and_false, exists_false, or_false]

/-! ### Steps -/

/-- A step of the loop thread or of a worker. -/
inductive Move (Worker : Type*) where
  /-- `handleNewConnection` with the descriptor that `accept` returns -/
  | accept (peerFd : Int)
  /-- `handleMessage`, with what `isClosed` returns -/
  | handleMessage (fd : Int) (isClosed : Bool)
  /-- `getTask` -/
  | getTask (worker : Worker)
  /-- the append of `sendInLoop`, with any response -/
  | sendInLoop (worker : Worker) (msg : Bytes)
  /-- the end of an iteration, where the task is destroyed -/
  | destroy (worker : Worker)
  /-- the rest of `runInLoop`, and the loop thread's answer to it -/
  | goOn (move : EventLoop.Move Worker Send)

/-- A functor that the step calls finds its connection. -/
def CallsOwned (state : EchoServer Worker) : Move Worker → Prop
  | .goOn .call =>
    ∀ send tmp, state.eventLoop.loop = .calling (send :: tmp) → state.Owned send.conn
  | _ => True

/-- Every pending send has a connection with an owner. -/
def PendingOwned (state : EchoServer Worker) : Prop := ∀ conn, state.Pending conn → state.Owned conn

/-- A functor that is called is pending. -/
theorem PendingOwned.callsOwned {state : EchoServer Worker} (move : Move Worker)
    (owned : state.PendingOwned) : state.CallsOwned move := by
  unfold CallsOwned
  split
  · intro send tmp calling
    refine owned _ ⟨send, ?_, rfl⟩
    rw [pending, calling]
    exact List.mem_append_left _ List.mem_cons_self
  · trivial

/-- A step that gives up an owner of a connection with a pending send leaves it another one. -/
def Spares (state : EchoServer Worker) : Move Worker → Prop
  | .handleMessage fd true =>
    state.eventLoop.loop.working = false → ∀ conn, state.conns fd = some conn →
      state.Pending conn → conn ∈ state.tasks ∨ state.Held conn
  | .destroy worker =>
    state.eventLoop.caller worker = .outside → ∀ conn, state.worker worker = .sent conn →
      state.Pending conn → state.Listed conn ∨ conn ∈ state.tasks ∨
        ∃ other, other ≠ worker ∧ (state.worker other).held = some conn
  | _ => True

/-- No connection was accepted, and the workers wait. -/
def start : EchoServer Worker := ⟨.start, fun _ => none, [], fun _ => .idle, 0⟩

variable [DecidableEq Worker]

/-- A step that cannot be taken leaves everything as it is. -/
def step (state : EchoServer Worker) : Move Worker → EchoServer Worker
  | .accept peerFd =>
    if state.eventLoop.loop.working then state
    else
      { state with
        -- `insert` keeps an entry that is there
        conns := if state.conns peerFd = none then
            Function.update state.conns peerFd (some state.created)
          else state.conns
        created := state.created + 1 }
  | .handleMessage fd isClosed =>
    if state.eventLoop.loop.working then state
    else
      match state.conns fd with
      | none => state
      | some conn =>
        if isClosed then { state with conns := Function.update state.conns fd none }
        -- `addTask` waits for room in the queue
        else if state.tasks.length < 1000 then { state with tasks := state.tasks ++ [conn] }
        else state
  | .getTask worker =>
    match state.worker worker, state.tasks with
    | .idle, conn :: tasks =>
      { state with
        tasks := tasks
        worker := Function.update state.worker worker (.processing conn) }
    | _, _ => state
  | .sendInLoop worker msg =>
    match state.worker worker with
    | .processing conn =>
      if state.eventLoop.caller worker = .outside then
        { state with
          eventLoop := state.eventLoop.step (.append worker ⟨conn, msg⟩)
          worker := Function.update state.worker worker (.sent conn) }
      else state
    | _ => state
  | .destroy worker =>
    match state.worker worker with
    | .sent _ =>
      if state.eventLoop.caller worker = .outside then
        { state with worker := Function.update state.worker worker .idle }
      else state
    | _ => state
  -- appends are steps of `sendInLoop`
  | .goOn (.append _ _) => state
  | .goOn move => { state with eventLoop := state.eventLoop.step move }

/-- What a step does, with what holds where it is taken. -/
inductive Acts (state : EchoServer Worker) : Move Worker → EchoServer Worker → Prop
  | accept (peerFd : Int) (free : state.conns peerFd = none) :
      Acts state (.accept peerFd)
        { state with
          conns := Function.update state.conns peerFd (some state.created)
          created := state.created + 1 }
  | acceptAgain (peerFd : Int) :
      Acts state (.accept peerFd) { state with created := state.created + 1 }
  | close (fd : Int) (conn : Nat) (between : state.eventLoop.loop.working = false)
      (found : state.conns fd = some conn) :
      Acts state (.handleMessage fd true)
        { state with conns := Function.update state.conns fd none }
  | message (fd : Int) (conn : Nat) (found : state.conns fd = some conn) :
      Acts state (.handleMessage fd false) { state with tasks := state.tasks ++ [conn] }
  | getTask (worker : Worker) (conn : Nat) (tasks : List Nat)
      (idle : state.worker worker = .idle) (queue : state.tasks = conn :: tasks) :
      Acts state (.getTask worker)
        { state with
          tasks := tasks
          worker := Function.update state.worker worker (.processing conn) }
  | sendInLoop (worker : Worker) (conn : Nat) (msg : Bytes)
      (processing : state.worker worker = .processing conn)
      (outside : state.eventLoop.caller worker = .outside) :
      Acts state (.sendInLoop worker msg)
        { state with
          eventLoop := state.eventLoop.step (.append worker ⟨conn, msg⟩)
          worker := Function.update state.worker worker (.sent conn) }
  | destroy (worker : Worker) (conn : Nat) (sent : state.worker worker = .sent conn)
      (outside : state.eventLoop.caller worker = .outside) :
      Acts state (.destroy worker)
        { state with worker := Function.update state.worker worker .idle }
  | goOn (move : EventLoop.Move Worker Send) (quiet : ∀ worker send, move ≠ .append worker send) :
      Acts state (.goOn move) { state with eventLoop := state.eventLoop.step move }
  | stands (move : Move Worker) : Acts state move state

theorem acts_step (state : EchoServer Worker) (move : Move Worker) :
    Acts state move (state.step move) := by
  cases move with
  | accept peerFd =>
    rw [step]
    split_ifs with working free
    · exact .stands _
    · exact .accept peerFd free
    · exact .acceptAgain peerFd
  | handleMessage fd isClosed =>
    rw [step]
    by_cases working : state.eventLoop.loop.working
    · rw [if_pos working]
      exact .stands _
    · rw [if_neg working]
      cases found : state.conns fd with
      | none => exact .stands _
      | some conn =>
        cases isClosed with
        | true => exact .close fd conn (Bool.eq_false_of_not_eq_true working) found
        | false =>
          by_cases room : state.tasks.length < 1000
          · simp only [room, if_true, Bool.false_eq_true, if_false]
            exact .message fd conn found
          · simp only [room, if_false, Bool.false_eq_true]
            exact .stands _
  | getTask worker =>
    rw [step]
    split
    next conn tasks idle queue => exact .getTask worker conn tasks idle queue
    next => exact .stands _
  | sendInLoop worker msg =>
    rw [step]
    split
    next conn processing =>
      split_ifs with outside
      · exact .sendInLoop worker conn msg processing outside
      · exact .stands _
    next => exact .stands _
  | destroy worker =>
    rw [step]
    split
    next conn sent =>
      split_ifs with outside
      · exact .destroy worker conn sent outside
      · exact .stands _
    next => exact .stands _
  | goOn move =>
    cases move with
    | append worker send => exact .stands _
    | _ => exact .goOn _ nofun

/-! ### What a step keeps -/

/-- What holds in every state that is reached. -/
structure Sound (state : EchoServer Worker) : Prop where
  eventLoop : state.eventLoop.Sound
  /-- a connection has one entry -/
  single : ∀ fd other conn, state.conns fd = some conn → state.conns other = some conn → fd = other
  numbered : ∀ fd conn, state.conns fd = some conn → conn < state.created

omit [DecidableEq Worker] in
theorem sound_start : (start : EchoServer Worker).Sound := ⟨EventLoop.sound_start, nofun, nofun⟩

variable {state : EchoServer Worker}

/-- An entry behind `insert` is the new one or was there. -/
theorem entry_of_insert {conns : Int → Option Nat} {peerFd fd : Int} {conn new : Nat}
    (here : Function.update conns peerFd (some new) fd = some conn) :
    fd = peerFd ∧ conn = new ∨ conns fd = some conn := by
  rw [Function.update_apply] at here
  split_ifs at here with same
  · exact Or.inl ⟨same, (Option.some.inj here).symm⟩
  · exact Or.inr here

/-- An entry behind `erase` is another one and was there. -/
theorem entry_of_erase {conns : Int → Option Nat} {closed fd : Int} {conn : Nat}
    (here : Function.update conns closed none fd = some conn) :
    fd ≠ closed ∧ conns fd = some conn := by
  rw [Function.update_apply] at here
  split_ifs at here with same
  exact ⟨same, here⟩

theorem Sound.acts {move : Move Worker} {next : EchoServer Worker} (acts : Acts state move next)
    (sound : state.Sound) : next.Sound := by
  obtain ⟨eventLoop, single, numbered⟩ := sound
  cases acts with
  | accept peerFd free =>
    refine ⟨eventLoop, fun fd other conn here there => ?_, fun fd conn here => ?_⟩
    · rcases entry_of_insert here with ⟨first, new⟩ | old
      · rcases entry_of_insert there with ⟨second, -⟩ | old
        · rw [first, second]
        · exact absurd (numbered other conn old) (new ▸ lt_irrefl _)
      · rcases entry_of_insert there with ⟨-, new⟩ | same
        · exact absurd (numbered fd conn old) (new ▸ lt_irrefl _)
        · exact single fd other conn old same
    · rcases entry_of_insert here with ⟨-, new⟩ | old
      · rw [new]
        exact Nat.lt_succ_self _
      · exact Nat.lt_succ_of_lt (numbered fd conn old)
  | acceptAgain peerFd =>
    exact ⟨eventLoop, single, fun fd conn here => Nat.lt_succ_of_lt (numbered fd conn here)⟩
  | close closed conn between found =>
    refine ⟨eventLoop, fun fd other conn here there => ?_, fun fd conn here => ?_⟩
    · exact single fd other conn (entry_of_erase here).2 (entry_of_erase there).2
    · exact numbered fd conn (entry_of_erase here).2
  | message fd conn found => exact ⟨eventLoop, single, numbered⟩
  | getTask worker conn tasks idle queue => exact ⟨eventLoop, single, numbered⟩
  | sendInLoop worker conn msg processing outside =>
    exact ⟨EventLoop.sound_step (.append worker ⟨conn, msg⟩) eventLoop, single, numbered⟩
  | destroy worker conn sent outside => exact ⟨eventLoop, single, numbered⟩
  | goOn move quiet => exact ⟨EventLoop.sound_step move eventLoop, single, numbered⟩
  | stands => exact ⟨eventLoop, single, numbered⟩

theorem sound_after (moves : List (Move Worker)) :
    (Runs.after step (start : EchoServer Worker) moves).Sound :=
  Runs.after_of_kept Sound (fun state move => Sound.acts (acts_step state move)) sound_start moves

/-! ### Pending sends keep an owner -/

/-- Steps that append nothing add nothing to the functors that are still to be called, and take
only the one away that is called. -/
theorem pending_goOn (state : EchoServer Worker) {move : EventLoop.Move Worker Send}
    (quiet : ∀ worker send, move ≠ .append worker send) :
    let next : EchoServer Worker := { state with eventLoop := state.eventLoop.step move }
    (∀ send ∈ next.pending, send ∈ state.pending) ∧
      ∀ send ∈ state.pending, send ∈ next.pending ∨
        move = .call ∧ ∃ tmp, state.eventLoop.loop = .calling (send :: tmp) := by
  intro next
  have acts := EventLoop.acts_step state.eventLoop move
  simp only [next, pending]
  generalize state.eventLoop.step move = reached at acts
  cases acts with
  | append worker send outside => exact absurd rfl (quiet worker send)
  | swap swapping =>
    rw [swapping]
    simp [LoopPoint.taken]
  | call send tmp calling =>
    rw [calling]
    simp [LoopPoint.taken]
    tauto
  | finish calling =>
    rw [calling]
    simp [LoopPoint.taken]
  | report waiting positive =>
    rw [waiting]
    simp [LoopPoint.taken]
  | handleRead readable positive =>
    rw [readable]
    simp [LoopPoint.taken]
  | wakeup worker inside => exact ⟨fun _ member => member, fun _ member => Or.inl member⟩
  | stands => exact ⟨fun _ member => member, fun _ member => Or.inl member⟩

/-- A task that a worker holds is held where only another worker takes a step. -/
theorem held_of_other {worker other : Worker} {conn : Nat} {point : WorkerStage}
    (different : other ≠ worker)
    (holds : (state.worker other).held = some conn) :
    ∃ other, (Function.update state.worker worker point other).held = some conn :=
  ⟨other, by rw [Function.update_of_ne different, holds]⟩

theorem PendingOwned.acts {move : Move Worker} {next : EchoServer Worker}
    (acts : Acts state move next) (spares : state.Spares move) (owned : state.PendingOwned) :
    next.PendingOwned := by
  intro conn pending
  cases acts with
  | accept peerFd free =>
    rcases owned_iff.mp (owned conn pending) with ⟨fd, entry⟩ | others
    · refine owned_iff.mpr (Or.inl ⟨fd, ?_⟩)
      have different : fd ≠ peerFd := fun same => by rw [same, free] at entry; cases entry
      rw [← entry]
      exact Function.update_of_ne different ..
    · exact owned_iff.mpr (Or.inr others)
  | acceptAgain peerFd => exact owned_iff.mpr (owned_iff.mp (owned conn pending))
  | close closed last between found =>
    rcases owned_iff.mp (owned conn pending) with ⟨fd, entry⟩ | others
    · by_cases same : fd = closed
      · exact owned_iff.mpr (Or.inr (spares between conn (same ▸ entry) pending))
      · refine owned_iff.mpr (Or.inl ⟨fd, ?_⟩)
        rw [← entry]
        exact Function.update_of_ne same ..
    · exact owned_iff.mpr (Or.inr others)
  | message fd sender found =>
    rcases owned_iff.mp (owned conn pending) with listed | queued | held
    · exact owned_iff.mpr (Or.inl listed)
    · exact owned_iff.mpr (Or.inr (Or.inl (List.mem_append_left _ queued)))
    · exact owned_iff.mpr (Or.inr (Or.inr held))
  | getTask worker first tasks idle queue =>
    rcases owned_iff.mp (owned conn pending) with listed | queued | ⟨other, holds⟩
    · exact owned_iff.mpr (Or.inl listed)
    · rw [queue] at queued
      rcases List.mem_cons.mp queued with rfl | later
      · -- the worker takes the owner over
        refine owned_iff.mpr (Or.inr (Or.inr ⟨worker, ?_⟩))
        show (Function.update state.worker worker _ worker).held = _
        rw [Function.update_self]
        rfl
      · exact owned_iff.mpr (Or.inr (Or.inl later))
    · refine owned_iff.mpr (Or.inr (Or.inr (held_of_other ?_ holds)))
      intro same
      rw [same, idle] at holds
      cases holds
  | sendInLoop worker sender msg processing outside =>
    have holds : ∃ other,
        (Function.update state.worker worker (.sent sender) other).held = some sender :=
      ⟨worker, by rw [Function.update_self]; rfl⟩
    by_cases same : conn = sender
    · rw [same]
      exact owned_iff.mpr (Or.inr (Or.inr holds))
    · have before : state.Pending conn := by
        obtain ⟨send, member, rfl⟩ := pending
        refine ⟨send, ?_, rfl⟩
        rw [EchoServer.pending, EventLoop.step, if_pos outside] at member
        rcases List.mem_append.mp member with taken | waiting
        · exact List.mem_append_left _ taken
        · rcases List.mem_append.mp waiting with waiting | new
          · exact List.mem_append_right _ waiting
          · rw [List.mem_singleton.mp new] at same
            exact absurd rfl same
      rcases owned_iff.mp (owned conn before) with listed | queued | ⟨other, held⟩
      · exact owned_iff.mpr (Or.inl listed)
      · exact owned_iff.mpr (Or.inr (Or.inl queued))
      · refine owned_iff.mpr (Or.inr (Or.inr (held_of_other ?_ held)))
        intro worked
        rw [worked, processing] at held
        exact same (Option.some.inj held).symm
  | destroy worker last sent outside =>
    rcases owned_iff.mp (owned conn pending) with listed | queued | ⟨other, holds⟩
    · exact owned_iff.mpr (Or.inl listed)
    · exact owned_iff.mpr (Or.inr (Or.inl queued))
    · by_cases same : other = worker
      · rw [same, sent] at holds
        rcases spares outside conn ((Option.some.inj holds) ▸ sent) pending with
          listed | queued | ⟨another, different, holds⟩
        · exact owned_iff.mpr (Or.inl listed)
        · exact owned_iff.mpr (Or.inr (Or.inl queued))
        · exact owned_iff.mpr (Or.inr (Or.inr (held_of_other different holds)))
      · exact owned_iff.mpr (Or.inr (Or.inr (held_of_other same holds)))
  | goOn move quiet =>
    obtain ⟨send, member, rfl⟩ := pending
    have earlier := (pending_goOn state quiet).1 send member
    have before := owned_iff.mp (owned send.conn ⟨send, earlier, rfl⟩)
    exact owned_iff.mpr before
  | stands => exact owned conn pending

/-- In every run whose steps all spare the owners of pending sends, every functor that is called
finds its connection. -/
theorem calls_owned_of_spares (moves : List (Move Worker))
    (spares : Runs.Throughout step Spares (start : EchoServer Worker) moves) :
    Runs.Throughout step CallsOwned (start : EchoServer Worker) moves := by
  refine Runs.throughout_of_throughout PendingOwned (fun state move spared owned => ?_)
    (fun state move _ owned => owned.callsOwned move) ?_ spares
  · exact owned.acts (acts_step state move) spared
  · rintro conn ⟨send, member, -⟩
    cases member

/-- A message, its response and then the peer's close: the response finds its connection. -/
def answered : List (Move (Fin 4)) :=
  [.accept 5, .handleMessage 5 false, .getTask 0, .sendInLoop 0 [123, 125], .goOn (.wakeup 0),
    .destroy 0, .goOn .report, .goOn .handleRead, .goOn .swap, .goOn .call, .goOn .call,
    .handleMessage 5 true]

theorem answered_spares : Runs.Throughout step Spares (start : EchoServer (Fin 4)) answered := by
  refine ⟨trivial, trivial, trivial, trivial, trivial, ?_, trivial, trivial, trivial, trivial,
    trivial, ?_, trivial⟩
  · -- the connection still has its entry
    intro outside conn sent pending
    obtain rfl : 0 = conn := WorkerStage.sent.inj sent
    exact Or.inl ⟨5, by decide⟩
  · -- nothing is pending
    intro between conn found pending
    obtain ⟨send, member, -⟩ := pending
    cases member

theorem calls_owned_answered :
    Runs.Throughout step Spares (start : EchoServer (Fin 4)) answered ∧
      Runs.Throughout step CallsOwned (start : EchoServer (Fin 4)) answered :=
  ⟨answered_spares, calls_owned_of_spares answered answered_spares⟩

/-- The peer closes behind its message, and `epoll_wait` reports its descriptor before the
eventfd. -/
def closedEarly : List (Move (Fin 4)) :=
  [.accept 5, .handleMessage 5 false, .getTask 0, .sendInLoop 0 [123, 125], .goOn (.wakeup 0),
    .destroy 0, .goOn .report, .handleMessage 5 true, .goOn .handleRead, .goOn .swap]

/-- The response to a peer that has closed calls `send` of a connection without an owner. -/
theorem closedEarly_dangles :
    ¬ ∀ moves, Runs.Throughout step CallsOwned (start : EchoServer (Fin 4)) moves := by
  intro always
  obtain ⟨-, owned, -⟩ := Runs.throughout_append.mp (always (closedEarly ++ [.goOn .call]))
  rcases owned_iff.mp (owned ⟨0, [123, 125]⟩ [] rfl) with ⟨fd, entry⟩ | queued | ⟨worker, holds⟩
  · have erased := entry_of_erase entry
    exact absurd (entry_of_insert erased.2) (by simp [erased.1, start])
  · cases queued
  · revert worker
    decide

/-! ### What happens otherwise -/

/-- While steps that append nothing call all functors, the send of a connection that has lost its
owners is called. -/
theorem not_callsOwned_of_lost {conn : Nat} {moves : List (EventLoop.Move Worker Send)}
    (quiet : ∀ move ∈ moves, ∀ worker send, move ≠ .append worker send)
    (ended : (Runs.after EventLoop.step state.eventLoop moves).executed = state.eventLoop.appended)
    (sound : state.Sound) (pending : state.Pending conn) (lost : ¬ state.Owned conn) :
    ¬ Runs.Throughout step CallsOwned state (moves.map .goOn) := by
  induction moves generalizing state with
  | nil =>
    -- nothing is pending where everything was called
    obtain ⟨send, member, -⟩ := pending
    have accounted := sound.eventLoop.accounted
    rw [← ended, Runs.after_nil, List.append_assoc, List.self_eq_append_right] at accounted
    rw [EchoServer.pending, accounted] at member
    cases member
  | cons move moves inductionHypothesis =>
    obtain ⟨now, later⟩ := List.forall_mem_cons.mp quiet
    rintro ⟨owned, throughout⟩
    obtain ⟨send, member, rfl⟩ := pending
    have steps : state.step (.goOn move) =
        { state with eventLoop := state.eventLoop.step move } := by
      cases move with
      | append worker send => exact absurd rfl (now worker send)
      | _ => rfl
    obtain ⟨fewer, kept⟩ := pending_goOn state now
    rcases kept send member with still | ⟨rfl, tmp, calling⟩
    · rw [steps] at throughout
      refine inductionHypothesis later ?_ ?_ ⟨send, still, rfl⟩ ?_ throughout
      · rw [← Runs.after_cons, ended]
        exact ((EventLoop.acts_step state.eventLoop move).appended_eq now).symm
      · exact sound.acts (.goOn move now)
      · intro found
        have before := owned_iff.mp found
        exact lost (owned_iff.mpr before)
    · exact lost (owned send tmp calling)

/-- A step that does not spare the owner of a pending send takes the last one away. -/
theorem lost_of_not_spares {move : Move Worker} (sound : state.Sound)
    (spoils : ¬ state.Spares move) :
    ∃ conn, (state.step move).Pending conn ∧ ¬ (state.step move).Owned conn := by
  unfold Spares at spoils
  split at spoils
  case h_1 fd =>
    push Not at spoils
    obtain ⟨between, conn, found, pending, unqueued, unheld⟩ := spoils
    have closes : state.step (.handleMessage fd true) =
        { state with conns := Function.update state.conns fd none } := by
      simp only [step, between, found, Bool.false_eq_true, if_false, if_true]
    rw [closes]
    refine ⟨conn, pending, fun owned => ?_⟩
    rcases owned_iff.mp owned with ⟨other, entry⟩ | queued | held
    · obtain ⟨different, entry⟩ := entry_of_erase entry
      exact different (sound.single other fd conn entry found)
    · exact unqueued queued
    · exact unheld held
  case h_2 worker =>
    push Not at spoils
    obtain ⟨outside, conn, sent, pending, unlisted, unqueued, unheld⟩ := spoils
    have destroys : state.step (.destroy worker) =
        { state with worker := Function.update state.worker worker .idle } := by
      simp only [step, sent, outside, if_true]
    rw [destroys]
    refine ⟨conn, pending, fun owned => ?_⟩
    rcases owned_iff.mp owned with listed | queued | ⟨other, holds⟩
    · exact unlisted listed
    · exact unqueued queued
    · by_cases same : other = worker
      · rw [same] at holds
        simp [WorkerStage.held] at holds
      · dsimp only at holds
        rw [Function.update_of_ne same] at holds
        exact unheld other same holds
  case h_3 => exact absurd trivial spoils

/-- A run that takes a step that does not spare the owner of a pending send can go on, with the
loop thread alone and the writes that are due, to a functor that is called without its
connection. -/
theorem dangles_of_not_spares (moves : List (Move Worker)) (move : Move Worker)
    (spoils : ¬ (Runs.after step (start : EchoServer Worker) moves).Spares move) :
    ∃ later : List (EventLoop.Move Worker Send),
      ¬ Runs.Throughout step CallsOwned (start : EchoServer Worker)
        (moves ++ move :: later.map .goOn) := by
  have sound := sound_after moves
  obtain ⟨conn, pending, lost⟩ := lost_of_not_spares sound spoils
  have reached := sound.acts (acts_step _ move)
  obtain ⟨later, quiet, ended⟩ := reached.eventLoop.drains
  refine ⟨later, fun throughout => ?_⟩
  obtain ⟨-, -, rest⟩ := Runs.throughout_append.mp throughout
  exact not_callsOwned_of_lost quiet ended reached pending lost rest

end EchoServer

end SearchEngine
