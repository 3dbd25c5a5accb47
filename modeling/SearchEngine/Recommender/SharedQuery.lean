/-
This file lets several workers execute `KeyRecommander::doQuery` at once on the
one object they share.

A call is four statements, and the statements of different calls interleave in
any order. The query string of a call travels through the member `_sought`, which
every call assigns. A call whose statements find its own string there answers
rightly and stores rightly. One that finds the string of another call there
answers the other query, or stores its own answer under the other string.
-/

import SearchEngine.Recommender.KeyRecommander

namespace SearchEngine

namespace KeyRecommander

/-! ### Interleaved statements -/

/-- Where a worker stands in a call of `doQuery`: the statement it executes next, with the
parameters and the locals of the call. -/
inductive Progress where
  | idle
  | beforeGet (sought : Bytes) (idx : Fin 4)
  | beforeQuery (sought : Bytes) (lru : Fin 8)
  | beforePut (sought : Bytes) (lru : Fin 8) (res : List Bytes)

/-- The query string of the call a worker is in. -/
def Progress.own : Progress → Option Bytes
  | .idle => none
  | .beforeGet sought _ => some sought
  | .beforeQuery sought _ => some sought
  | .beforePut sought _ _ => some sought

/-- The recommender that the workers share, where every worker stands, the responses with the
strings they answer, and what was put into a cache. -/
structure Pool (Worker : Type) where
  recommander : KeyRecommander
  progress : Worker → Progress
  responses : List (Bytes × Except Fault (List Bytes))
  puts : List (Bytes × List Bytes)

/-- The next thing that happens: a worker enters a call, or it executes its next statement. -/
inductive Statement (Worker : Type) where
  | call (worker : Worker) (sought : Bytes) (idx : Fin 4)
  | next (worker : Worker)

namespace Pool

variable {Worker : Type}

/-- No worker is in a call. -/
def start (recommander : KeyRecommander) : Pool Worker where
  recommander
  progress := fun _ => .idle
  responses := []
  puts := []

variable [DecidableEq Worker]

/-- A worker goes on to another statement. -/
def goOn (pool : Pool Worker) (worker : Worker) (progress : Progress) : Pool Worker :=
  { pool with progress := Function.update pool.progress worker progress }

/-- A worker returns from its call. -/
def respond (pool : Pool Worker) (worker : Worker) (sought : Bytes)
    (res : Except Fault (List Bytes)) : Pool Worker :=
  { pool.goOn worker .idle with responses := pool.responses ++ [(sought, res)] }

/-- Execute the statement at which a worker stands. The flag that chooses the cache is read with
the lookup. -/
def execute (que : PriorityQueue CandidateResult.less) (pool : Pool Worker) (worker : Worker) :
    Progress → Pool Worker
  | .idle => pool
  | .beforeGet sought idx =>
    let lru := pool.recommander.getCache idx
    let (recommander, hit) := pool.recommander.get lru
    match hit with
    | some res => { pool with recommander }.respond worker sought (.ok res)
    | none => { pool with recommander }.goOn worker (.beforeQuery sought lru)
  | .beforeQuery sought lru =>
    let (recommander, res) := pool.recommander.query que
    match res with
    | .error fault => { pool with recommander }.respond worker sought (.error fault)
    | .ok res => { pool with recommander }.goOn worker (.beforePut sought lru res)
  | .beforePut sought lru res =>
    { pool with
      recommander := pool.recommander.put lru res
      puts := pool.puts ++ [(pool.recommander.sought, res)] }.respond worker sought (.ok res)

/-- Execute one statement. Entering a call assigns `_sought`. -/
def step (que : PriorityQueue CandidateResult.less) (pool : Pool Worker) :
    Statement Worker → Pool Worker
  | .call worker sought idx =>
    match pool.progress worker with
    | .idle =>
      { pool with recommander := pool.recommander.assign sought }.goOn worker
        (.beforeGet sought idx)
    | _ => pool
  | .next worker => pool.execute que worker (pool.progress worker)

@[simp] theorem goOn_progress (pool : Pool Worker) (worker : Worker) (progress : Progress) :
    (pool.goOn worker progress).progress worker = progress := Function.update_self _ _ _

@[simp] theorem goOn_recommander (pool : Pool Worker) (worker : Worker) (progress : Progress) :
    (pool.goOn worker progress).recommander = pool.recommander := rfl

theorem step_goOn (que : PriorityQueue CandidateResult.less) (pool : Pool Worker)
    (worker : Worker) (progress : Progress) :
    (pool.goOn worker progress).step que (.next worker) =
      (pool.goOn worker progress).execute que worker progress := by
  rw [step, goOn_progress]

theorem step_respond (que : PriorityQueue CandidateResult.less) (pool : Pool Worker)
    (worker : Worker) (sought : Bytes) (res : Except Fault (List Bytes)) :
    (pool.respond worker sought res).step que (.next worker) = pool.respond worker sought res := by
  have idle : (pool.respond worker sought res).progress worker = .idle :=
    goOn_progress pool worker .idle
  rw [step, idle, execute]

/-- The statements of a call, executed one directly after the other, are the call. -/
theorem after_call (que : PriorityQueue CandidateResult.less) {pool : Pool Worker}
    {worker : Worker} (idle : pool.progress worker = .idle) (sought : Bytes) (idx : Fin 4) :
    let ended := Runs.after (step que) pool
      [.call worker sought idx, .next worker, .next worker, .next worker]
    (ended.recommander, ended.responses) =
      ((pool.recommander.doQuery que sought idx).1,
        pool.responses ++ [(sought, (pool.recommander.doQuery que sought idx).2)]) := by
  have entered : pool.step que (.call worker sought idx) =
      { pool with recommander := pool.recommander.assign sought }.goOn worker
        (.beforeGet sought idx) := by
    rw [step, idle]
  simp only [Runs.after_cons, Runs.after_nil]
  rw [entered, step_goOn, execute, doQuery]
  simp only [goOn_recommander]
  cases ((pool.recommander.assign sought).get ((pool.recommander.assign sought).getCache idx)).2 with
  | some res =>
    dsimp only
    rw [step_respond, step_respond]
    rfl
  | none =>
    dsimp only
    rw [step_goOn, execute]
    simp only [goOn_recommander]
    cases (((pool.recommander.assign sought).get
      ((pool.recommander.assign sought).getCache idx)).1.query que).2 with
    | error fault =>
      dsimp only
      rw [step_respond]
      rfl
    | ok res =>
      dsimp only
      rw [step_goOn, execute]
      rfl

/-! ### Isolation -/

section Isolation

variable (que : PriorityQueue CandidateResult.less) (loaded : Dictionary)

/-- Every response is the recommendation list of its own string, and every key was put with its
own recommendation list. -/
structure Isolated (pool : Pool Worker) : Prop where
  responses : ∀ response ∈ pool.responses, response.2 = recommended que loaded response.1
  puts : ∀ entry ∈ pool.puts, recommended que loaded entry.1 = .ok entry.2

/-- A worker that executes a statement of its call finds its own string in `_sought`. -/
def OwnSought (pool : Pool Worker) : Statement Worker → Prop
  | .call _ _ _ => True
  | .next worker => ∀ sought ∈ (pool.progress worker).own, pool.recommander.sought = sought

instance (pool : Pool Worker) (statement : Statement Worker) :
    Decidable (pool.OwnSought statement) :=
  match statement with
  | .call _ _ _ => isTrue trivial
  | .next worker => inferInstanceAs
      (Decidable (∀ sought ∈ (pool.progress worker).own, pool.recommander.sought = sought))

/-- The invariant: the pool is isolated, and a list that is about to be put is the
recommendation list of the string of its call. -/
structure Coherent (pool : Pool Worker) : Prop where
  consistent : Consistent que loaded pool.recommander
  isolated : pool.Isolated que loaded
  queried : ∀ worker sought lru res, pool.progress worker = .beforePut sought lru res →
    recommended que loaded sought = .ok res

variable {que loaded}

theorem Isolated.respond {pool : Pool Worker} (isolated : pool.Isolated que loaded)
    (worker : Worker) {sought : Bytes} {res : Except Fault (List Bytes)}
    (right : res = recommended que loaded sought) :
    (pool.respond worker sought res).Isolated que loaded := by
  refine ⟨fun response member => ?_, isolated.puts⟩
  rcases List.mem_append.mp member with earlier | last
  · exact isolated.responses response earlier
  · obtain rfl := List.mem_singleton.mp last
    exact right

theorem Coherent.goOn {pool : Pool Worker} (coherent : pool.Coherent que loaded)
    {worker : Worker} {progress : Progress}
    (right : ∀ sought lru res, progress = .beforePut sought lru res →
      recommended que loaded sought = .ok res) :
    (pool.goOn worker progress).Coherent que loaded := by
  refine ⟨coherent.consistent, ⟨coherent.isolated.responses, coherent.isolated.puts⟩,
    fun other sought lru res stands => ?_⟩
  have stands : Function.update pool.progress worker progress other = _ := stands
  by_cases same : other = worker
  · rw [same, Function.update_self] at stands
    exact right sought lru res stands
  · rw [Function.update_of_ne same] at stands
    exact coherent.queried other sought lru res stands

theorem Coherent.respond {pool : Pool Worker} (coherent : pool.Coherent que loaded)
    (worker : Worker) {sought : Bytes} {res : Except Fault (List Bytes)}
    (right : res = recommended que loaded sought) :
    (pool.respond worker sought res).Coherent que loaded := by
  have returned : (pool.goOn worker .idle).Coherent que loaded :=
    coherent.goOn fun _ _ _ stands => by cases stands
  exact ⟨returned.consistent, coherent.isolated.respond worker right, returned.queried⟩

omit [DecidableEq Worker] in
/-- The recommender changes consistently. -/
theorem Coherent.change {pool : Pool Worker} (coherent : pool.Coherent que loaded)
    {recommander : KeyRecommander} (consistent : Consistent que loaded recommander) :
    ({ pool with recommander } : Pool Worker).Coherent que loaded :=
  ⟨consistent, ⟨coherent.isolated.responses, coherent.isolated.puts⟩, coherent.queried⟩

/-- A statement that finds its own string in `_sought` keeps the invariant. -/
theorem Coherent.step {pool : Pool Worker} (coherent : pool.Coherent que loaded)
    {statement : Statement Worker} (found : pool.OwnSought statement) :
    (pool.step que statement).Coherent que loaded := by
  cases statement with
  | call worker sought idx =>
    rw [Pool.step]
    cases pool.progress worker with
    | idle =>
      exact (coherent.change (coherent.consistent.assign sought)).goOn
        fun _ _ _ stands => by cases stands
    | beforeGet | beforeQuery | beforePut => exact coherent
  | next worker =>
    rw [OwnSought] at found
    rw [Pool.step]
    cases stands : pool.progress worker with
    | idle => exact coherent
    | beforeGet sought idx =>
      obtain ⟨kept, hits⟩ := coherent.consistent.get (pool.recommander.getCache idx)
      have own : pool.recommander.sought = sought := found sought (by rw [stands]; rfl)
      rw [execute]
      dsimp only
      cases hit : (pool.recommander.get (pool.recommander.getCache idx)).2 with
      | some res =>
        have right := hits res hit
        rw [own] at right
        exact (coherent.change kept).respond worker right.symm
      | none => exact (coherent.change kept).goOn fun _ _ _ stands => by cases stands
    | beforeQuery sought lru =>
      obtain ⟨kept, answer⟩ := coherent.consistent.query
      have own : pool.recommander.sought = sought := found sought (by rw [stands]; rfl)
      rw [own] at answer
      rw [execute]
      dsimp only
      cases ended : (pool.recommander.query que).2 with
      | error fault => exact (coherent.change kept).respond worker (ended.symm.trans answer)
      | ok res =>
        refine (coherent.change kept).goOn fun other lru list stands => ?_
        obtain ⟨rfl, rfl, rfl⟩ := Progress.beforePut.inj stands
        exact answer.symm.trans ended
    | beforePut sought lru res =>
      have right := coherent.queried worker sought lru res stands
      have own : pool.recommander.sought = sought := found sought (by rw [stands]; rfl)
      have stored : recommended que loaded pool.recommander.sought = .ok res := by
        rw [own]
        exact right
      have added : ({ pool with
          recommander := pool.recommander.put lru res
          puts := pool.puts ++ [(pool.recommander.sought, res)] } : Pool Worker).Coherent
            que loaded := by
        refine ⟨coherent.consistent.put lru stored,
          ⟨coherent.isolated.responses, fun entry member => ?_⟩, coherent.queried⟩
        rcases List.mem_append.mp member with earlier | last
        · exact coherent.isolated.puts entry earlier
        · obtain rfl := List.mem_singleton.mp last
          exact stored
      exact added.respond worker right.symm

end Isolation

/-! ### Calls that do not disturb each other -/

/-- A call is entered only while all calls under way have its string. -/
def Undisturbed (pool : Pool Worker) : Statement Worker → Prop
  | .call worker sought _ => (pool.progress worker).own = none →
      ∀ other, ∀ own ∈ (pool.progress other).own, own = sought
  | .next _ => True

/-- All calls under way have the string in `_sought`. -/
def OneString (pool : Pool Worker) : Prop :=
  ∀ worker, ∀ sought ∈ (pool.progress worker).own, pool.recommander.sought = sought

theorem OneString.goOn {pool : Pool Worker} (oneString : pool.OneString)
    {recommander : KeyRecommander} (unassigned : recommander.sought = pool.recommander.sought)
    {worker : Worker} {progress : Progress}
    (same : ∀ sought ∈ progress.own, pool.recommander.sought = sought) :
    ({ pool with recommander }.goOn worker progress : Pool Worker).OneString := by
  intro other sought own
  have own : sought ∈ (Function.update pool.progress worker progress other).own := own
  show recommander.sought = sought
  rw [unassigned]
  by_cases equal : other = worker
  · rw [equal, Function.update_self] at own
    exact same sought own
  · rw [Function.update_of_ne equal] at own
    exact oneString other sought own

theorem OneString.call {pool : Pool Worker} {worker : Worker} {sought : Bytes}
    (others : ∀ other, ∀ own ∈ (pool.progress other).own, own = sought) (idx : Fin 4) :
    ({ pool with recommander := pool.recommander.assign sought }.goOn worker
      (.beforeGet sought idx) : Pool Worker).OneString := by
  intro other string own
  have own : string ∈ (Function.update pool.progress worker (.beforeGet sought idx) other).own := own
  show sought = string
  by_cases equal : other = worker
  · rw [equal, Function.update_self] at own
    exact Option.some.inj own
  · rw [Function.update_of_ne equal] at own
    exact (others other string own).symm

/-- Only a call assigns `_sought`, and it does so while no call has another string. -/
theorem OneString.step (que : PriorityQueue CandidateResult.less) {pool : Pool Worker}
    (oneString : pool.OneString) {statement : Statement Worker}
    (undisturbed : pool.Undisturbed statement) : (pool.step que statement).OneString := by
  cases statement with
  | call worker sought idx =>
    rw [Pool.step]
    rw [Undisturbed] at undisturbed
    cases stands : pool.progress worker with
    | idle => exact OneString.call (undisturbed (by rw [stands]; rfl)) idx
    | beforeGet | beforeQuery | beforePut => exact oneString
  | next worker =>
    have own := oneString worker
    rw [Pool.step]
    cases stands : pool.progress worker with
    | idle => exact oneString
    | beforeGet sought idx =>
      rw [stands] at own
      rw [execute]
      dsimp only
      cases (pool.recommander.get (pool.recommander.getCache idx)).2 with
      | some res => exact oneString.goOn (sought_get _ _) fun _ none => by cases none
      | none => exact oneString.goOn (sought_get _ _) own
    | beforeQuery sought lru =>
      rw [stands] at own
      rw [execute]
      dsimp only
      cases (pool.recommander.query que).2 with
      | error fault => exact oneString.goOn (sought_query _) fun _ none => by cases none
      | ok res => exact oneString.goOn (sought_query _) own
    | beforePut sought lru res =>
      exact oneString.goOn (sought_put _ _ _) fun _ none => by cases none

/-- Where calls with different strings do not overlap, every statement finds the string of its
call in `_sought`. -/
theorem ownSought_of_undisturbed (que : PriorityQueue CandidateResult.less)
    (recommander : KeyRecommander) {statements : List (Statement Worker)}
    (undisturbed : Runs.Throughout (step que) Undisturbed (start recommander) statements) :
    Runs.Throughout (step que) OwnSought (start recommander) statements := by
  refine Runs.throughout_of_throughout OneString
    (fun pool statement allowed oneString => oneString.step que allowed)
    (fun pool statement _ oneString => ?_) (fun _ _ none => by cases none) undisturbed
  cases statement with
  | call worker sought idx => trivial
  | next worker => exact oneString worker

/-! ### Isolation of whole runs -/

/-- In every run in which every statement of a call finds the string of its call in `_sought`, and
at every point of it, every response is the recommendation list of its own string and every key
was put with its own recommendation list. -/
theorem isolated_of_ownSought (que : PriorityQueue CandidateResult.less)
    (recommander : KeyRecommander)
    (stored : CacheManager.Holds
      (fun key value => (recommander.dic.doQuery que key).2 = .ok value)
      recommander.cachemanager.caches)
    {statements : List (Statement Worker)}
    (own : Runs.Throughout (step que) OwnSought (start recommander) statements)
    {earlier : List (Statement Worker)} (passed : earlier <+: statements) :
    (Runs.after (step que) (start recommander) earlier).Isolated que recommander.dic := by
  obtain ⟨later, rfl⟩ := passed
  have begun : (start recommander : Pool Worker).Coherent que recommander.dic :=
    ⟨⟨Dictionary.ReadsAs.refl _, stored⟩,
      ⟨fun _ member => absurd member List.not_mem_nil,
        fun _ member => absurd member List.not_mem_nil⟩,
      fun _ _ _ _ stands => by cases stands⟩
  exact (Runs.after_of_throughout (Coherent que recommander.dic)
    (fun pool statement found coherent => coherent.step found) begun
    (Runs.throughout_append.mp own).1).isolated

/-- Two workers ask for the same string and two for different ones, one after the other. -/
theorem isolated_of_ownSought_sample :
    (Runs.after (step orderedQueue) (start sampleRecommander : Pool (Fin 4))
      [.call 1 [97] 1, .next 1, .call 2 [97] 2, .next 2, .next 1, .next 2, .next 1, .next 2,
        .call 3 [98] 3, .next 3, .next 3]).Isolated orderedQueue sampleRecommander.dic :=
  isolated_of_ownSought orderedQueue sampleRecommander holds_sampleRecommander (by decide)
    ⟨[.next 3], rfl⟩

/-- A worker that is overtaken by a call with another string answers the other query; one that is
overtaken later puts its answer under the other string. -/
theorem overtaken_not_isolated :
    CacheManager.Holds
        (fun key value => (sampleRecommander.dic.doQuery orderedQueue key).2 = .ok value)
        sampleRecommander.cachemanager.caches ∧
      ¬ (Runs.after (step orderedQueue) (start sampleRecommander : Pool (Fin 4))
        [.call 1 [97] 1, .call 2 [98] 2, .next 1, .next 1, .next 1]).Isolated orderedQueue
          sampleRecommander.dic ∧
      ¬ (Runs.after (step orderedQueue) (start sampleRecommander : Pool (Fin 4))
        [.call 1 [97] 1, .next 1, .next 1, .call 2 [98] 2, .next 1]).Isolated orderedQueue
          sampleRecommander.dic := by
  refine ⟨holds_sampleRecommander, fun isolated => ?_, fun isolated => ?_⟩
  · exact absurd isolated.responses (by decide)
  · exact absurd isolated.puts (by decide)

end Pool

end KeyRecommander

end SearchEngine
