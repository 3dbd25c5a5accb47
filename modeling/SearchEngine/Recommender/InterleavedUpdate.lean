/-
This file interleaves calls of `KeyRecommander::doQuery` with the statements of
`CacheManager::updateCache`.

The thread of the timer executes the statements of one `updateCache` after the
other, and between any two of them a worker may make a call. A key that was put
is lost at one statement only: the copy over a replica in which the key is still
pending, because it was put there after the drain of the replica. The copy clears
the pending list together with what it put there itself.
-/

import SearchEngine.Recommender.Ledger

namespace SearchEngine

namespace KeyRecommander

open CacheManager (Replica Kept Roomy UpdateStep Overwritten)

/-- The ledger, and the statements of the current `updateCache` that are still to be executed. -/
structure Update where
  ledger : Ledger
  remaining : List UpdateStep

namespace Update

/-- What happens next: a worker makes a call, or the thread of the timer goes on. -/
inductive Move where
  | doQuery (sought : Bytes) (idx : Fin 4)
  | next

/-- No call has been made yet, and no `updateCache` is under way. -/
def start (recommander : KeyRecommander) : Update := ⟨Ledger.start recommander, []⟩

/-- Execute one statement of `updateCache`. -/
def execute (ledger : Ledger) (statement : UpdateStep) : Ledger :=
  { ledger with
    recommander := { ledger.recommander with
      cachemanager := ledger.recommander.cachemanager.perform statement } }

variable (que : PriorityQueue CandidateResult.less)

/-- One step. With no statement left, the thread of the timer enters `updateCache` anew. -/
def step (update : Update) : Move → Update
  | .doQuery sought idx => { update with ledger := update.ledger.doQuery que sought idx }
  | .next =>
    match update.remaining with
    | [] => { update with remaining := CacheManager.updateSteps }
    | statement :: remaining => ⟨execute update.ledger statement, remaining⟩

/-- The statements of an `updateCache`, executed one directly after the other, are the call. -/
theorem after_updateCache (update : Update) (idle : update.remaining = []) :
    let ended := Runs.after (step que) update
      (.next :: CacheManager.updateSteps.map fun _ => .next)
    ended.ledger.recommander = update.ledger.updateCache.recommander ∧ ended.remaining = [] := by
  have performed : ∀ (statements : List UpdateStep) (ledger : Ledger),
      Runs.after (step que) ⟨ledger, statements⟩ (statements.map fun _ => .next) =
        ⟨{ ledger with recommander := { ledger.recommander with
          cachemanager := statements.foldl CacheManager.perform
            ledger.recommander.cachemanager } }, []⟩ := by
    intro statements
    induction statements with
    | nil => exact fun _ => rfl
    | cons statement statements inductionHypothesis =>
      intro ledger
      exact inductionHypothesis (execute ledger statement)
  have entered : update.step que .next = ⟨update.ledger, CacheManager.updateSteps⟩ := by
    rw [step, idle]
  intro ended
  have result : ended = Runs.after (step que) ⟨update.ledger, CacheManager.updateSteps⟩
      (CacheManager.updateSteps.map fun _ => .next) := by
    rw [← entered]
    rfl
  rw [result, performed, CacheManager.foldl_updateSteps]
  exact ⟨rfl, rfl⟩

/-! ### Keys that are lost -/

/-- Every key that was put is held by the master or pending in a replica. -/
def Unlost (update : Update) : Prop :=
  ∀ key ∈ update.ledger.stored, Kept update.ledger.caches key

/-- A copy over a replica finds every key that is pending there in the master too, or pending in
another replica; or the master has no entry, and the copy clears nothing. -/
def Spares (update : Update) : Move → Prop
  | .doQuery _ _ => True
  | .next => ∀ i, update.remaining.head? = some (.updateM2M i) →
      ∀ key ∈ (update.ledger.caches i).pendingKeys, ¬ Overwritten update.ledger.caches i key

/-- The invariant: there is room for all keys, and what is pending in a replica was put by a
worker. -/
structure Traced (capacity : Nat) (domain : Finset Bytes) (update : Update) : Prop where
  roomy : Roomy capacity domain update.ledger.caches
  pending : ∀ i : Replica, ∀ key ∈ (update.ledger.caches i).pendingKeys,
    key ∈ update.ledger.stored

variable {que} {capacity : Nat} {domain : Finset Bytes} {update : Update}

theorem Traced.doQuery (traced : Traced capacity domain update) {sought : Bytes} {idx : Fin 4}
    (known : ∀ key ∈ (update.step que (.doQuery sought idx)).ledger.stored, key ∈ domain) :
    Traced capacity domain (update.step que (.doQuery sought idx)) := by
  refine ⟨Ledger.roomy_doQuery traced.roomy known, fun i key pending => ?_⟩
  have later : (update.step que (.doQuery sought idx)).ledger =
      update.ledger.doQuery que sought idx := rfl
  rw [later] at pending ⊢
  rcases update.ledger.doQuery_cases que sought idx with
    ⟨lru, caches, stored, _⟩ | ⟨lru, res, absent, caches, stored, _⟩
  · rw [caches] at pending
    rw [stored]
    refine traced.pending i key ?_
    by_cases same : (i : Fin 8) = lru
    · rw [same, Function.update_self, LRUCache.pendingKeys, LRUCache.get_pending] at pending
      exact same ▸ pending
    · rwa [Function.update_of_ne same] at pending
  · have knownSought : sought ∈ domain :=
      known sought ((congrArg (sought ∈ ·) stored).mpr List.mem_cons_self)
    rw [caches] at pending
    rw [stored]
    rcases (CacheManager.put_missed traced.roomy knownSought absent res i key).2.mp pending with
      ⟨_, rfl⟩ | before
    · exact List.mem_cons_self
    · exact List.mem_cons_of_mem _ (traced.pending i key before)

theorem Traced.execute {ledger : Ledger} {remaining : List UpdateStep} {statement : UpdateStep}
    (traced : Traced capacity domain ⟨ledger, statement :: remaining⟩) :
    Traced capacity domain ⟨execute ledger statement, remaining⟩ := by
  refine ⟨traced.roomy.perform statement, fun i key pending => traced.pending i key ?_⟩
  cases statement with
  | setFlags replica flag => exact (CacheManager.setFlags_pendingKeys replica i flag) ▸ pending
  | updateP2M replica =>
    have drained : key ∈ (CacheManager.drain ledger.caches replica i).pendingKeys := pending
    rw [CacheManager.drain_pendingKeys] at drained
    split_ifs at drained
    · exact absurd drained List.not_mem_nil
    · exact drained
  | writeToFile => exact pending
  | updateM2M replica =>
    have copied : key ∈ (CacheManager.copy ledger.caches replica i).pendingKeys := pending
    rw [LRUCache.pendingKeys, CacheManager.copy_pending] at copied
    split_ifs at copied
    · exact absurd copied List.not_mem_nil
    · exact copied

/-- A statement loses a key exactly when it is a copy that does not spare it. -/
theorem unlost_execute_iff {ledger : Ledger} {remaining : List UpdateStep} {statement : UpdateStep}
    (traced : Traced capacity domain ⟨ledger, statement :: remaining⟩)
    (unlost : Unlost ⟨ledger, statement :: remaining⟩) :
    Unlost ⟨execute ledger statement, remaining⟩ ↔
      Spares ⟨ledger, statement :: remaining⟩ .next := by
  have others (spared : ∀ i : Replica, statement ≠ .updateM2M i) :
      Spares ⟨ledger, statement :: remaining⟩ .next :=
    fun i head => absurd (Option.some.inj head) (spared i)
  cases statement with
  | setFlags replica flag =>
    refine iff_of_true (fun key member => ?_) (others fun i => by simp)
    exact (CacheManager.kept_setFlags flag).mpr (unlost key member)
  | updateP2M replica =>
    refine iff_of_true (fun key member => ?_) (others fun i => by simp)
    exact (CacheManager.kept_drain traced.roomy replica).mpr (unlost key member)
  | writeToFile => exact iff_of_true unlost (others fun i => by simp)
  | updateM2M replica =>
    have copied (key : Bytes) (member : key ∈ ledger.stored) :
        Kept (CacheManager.copy ledger.caches replica) key ↔
          ¬ Overwritten ledger.caches replica key :=
      CacheManager.kept_copy (unlost key member) replica
    constructor
    · intro later i head key pending
      obtain rfl := UpdateStep.updateM2M.inj (Option.some.inj head)
      have member := traced.pending replica key pending
      exact (copied key member).mp (later key member)
    · intro spares key member
      refine (copied key member).mpr fun overwritten => ?_
      -- the key is pending somewhere, and so in the replica that is overwritten
      rcases unlost key member with held | ⟨j, pending⟩
      · exact overwritten.2.1 held
      · by_cases same : j = replica
        · exact spares replica rfl key (same ▸ pending) overwritten
        · exact overwritten.2.2 j same pending

/-- One step keeps the invariant. -/
theorem Traced.step (traced : Traced capacity domain update) (move : Move)
    (known : ∀ key ∈ (update.step que move).ledger.stored, key ∈ domain) :
    Traced capacity domain (update.step que move) := by
  obtain ⟨ledger, remaining⟩ := update
  cases move with
  | doQuery sought idx => exact traced.doQuery known
  | next =>
    cases remaining with
    | nil => exact ⟨traced.roomy, traced.pending⟩
    | cons statement remaining => exact traced.execute

/-- One step loses a key exactly when it is a copy that does not spare it. -/
theorem unlost_step_iff (traced : Traced capacity domain update) (unlost : update.Unlost)
    (move : Move) (known : ∀ key ∈ (update.step que move).ledger.stored, key ∈ domain) :
    (update.step que move).Unlost ↔ update.Spares move := by
  obtain ⟨ledger, remaining⟩ := update
  cases move with
  | doQuery sought idx =>
    have complete : Ledger.Complete capacity domain ledger := ⟨traced.roomy, unlost⟩
    exact iff_of_true (complete.doQuery known).kept trivial
  | next =>
    cases remaining with
    | nil => exact iff_of_true unlost fun _ head => by cases head
    | cons statement remaining => exact unlost_execute_iff traced unlost

/-! ### Runs -/

theorem stored_suffix_step (update : Update) (move : Move) :
    update.ledger.stored <:+ (update.step que move).ledger.stored := by
  cases move with
  | doQuery sought idx => exact Ledger.stored_suffix_step update.ledger (.doQuery sought idx)
  | next =>
    rw [step]
    split <;> exact List.suffix_rfl

/-- Where the keys at the end of a run are among those of a set, so are those after every step. -/
theorem throughout_known (moves : List Move) (update : Update)
    (known : ∀ key ∈ (Runs.after (step que) update moves).ledger.stored, key ∈ domain) :
    Runs.Throughout (step que) (fun update move =>
      ∀ key ∈ (update.step que move).ledger.stored, key ∈ domain) update moves := by
  induction moves generalizing update with
  | nil => trivial
  | cons move moves inductionHypothesis =>
    have grows : (update.step que move).ledger.stored <:+
        (Runs.after (step que) (update.step que move) moves).ledger.stored :=
      Runs.after_of_kept
        (fun later : Update => (update.step que move).ledger.stored <:+ later.ledger.stored)
        (fun later move grown => grown.trans (stored_suffix_step later move)) List.suffix_rfl moves
    exact ⟨fun key member => known key (grows.subset member), inductionHypothesis _ known⟩

/-- In a run in which the distinct keys that were ever stored are at most as many as the capacity, no
key that a worker has put is lost in any state exactly when every copy spares what is pending in
the replica it overwrites. -/
theorem unlost_iff_spares (dic : Dictionary) (sought : Bytes) (capacity : Nat) (cachelib : Bytes)
    (moves : List Move)
    (few : (CacheManager.fileKeys cachelib ++ (Runs.after (step que)
      (start ⟨dic, CacheManager.ofCapacity capacity cachelib, sought⟩)
        moves).ledger.stored).toFinset.card ≤ capacity) :
    (∀ earlier, earlier <+: moves → (Runs.after (step que)
        (start ⟨dic, CacheManager.ofCapacity capacity cachelib, sought⟩) earlier).Unlost) ↔
      Runs.Throughout (step que) Spares
        (start ⟨dic, CacheManager.ofCapacity capacity cachelib, sought⟩) moves := by
  set begun := start ⟨dic, CacheManager.ofCapacity capacity cachelib, sought⟩ with begunEq
  set domain := (CacheManager.fileKeys cachelib ++
    (Runs.after (step que) begun moves).ledger.stored).toFinset with domainEq
  have fromFile : ∀ key ∈ CacheManager.fileKeys cachelib, key ∈ domain := fun key member =>
    List.mem_toFinset.mpr (List.mem_append_left _ member)
  have fromWorkers : ∀ key ∈ (Runs.after (step que) begun moves).ledger.stored, key ∈ domain :=
    fun key member => List.mem_toFinset.mpr (List.mem_append_right _ member)
  have traced : Traced capacity domain begun := by
    refine ⟨CacheManager.roomy_ofCapacity few fromFile, fun i key pending => ?_⟩
    have empty : (begun.ledger.caches i).pendingKeys = [] := by
      rw [begunEq]
      show ((CacheManager.ofCapacity capacity cachelib).caches i).pendingKeys = []
      rw [CacheManager.ofCapacity_replica]
      rfl
    rw [empty] at pending
    exact absurd pending List.not_mem_nil
  have unlost : begun.Unlost := fun _ member => absurd member List.not_mem_nil
  have rule : (∀ earlier, earlier <+: moves → (Runs.after (step que) begun earlier).Unlost) ↔
      begun.Unlost ∧ Runs.Throughout (step que) Spares begun moves :=
    Runs.always_iff_throughout (Traced capacity domain) Unlost
      (fun _ move known traced => traced.step move known)
      (fun _ move known traced unlost => unlost_step_iff traced unlost move known) traced
      (throughout_known moves begun fromWorkers)
  exact rule.trans (and_iff_right unlost)

/-- A worker puts two keys, one before an update and one after it. -/
theorem unlost_iff_spares_sample :
    let recommander : KeyRecommander := ⟨sampleRecommander.dic, CacheManager.ofCapacity 3 [], []⟩
    let moves : List Move := .doQuery [97] 1 ::
      (.next :: CacheManager.updateSteps.map fun _ => .next) ++ [.doQuery [98] 1]
    (∀ earlier, earlier <+: moves →
        (Runs.after (step orderedQueue) (start recommander) earlier).Unlost) ↔
      Runs.Throughout (step orderedQueue) Spares (start recommander) moves :=
  unlost_iff_spares sampleRecommander.dic [] 3 [] _ (by decide)

/-- A worker puts a key into a replica behind the last drain and in front of the copy over the
replica. The copy clears the pending list, and the key is nowhere. -/
theorem put_between_phases_lost :
    let recommander : KeyRecommander :=
      ⟨sampleRecommander.dic, CacheManager.ofCapacity 3 (ascii "a:a \n"), []⟩
    let ended := Runs.after (step orderedQueue) (start recommander)
      (List.replicate 23 .next ++ [.doQuery [98] 1, .next, .next])
    (CacheManager.fileKeys (ascii "a:a \n") ++ ended.ledger.stored).toFinset.card ≤ 3 ∧
      ended.ledger.stored = [[98]] ∧ ¬ ended.Unlost := by
  refine ⟨by decide, by decide, fun unlost => ?_⟩
  exact absurd (unlost [98] (by decide)) (by decide)

end Update

end KeyRecommander

end SearchEngine
