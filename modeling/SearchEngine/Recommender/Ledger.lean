/-
This file runs calls of `KeyRecommander::doQuery` and of
`CacheManager::updateCache` one after the other, and keeps a ledger of the `put`
calls the workers make.

The ledger has the keys that were put and, for every cache, the number of `put`
calls since the last `updateCache`. A call of `doQuery` either looks its string
up in one cache, or misses it there and puts it. The first result is that the
replicas agree with the master after every `updateCache`, and that the master has
every key of the ledger as long as there is room for all keys. The second is
when the pending lists are bounded by the number of `put` calls.
-/

import SearchEngine.Cache.Synchronization
import SearchEngine.Recommender.KeyRecommander

namespace SearchEngine

open CacheManager (Replica Kept Roomy)

/-! ### The start -/

namespace CacheManager

/-- `CacheManager::init`, with caches of any capacity. -/
def ofCapacity (capacity : Nat) (cachelib : Bytes) : CacheManager where
  caches := Function.update (fun _ => LRUCache.create capacity) 0
    ((LRUCache.create capacity).readFromFile cachelib)
  cachelib

theorem init_eq_ofCapacity (cachelib : Bytes) : init cachelib = ofCapacity 10000 cachelib := rfl

/-- The keys that are read from the cache file. -/
def fileKeys (cachelib : Bytes) : List Bytes :=
  (Text.lines newline cachelib).map fun line => (LRUCache.decodeLine line).1

theorem ofCapacity_master (capacity : Nat) (cachelib : Bytes) :
    (ofCapacity capacity cachelib).caches 0 = (LRUCache.create capacity).putAll
      ((Text.lines newline cachelib).map LRUCache.decodeLine) := by
  rw [← LRUCache.readFromFile_eq, ofCapacity]
  dsimp only
  rw [Function.update_self]

theorem ofCapacity_replica (capacity : Nat) (cachelib : Bytes) (i : Replica) :
    (ofCapacity capacity cachelib).caches i = LRUCache.create capacity := by
  rw [ofCapacity]
  dsimp only
  rw [Function.update_of_ne i.2]

theorem sized_ofCapacity (capacity : Nat) (cachelib : Bytes) :
    Sized capacity (ofCapacity capacity cachelib).caches := by
  refine Sized.update (fun _ => rfl) ?_ 0
  rw [LRUCache.readFromFile_eq]
  exact LRUCache.putAll_capacity _ _

theorem roomy_ofCapacity {capacity : Nat} {cachelib : Bytes} {domain : Finset Bytes}
    (few : domain.card ≤ capacity) (known : ∀ key ∈ fileKeys cachelib, key ∈ domain) :
    Roomy capacity domain (ofCapacity capacity cachelib).caches := by
  refine ⟨sized_ofCapacity capacity cachelib, few, Holds.update
    (fun _ => LRUCache.holds_create capacity) ?_ 0⟩
  rw [LRUCache.readFromFile_eq, LRUCache.putAll]
  refine List.foldlRecOn _ _ (LRUCache.holds_create capacity) fun _ kept entry member => ?_
  obtain ⟨line, listed, rfl⟩ := List.mem_map.mp member
  exact kept.put (known _ (List.mem_map_of_mem listed))

end CacheManager

namespace KeyRecommander

variable (que : PriorityQueue CandidateResult.less)

/-! ### What a call does to the caches -/

/-- The value a call of `doQuery` puts, where it comes to its `put`. -/
def putBy (recommander : KeyRecommander) (sought : Bytes) (idx : Fin 4) : Option (List Bytes) :=
  let recommander := recommander.assign sought
  let (recommander, hit) := recommander.get (recommander.getCache idx)
  match hit with
  | some _ => none
  | none => (recommander.query que).2.toOption

/-- A call that comes to its `put` has missed its string, and has put it in the cache. -/
theorem doQuery_put {recommander : KeyRecommander} {sought : Bytes} {idx : Fin 4}
    {res : List Bytes} (put : recommander.putBy que sought idx = some res) :
    let caches := recommander.cachemanager.caches
    let lru := recommander.getCache idx
    sought ∉ (caches lru).keys ∧
      (recommander.doQuery que sought idx).1.cachemanager.caches =
        Function.update caches lru ((caches lru).put sought res) := by
  intro caches lru
  rw [putBy] at put
  rw [doQuery]
  dsimp only at put ⊢
  cases hit : ((recommander.assign sought).get ((recommander.assign sought).getCache idx)).2 with
  | some value =>
    rw [hit] at put
    cases put
  | none =>
    rw [hit] at put
    dsimp only at put ⊢
    have missed : ((caches lru).get sought).2 = none := hit
    have untouched := (caches lru).get_of_miss sought missed
    refine ⟨LRUCache.get_eq_none_iff.mp missed, ?_⟩
    cases answer : (((recommander.assign sought).get
      ((recommander.assign sought).getCache idx)).1.query que).2 with
    | error fault =>
      rw [answer] at put
      cases put
    | ok value =>
      rw [answer] at put
      obtain rfl := Option.some.inj put
      show Function.update (Function.update caches lru ((caches lru).get sought).1) lru
        ((Function.update caches lru ((caches lru).get sought).1 lru).put sought value) = _
      rw [untouched, Function.update_eq_self]

/-- Any other call only looks its string up. -/
theorem doQuery_get {recommander : KeyRecommander} {sought : Bytes} {idx : Fin 4}
    (noPut : recommander.putBy que sought idx = none) :
    let caches := recommander.cachemanager.caches
    let lru := recommander.getCache idx
    (recommander.doQuery que sought idx).1.cachemanager.caches =
      Function.update caches lru ((caches lru).get sought).1 := by
  intro caches lru
  rw [putBy] at noPut
  rw [doQuery]
  dsimp only at noPut ⊢
  cases hit : ((recommander.assign sought).get ((recommander.assign sought).getCache idx)).2 with
  | some value => rfl
  | none =>
    rw [hit] at noPut
    dsimp only at noPut ⊢
    cases answer : (((recommander.assign sought).get
      ((recommander.assign sought).getCache idx)).1.query que).2 with
    | error fault => rfl
    | ok value =>
      rw [answer] at noPut
      cases noPut

/-! ### The ledger -/

/-- A recommender, the keys that workers have put, the latest first, and the number of `put` calls
on every cache since the last `updateCache`. -/
structure Ledger where
  recommander : KeyRecommander
  stored : List Bytes
  puts : Fin 8 → Nat

namespace Ledger

/-- The caches. -/
abbrev caches (ledger : Ledger) : Caches := ledger.recommander.cachemanager.caches

/-- No call has been made yet. -/
def start (recommander : KeyRecommander) : Ledger := ⟨recommander, [], fun _ => 0⟩

/-- A call of `KeyRecommander::doQuery`. -/
def doQuery (ledger : Ledger) (sought : Bytes) (idx : Fin 4) : Ledger :=
  let recommander := (ledger.recommander.doQuery que sought idx).1
  match ledger.recommander.putBy que sought idx with
  | none => { ledger with recommander }
  | some _ =>
    let lru := ledger.recommander.getCache idx
    { recommander
      stored := sought :: ledger.stored
      puts := Function.update ledger.puts lru (ledger.puts lru + 1) }

/-- A call of `CacheManager::updateCache`. -/
def updateCache (ledger : Ledger) : Ledger where
  recommander := { ledger.recommander with
    cachemanager := ledger.recommander.cachemanager.updateCache }
  stored := ledger.stored
  puts := fun _ => 0

/-- A call of a run. -/
inductive Call where
  | doQuery (sought : Bytes) (idx : Fin 4)
  | updateCache

/-- One call. -/
def step (ledger : Ledger) : Call → Ledger
  | .doQuery sought idx => ledger.doQuery que sought idx
  | .updateCache => ledger.updateCache

/-- What a call of `doQuery` does: it looks its string up in a cache, or misses it there and puts
it. -/
theorem doQuery_cases (ledger : Ledger) (sought : Bytes) (idx : Fin 4) :
    let later := ledger.doQuery que sought idx
    (∃ lru, later.caches =
        Function.update ledger.caches lru ((ledger.caches lru).get sought).1 ∧
      later.stored = ledger.stored ∧ later.puts = ledger.puts) ∨
    (∃ lru, ∃ res : List Bytes, sought ∉ (ledger.caches lru).keys ∧ later.caches =
        Function.update ledger.caches lru ((ledger.caches lru).put sought res) ∧
      later.stored = sought :: ledger.stored ∧
      later.puts = Function.update ledger.puts lru (ledger.puts lru + 1)) := by
  intro later
  have value : later = ledger.doQuery que sought idx := rfl
  rw [value, doQuery]
  cases put : ledger.recommander.putBy que sought idx with
  | none => exact Or.inl ⟨_, doQuery_get que put, rfl, rfl⟩
  | some res =>
    obtain ⟨absent, caches⟩ := doQuery_put que put
    exact Or.inr ⟨_, res, absent, caches, rfl, rfl⟩

/-! ### Convergence -/

variable {que} {capacity : Nat} {domain : Finset Bytes} {ledger : Ledger}

theorem sized_step (sized : CacheManager.Sized capacity ledger.caches) (call : Call) :
    CacheManager.Sized capacity (ledger.step que call).caches := by
  cases call with
  | updateCache => exact sized.updateCache
  | doQuery sought idx =>
    rcases ledger.doQuery_cases que sought idx with ⟨lru, caches, _⟩ | ⟨lru, res, _, caches, _⟩
    · rw [step, caches]
      exact sized.update (((ledger.caches lru).get_capacity sought).trans (sized lru)) lru
    · rw [step, caches]
      exact sized.update (((ledger.caches lru).put_capacity sought res).trans (sized lru)) lru

/-- There is room for all keys, and every key that was put is kept. -/
structure Complete (capacity : Nat) (domain : Finset Bytes) (ledger : Ledger) : Prop where
  roomy : Roomy capacity domain ledger.caches
  kept : ∀ key ∈ ledger.stored, Kept ledger.caches key

theorem roomy_doQuery (roomy : Roomy capacity domain ledger.caches) {sought : Bytes} {idx : Fin 4}
    (known : ∀ key ∈ (ledger.doQuery que sought idx).stored, key ∈ domain) :
    Roomy capacity domain (ledger.doQuery que sought idx).caches := by
  rcases ledger.doQuery_cases que sought idx with
    ⟨lru, caches, _⟩ | ⟨lru, res, _, caches, stored, _⟩
  · exact caches ▸ roomy.get lru sought
  · exact caches ▸ roomy.put lru (known sought (stored ▸ List.mem_cons_self)) res

/-- A call of `doQuery` loses no key, and keeps the key it puts. -/
theorem Complete.doQuery (complete : Complete capacity domain ledger) {sought : Bytes} {idx : Fin 4}
    (known : ∀ key ∈ (ledger.doQuery que sought idx).stored, key ∈ domain) :
    Complete capacity domain (ledger.doQuery que sought idx) := by
  refine ⟨roomy_doQuery complete.roomy known, fun key member => ?_⟩
  rcases ledger.doQuery_cases que sought idx with
    ⟨lru, caches, stored, _⟩ | ⟨lru, res, absent, caches, stored, _⟩
  · rw [stored] at member
    rw [caches]
    exact (complete.kept key member).get lru sought
  · have knownSought : sought ∈ domain := known sought (stored ▸ List.mem_cons_self)
    rw [stored] at member
    rw [caches]
    exact CacheManager.kept_put complete.roomy knownSought absent res
      ((List.mem_cons.mp member).imp_right (complete.kept key))

/-- An `updateCache` moves every key that was put to the master. -/
theorem Complete.updateCache (complete : Complete capacity domain ledger) :
    Complete capacity domain ledger.updateCache ∧
      ∀ key ∈ ledger.stored, key ∈ (ledger.updateCache.caches 0).keys := by
  have moved : ∀ key ∈ ledger.stored, key ∈ (ledger.updateCache.caches 0).keys :=
    fun key member => (complete.kept key member).updateCache complete.roomy
  exact ⟨⟨complete.roomy.updateCache, fun key member => Or.inl (moved key member)⟩, moved⟩

theorem stored_suffix_step (ledger : Ledger) (call : Call) :
    ledger.stored <:+ (ledger.step que call).stored := by
  cases call with
  | updateCache => exact List.suffix_rfl
  | doQuery sought idx =>
    rcases ledger.doQuery_cases que sought idx with ⟨_, _, stored, _⟩ | ⟨_, _, _, _, stored, _⟩
    · exact (show (ledger.step que (.doQuery sought idx)).stored = _ from stored) ▸
        List.suffix_rfl
    · exact (show (ledger.step que (.doQuery sought idx)).stored = _ from stored) ▸
        List.suffix_cons _ _

/-- The keys of the ledger are kept along a run, where all keys have room. -/
theorem complete_after (ended : Complete capacity domain ledger) (calls : List Call)
    (known : ∀ key ∈ (Runs.after (step que) ledger calls).stored, key ∈ domain) :
    Complete capacity domain (Runs.after (step que) ledger calls) := by
  refine Runs.after_of_kept (fun ledger => (∀ key ∈ ledger.stored, key ∈ domain) →
    Complete capacity domain ledger) (fun ledger call complete known => ?_) (fun _ => ended) calls
    known
  have before := complete fun key member =>
    known key ((stored_suffix_step ledger call).subset member)
  cases call with
  | updateCache => exact before.updateCache.1
  | doQuery sought idx => exact before.doQuery known

/-- The caches start with room for all keys. -/
theorem complete_start (dic : Dictionary) (sought : Bytes) {cachelib : Bytes}
    (few : domain.card ≤ capacity)
    (known : ∀ key ∈ CacheManager.fileKeys cachelib, key ∈ domain) :
    Complete capacity domain (start ⟨dic, CacheManager.ofCapacity capacity cachelib, sought⟩) :=
  ⟨CacheManager.roomy_ofCapacity few known, fun _ member => absurd member List.not_mem_nil⟩

/-- Right after every `updateCache` of every run, the replicas have the map of the master and nothing
pending. Where the distinct keys that were ever stored, by the cache file or by a worker, are at
most as many as the capacity, the master then holds every key that a worker has put. -/
theorem replicas_converge (dic : Dictionary) (sought : Bytes) (capacity : Nat) (cachelib : Bytes)
    (calls : List Call) :
    let ended := Runs.after (step que)
      (start ⟨dic, CacheManager.ofCapacity capacity cachelib, sought⟩) (calls ++ [.updateCache])
    (∀ i : Replica, LRUCache.SameMap (ended.caches i) (ended.caches 0) ∧
        (ended.caches i).raw.pendingUpdateList = []) ∧
      ((CacheManager.fileKeys cachelib ++ ended.stored).toFinset.card ≤ capacity →
        ∀ key ∈ ended.stored, key ∈ (ended.caches 0).keys) := by
  intro ended
  have last : ended = (Runs.after (step que)
      (start ⟨dic, CacheManager.ofCapacity capacity cachelib, sought⟩) calls).updateCache := by
    simp only [ended, Runs.after, List.foldl_append, List.foldl_cons, List.foldl_nil]
    rfl
  set before := Runs.after (step que)
    (start ⟨dic, CacheManager.ofCapacity capacity cachelib, sought⟩) calls with beforeEq
  have sized : CacheManager.Sized capacity before.caches :=
    Runs.after_of_kept (fun ledger : Ledger => CacheManager.Sized capacity ledger.caches)
      (fun _ call kept => sized_step kept call)
      (CacheManager.sized_ofCapacity capacity cachelib) calls
  rw [last]
  refine ⟨fun i => ⟨CacheManager.updateCache_sameMap sized i, CacheManager.updateCache_pending i⟩,
    fun few => ?_⟩
  have known (key : Bytes) (member : key ∈ CacheManager.fileKeys cachelib ∨ key ∈ before.stored) :
      key ∈ (CacheManager.fileKeys cachelib ++ before.stored).toFinset := by
    rw [List.mem_toFinset, List.mem_append]
    exact member
  have complete : Complete capacity _ before := complete_after
    (complete_start dic sought few fun key member => known key (Or.inl member)) calls
    fun key member => known key (Or.inr member)
  exact complete.updateCache.2

/-! ### Pending lists -/

/-- Every pending list has at most as many entries as `put` calls were made on its cache since the
last `updateCache`. -/
def Bounded (ledger : Ledger) : Prop :=
  ∀ i, (ledger.caches i).raw.pendingUpdateList.length ≤ ledger.puts i

/-- An `updateCache` finds nothing pending in the master, and pending in the replicas only keys that
the master holds. -/
def Settled (ledger : Ledger) : Call → Prop
  | .doQuery _ _ => True
  | .updateCache => (ledger.caches 0).raw.pendingUpdateList = [] ∧
      ∀ i : Replica, ∀ key ∈ (ledger.caches i).pendingKeys, key ∈ (ledger.caches 0).keys

/-- A call of `doQuery` queues at most what it puts. -/
theorem Bounded.doQuery (bounded : ledger.Bounded) (sought : Bytes) (idx : Fin 4) :
    (ledger.doQuery que sought idx).Bounded := by
  intro i
  have before := bounded i
  rcases ledger.doQuery_cases que sought idx with
    ⟨lru, caches, _, puts⟩ | ⟨lru, res, absent, caches, _, puts⟩
  · rw [caches, puts]
    by_cases same : i = lru
    · rw [same] at before ⊢
      rwa [Function.update_self, LRUCache.get_pending]
    · rwa [Function.update_of_ne same]
  · rw [caches, puts]
    by_cases same : i = lru
    · rw [same] at before ⊢
      rw [Function.update_self, Function.update_self, LRUCache.put_absent absent, List.length_cons]
      exact Nat.succ_le_succ before
    · rwa [Function.update_of_ne same, Function.update_of_ne same]

/-- After an `updateCache`, the bound says that no cache has anything pending. -/
theorem bounded_updateCache_iff (ledger : Ledger) :
    ledger.updateCache.Bounded ↔ ledger.Settled .updateCache := by
  have master := @CacheManager.updateCache_pending_master_iff ledger.recommander.cachemanager
  constructor
  · intro bounded
    exact master.mp (List.length_eq_zero_iff.mp (Nat.le_zero.mp (bounded 0)))
  · intro settled i
    by_cases isMaster : i = 0
    · rw [isMaster]
      exact (List.length_eq_zero_iff.mpr (master.mpr settled)).le
    · exact (List.length_eq_zero_iff.mpr
        (CacheManager.updateCache_pending ⟨i, isMaster⟩)).le

/-- The master starts with a pending entry for the first line of the cache file. -/
theorem bounded_start_iff (dic : Dictionary) (sought : Bytes) (cachelib : Bytes) :
    (start ⟨dic, CacheManager.init cachelib, sought⟩).Bounded ↔
      Text.lines newline cachelib = [] := by
  have created : ((LRUCache.create 10000).putAll
      ((Text.lines newline cachelib).map LRUCache.decodeLine)).raw.pendingUpdateList = [] ↔
      Text.lines newline cachelib = [] := by
    have exact := @LRUCache.pending_putAll_eq_iff (LRUCache.create 10000)
      ((Text.lines newline cachelib).map LRUCache.decodeLine)
    refine exact.trans ⟨fun held => ?_, fun none => by rw [none]; simp⟩
    by_contra some
    obtain ⟨line, lines, eq⟩ := List.exists_cons_of_ne_nil some
    have first := held (LRUCache.decodeLine line) (by rw [eq]; simp)
    exact absurd first List.not_mem_nil
  rw [← created, ← CacheManager.ofCapacity_master, ← CacheManager.init_eq_ofCapacity]
  constructor
  · intro bounded
    exact List.length_eq_zero_iff.mp (Nat.le_zero.mp (bounded 0))
  · intro empty i
    by_cases isMaster : i = 0
    · rw [isMaster]
      exact (List.length_eq_zero_iff.mpr empty).le
    · have replica := CacheManager.ofCapacity_replica 10000 cachelib ⟨i, isMaster⟩
      show ((CacheManager.ofCapacity 10000 cachelib).caches i).raw.pendingUpdateList.length ≤ 0
      rw [replica]
      exact Nat.le_refl 0

/-- The pending lists are bounded in every state of a run exactly when the cache file has no line,
and every `updateCache` finds nothing pending in the master, and pending in the replicas only keys
that the master holds. -/
theorem bounded_iff_settled (dic : Dictionary) (sought : Bytes) (cachelib : Bytes)
    (calls : List Call) :
    (∀ earlier, earlier <+: calls → (Runs.after (step que)
        (start ⟨dic, CacheManager.init cachelib, sought⟩) earlier).Bounded) ↔
      Text.lines newline cachelib = [] ∧ Runs.Throughout (step que) Settled
        (start ⟨dic, CacheManager.init cachelib, sought⟩) calls := by
  have always : Runs.Throughout (step que) (fun _ _ => True)
      (start ⟨dic, CacheManager.init cachelib, sought⟩) calls :=
    Runs.throughout_of_forall (fun _ _ => trivial) _ _
  rw [← bounded_start_iff dic sought cachelib]
  refine Runs.always_iff_throughout (fun _ => True) Bounded (fun _ _ _ _ => trivial)
    (fun ledger call _ _ bounded => ?_) trivial always
  cases call with
  | doQuery sought idx => exact iff_of_true (bounded.doQuery sought idx) trivial
  | updateCache => exact bounded_updateCache_iff ledger

/-- The entry of the cache file is pending in the master before any worker has put anything; and an
entry that a worker puts is pending there after the update. -/
theorem pending_unbounded :
    ¬ (start sampleRecommander).Bounded ∧
      ¬ (Runs.after (step orderedQueue)
        (start ⟨sampleRecommander.dic, CacheManager.init [], []⟩)
        [.doQuery [97] 1, .updateCache]).Bounded := by
  refine ⟨fun bounded => ?_, fun bounded => ?_⟩
  · exact absurd (bounded 0) (by decide)
  · exact absurd (bounded 0) (by decide)

end Ledger

end KeyRecommander

end SearchEngine
