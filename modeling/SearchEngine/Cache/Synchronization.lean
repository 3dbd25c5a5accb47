/-
This file follows a key through the caches, from a worker's `put` to the master.

A key that was put is kept as long as the master holds it or a replica has it
pending. A drain keeps it, when there is room for all keys. A copy keeps it
unless it is pending in the replica that is overwritten, and nowhere else. In a
whole `updateCache` every replica is drained before any is overwritten, so
nothing is lost, every replica ends with the map of the master, and no replica
has anything pending.
-/

import SearchEngine.Cache.UpdateSteps

namespace SearchEngine

namespace CacheManager

variable {caches : Caches} {i : Replica} {key : Bytes}

/-! ### Keys that are kept -/

/-- The master holds a key, or the next `updateCache` drains it from a replica. -/
def Kept (caches : Caches) (key : Bytes) : Prop :=
  key ∈ (caches 0).keys ∨ ∃ i : Replica, key ∈ (caches i).pendingKeys

instance (caches : Caches) (key : Bytes) : Decidable (Kept caches key) :=
  inferInstanceAs (Decidable (_ ∨ _))

/-- All keys are among those of a set that fits into every cache. -/
structure Roomy (capacity : Nat) (domain : Finset Bytes) (caches : Caches) : Prop where
  sized : Sized capacity caches
  few : domain.card ≤ capacity
  known : Holds (fun key _ => key ∈ domain) caches

variable {capacity : Nat} {domain : Finset Bytes}

theorem Roomy.mem_keys (roomy : Roomy capacity domain caches) {i : Fin 8}
    (held : key ∈ (caches i).keys) : key ∈ domain := by
  obtain ⟨entry, member, rfl⟩ := List.mem_map.mp held
  exact (roomy.known i).entries entry member

theorem Roomy.mem_pending (roomy : Roomy capacity domain caches) {i : Fin 8}
    (pending : key ∈ (caches i).pendingKeys) : key ∈ domain := by
  obtain ⟨node, member, rfl⟩ := List.mem_map.mp pending
  exact (roomy.known i).pending node member

theorem Roomy.perform {manager : CacheManager} (roomy : Roomy capacity domain manager.caches)
    (step : UpdateStep) : Roomy capacity domain (manager.perform step).caches := by
  refine ⟨roomy.sized.perform step, roomy.few, ?_⟩
  cases step with
  | setFlags i flag => exact roomy.known.setFlags i flag
  | updateP2M i => exact roomy.known.drain i
  | writeToFile => exact roomy.known
  | updateM2M i => exact roomy.known.copy i

theorem setFlags_keys (i j : Fin 8) (flag : Bool) :
    (setFlags caches i flag j).keys = (caches j).keys :=
  congrArg (List.map Prod.fst) (setFlags_frame i j flag).1

theorem setFlags_pendingKeys (i j : Fin 8) (flag : Bool) :
    (setFlags caches i flag j).pendingKeys = (caches j).pendingKeys :=
  congrArg (List.map CacheNode.key) (setFlags_frame i j flag).2.1

theorem kept_setFlags (flag : Bool) : Kept (setFlags caches i flag) key ↔ Kept caches key := by
  rw [Kept, Kept, setFlags_keys]
  simp only [setFlags_pendingKeys]

/-- A drain adds the pending keys of the replica to those of the master. -/
theorem mem_keys_drain (roomy : Roomy capacity domain caches) (i : Replica) :
    key ∈ (drain caches i 0).keys ↔ key ∈ (caches i).pendingKeys ∨ key ∈ (caches 0).keys := by
  have known : ∀ entry ∈ (caches i).raw.pendingUpdateList.map CacheNode.entry,
      entry.1 ∈ domain := by
    intro entry member
    obtain ⟨node, pending, rfl⟩ := List.mem_map.mp member
    exact roomy.mem_pending (List.mem_map_of_mem pending)
  have few : domain.card ≤ (caches 0).raw.capacity := (roomy.sized 0).symm ▸ roomy.few
  rw [drain_master, LRUCache.mem_keys_putAll few known fun _ held => roomy.mem_keys held,
    LRUCache.map_fst_pending]

theorem drain_pending (i j : Replica) : (drain caches i j).raw.pendingUpdateList =
    if j = i then [] else (caches j).raw.pendingUpdateList := by
  by_cases same : j = i
  · rw [if_pos same, same, drain_replica, LRUCache.clearPending_pending]
  · rw [if_neg same, drain_other j.2 fun equal => same (Subtype.ext equal)]

theorem drain_pendingKeys (i j : Replica) : (drain caches i j).pendingKeys =
    if j = i then [] else (caches j).pendingKeys := by
  rw [LRUCache.pendingKeys, drain_pending]
  split_ifs <;> rfl

/-- A drain moves keys and loses none. -/
theorem kept_drain (roomy : Roomy capacity domain caches) (i : Replica) :
    Kept (drain caches i) key ↔ Kept caches key := by
  rw [Kept, Kept, mem_keys_drain roomy]
  simp only [drain_pendingKeys]
  constructor
  · rintro ((pending | held) | ⟨j, pending⟩)
    · exact Or.inr ⟨i, pending⟩
    · exact Or.inl held
    · split_ifs at pending
      · exact absurd pending List.not_mem_nil
      · exact Or.inr ⟨j, pending⟩
  · rintro (held | ⟨j, pending⟩)
    · exact Or.inl (Or.inr held)
    · by_cases same : j = i
      · exact Or.inl (Or.inl (same ▸ pending))
      · exact Or.inr ⟨j, by rwa [if_neg same]⟩

theorem copy_master (i : Replica) : copy caches i 0 = caches 0 := copy_other i.2.symm

theorem copy_pending (i j : Replica) : (copy caches i j).raw.pendingUpdateList =
    if j = i ∧ (caches 0).entries ≠ [] then [] else (caches j).raw.pendingUpdateList := by
  by_cases same : j = i
  · rw [same, copy_replica, LRUCache.updateM2M_pending]
    by_cases empty : (caches 0).entries = [] <;> simp [empty]
  · rw [copy_other fun equal => same (Subtype.ext equal), if_neg (by simp [same])]

/-- A key that a copy loses: it is pending in the replica that is overwritten, and nowhere else. -/
def Overwritten (caches : Caches) (i : Replica) (key : Bytes) : Prop :=
  (caches 0).entries ≠ [] ∧ key ∉ (caches 0).keys ∧
    ∀ j : Replica, j ≠ i → key ∉ (caches j).pendingKeys

/-- A copy keeps what it does not overwrite. -/
theorem kept_copy (kept : Kept caches key) (i : Replica) :
    Kept (copy caches i) key ↔ ¬ Overwritten caches i key := by
  have pendingKeys (j : Replica) : (copy caches i j).pendingKeys =
      if j = i ∧ (caches 0).entries ≠ [] then [] else (caches j).pendingKeys := by
    rw [LRUCache.pendingKeys, copy_pending]
    split_ifs <;> rfl
  rw [Kept, copy_master, Overwritten]
  simp only [pendingKeys]
  constructor
  · rintro (held | ⟨j, pending⟩) ⟨nonempty, absent, elsewhere⟩
    · exact absent held
    · split_ifs at pending with cut
      · exact List.not_mem_nil pending
      · exact elsewhere j (fun same => cut ⟨same, nonempty⟩) pending
  · intro safe
    rcases kept with held | ⟨j, pending⟩
    · exact Or.inl held
    · by_contra lost
      push Not at lost
      have cut (j : Replica) (pending : key ∈ (caches j).pendingKeys) :
          j = i ∧ (caches 0).entries ≠ [] := by
        by_contra uncut
        have spared := lost.2 j
        rw [if_neg uncut] at spared
        exact spared pending
      exact safe ⟨(cut j pending).2, lost.1, fun other different pending =>
        different (cut other pending).1⟩

/-! ### Calls on one cache -/

theorem Roomy.update (roomy : Roomy capacity domain caches) {cache : LRUCache}
    (size : cache.raw.capacity = capacity) (known : cache.Holds fun key _ => key ∈ domain)
    (i : Fin 8) : Roomy capacity domain (Function.update caches i cache) :=
  ⟨roomy.sized.update size i, roomy.few, roomy.known.update known i⟩

theorem Roomy.get (roomy : Roomy capacity domain caches) (lru : Fin 8) (sought : Bytes) :
    Roomy capacity domain (Function.update caches lru ((caches lru).get sought).1) :=
  roomy.update (((caches lru).get_capacity sought).trans (roomy.sized lru))
    ((roomy.known lru).get sought) lru

theorem Roomy.put (roomy : Roomy capacity domain caches) (lru : Fin 8) {sought : Bytes}
    (known : sought ∈ domain) (res : List Bytes) :
    Roomy capacity domain (Function.update caches lru ((caches lru).put sought res)) :=
  roomy.update (((caches lru).put_capacity sought res).trans (roomy.sized lru))
    ((roomy.known lru).put known) lru

/-- Where no cache loses a key or a pending entry, every kept key stays kept. -/
theorem Kept.mono {later : Caches} (kept : Kept caches key)
    (keys : key ∈ (caches 0).keys → key ∈ (later 0).keys)
    (pending : ∀ i : Replica, key ∈ (caches i).pendingKeys → key ∈ (later i).pendingKeys) :
    Kept later key := by
  rcases kept with held | ⟨i, queued⟩
  · exact Or.inl (keys held)
  · exact Or.inr ⟨i, pending i queued⟩

theorem Kept.get (kept : Kept caches key) (lru : Fin 8) (sought : Bytes) :
    Kept (Function.update caches lru ((caches lru).get sought).1) key := by
  have same (j : Fin 8) :
      (key ∈ (Function.update caches lru ((caches lru).get sought).1 j).keys ↔
        key ∈ (caches j).keys) ∧
      (Function.update caches lru ((caches lru).get sought).1 j).pendingKeys =
        (caches j).pendingKeys := by
    by_cases equal : j = lru
    · subst equal
      rw [Function.update_self, LRUCache.mem_keys_get, LRUCache.pendingKeys, LRUCache.get_pending]
      exact ⟨Iff.rfl, rfl⟩
    · rw [Function.update_of_ne equal]
      exact ⟨Iff.rfl, rfl⟩
  exact kept.mono (same 0).1.mpr fun i queued => (same i).2.symm ▸ queued

/-- A key that is put under a cache that misses it is held there and pending there. -/
theorem put_missed (roomy : Roomy capacity domain caches) {lru : Fin 8} {sought : Bytes}
    (known : sought ∈ domain) (absent : sought ∉ (caches lru).keys) (res : List Bytes)
    (j : Fin 8) (key : Bytes) :
    let later := Function.update caches lru ((caches lru).put sought res)
    (key ∈ (later j).keys ↔ (j = lru ∧ key = sought) ∨ key ∈ (caches j).keys) ∧
      (key ∈ (later j).pendingKeys ↔ (j = lru ∧ key = sought) ∨ key ∈ (caches j).pendingKeys) := by
  intro later
  have value : later j = Function.update caches lru ((caches lru).put sought res) j := rfl
  by_cases equal : j = lru
  · subst equal
    have few : domain.card ≤ (caches j).raw.capacity := (roomy.sized j).symm ▸ roomy.few
    rw [value, Function.update_self, LRUCache.mem_keys_put few known
      (fun _ held => roomy.mem_keys held), LRUCache.pendingKeys, LRUCache.put_absent absent,
      List.map_cons, List.mem_cons]
    simp [LRUCache.pendingKeys]
  · rw [value, Function.update_of_ne equal]
    simp [equal]

/-- A `put` under a cache that misses the key keeps the key, and loses no other. -/
theorem kept_put (roomy : Roomy capacity domain caches) {lru : Fin 8} {sought : Bytes}
    (known : sought ∈ domain) (absent : sought ∉ (caches lru).keys) (res : List Bytes)
    (kept : key = sought ∨ Kept caches key) :
    Kept (Function.update caches lru ((caches lru).put sought res)) key := by
  have spec (j : Fin 8) := put_missed roomy known absent res j key
  rcases kept with rfl | kept
  · by_cases master : lru = 0
    · exact Or.inl ((spec 0).1.mpr (Or.inl ⟨master.symm, rfl⟩))
    · exact Or.inr ⟨⟨lru, master⟩, (spec lru).2.mpr (Or.inl ⟨rfl, rfl⟩)⟩
  · exact kept.mono (fun held => (spec 0).1.mpr (Or.inr held))
      fun i queued => (spec i).2.mpr (Or.inr queued)

/-! ### The loop that drains -/

/-- The first loop of `updateCache`, over some replicas. -/
def drainLoop (replicas : List Replica) (caches : Caches) : Caches :=
  (replicas.map Subtype.val).foldl (underFlags drain) caches

theorem drainLoop_cons (i : Replica) (replicas : List Replica) (caches : Caches) :
    drainLoop (i :: replicas) caches = drainLoop replicas (underFlags drain caches i) := rfl

/-- A drain between flags moves keys and loses none. -/
theorem kept_underFlags_drain (roomy : Roomy capacity domain caches) (i : Replica) :
    Kept (underFlags drain caches i) key ↔ Kept caches key := by
  have flagged : Roomy capacity domain (setFlags caches i true) :=
    ⟨roomy.sized.setFlags i true, roomy.few, roomy.known.setFlags i true⟩
  rw [underFlags, kept_setFlags, kept_drain flagged, kept_setFlags]

theorem underFlags_drain_pending (i j : Replica) :
    (underFlags drain caches i j).raw.pendingUpdateList =
      if j = i then [] else (caches j).raw.pendingUpdateList := by
  rw [underFlags, (setFlags_frame ..).2.1, drain_pending, (setFlags_frame ..).2.1]

theorem Roomy.underFlags_drain (roomy : Roomy capacity domain caches) (i : Replica) :
    Roomy capacity domain (underFlags drain caches i) :=
  ⟨((roomy.sized.setFlags i true).drain i).setFlags i false, roomy.few,
    ((roomy.known.setFlags i true).drain i).setFlags i false⟩

/-- The loop loses no key. -/
theorem kept_drainLoop (roomy : Roomy capacity domain caches) (replicas : List Replica) :
    Kept (drainLoop replicas caches) key ↔ Kept caches key := by
  induction replicas generalizing caches with
  | nil => rfl
  | cons i replicas inductionHypothesis =>
    rw [drainLoop_cons, inductionHypothesis (roomy.underFlags_drain i),
      kept_underFlags_drain roomy]

/-- The loop empties the pending lists of its replicas. -/
theorem drainLoop_pending (replicas : List Replica) (j : Replica) :
    (drainLoop replicas caches j).raw.pendingUpdateList =
      if j ∈ replicas then [] else (caches j).raw.pendingUpdateList := by
  induction replicas generalizing caches with
  | nil => rfl
  | cons i replicas inductionHypothesis =>
    rw [drainLoop_cons, inductionHypothesis, underFlags_drain_pending]
    by_cases first : j = i <;> by_cases later : j ∈ replicas <;> simp [first, later]

/-- What a drain between flags does to the master: it puts the pending entries. -/
theorem underFlags_drain_master (i : Replica) : underFlags drain caches i 0 =
    (((caches 0).setUpdating true).putAll
      ((caches i).raw.pendingUpdateList.map CacheNode.entry)).setUpdating false := by
  rw [underFlags, setFlags_apply, if_pos (Or.inl rfl), drain_master, (setFlags_frame ..).2.1,
    setFlags_apply, if_pos (Or.inl rfl)]

/-- The loop never shortens the pending list of the master. -/
theorem pending_suffix_drainLoop (replicas : List Replica) :
    (caches 0).raw.pendingUpdateList <:+ (drainLoop replicas caches 0).raw.pendingUpdateList := by
  induction replicas generalizing caches with
  | nil => exact List.suffix_rfl
  | cons i replicas inductionHypothesis =>
    refine List.IsSuffix.trans ?_ inductionHypothesis
    rw [underFlags_drain_master, LRUCache.setUpdating_pending, ← LRUCache.setUpdating_pending _ true]
    exact LRUCache.pending_suffix_putAll

/-- A drain between flags leaves the pending list of the master alone exactly when the master holds
every key that is pending in the replica; it then changes no keys of the master. -/
theorem underFlags_drain_pending_master (i : Replica) :
    ((underFlags drain caches i 0).raw.pendingUpdateList = (caches 0).raw.pendingUpdateList ↔
        ∀ key ∈ (caches i).pendingKeys, key ∈ (caches 0).keys) ∧
      ((∀ key ∈ (caches i).pendingKeys, key ∈ (caches 0).keys) →
        ∀ key, key ∈ (underFlags drain caches i 0).keys ↔ key ∈ (caches 0).keys) := by
  have listed : (∀ entry ∈ (caches i).raw.pendingUpdateList.map CacheNode.entry,
      entry.1 ∈ ((caches 0).setUpdating true).keys) ↔
      ∀ key ∈ (caches i).pendingKeys, key ∈ (caches 0).keys := by
    rw [LRUCache.setUpdating_keys, List.forall_mem_map, LRUCache.pendingKeys, List.forall_mem_map]
    rfl
  rw [underFlags_drain_master, LRUCache.setUpdating_pending, LRUCache.setUpdating_keys, ← listed]
  exact ⟨LRUCache.pending_putAll_eq_iff, fun held key => LRUCache.mem_keys_putAll_of_held held⟩

/-- The loop leaves the pending list of the master alone exactly when the master holds every key
that is pending in its replicas. -/
theorem drainLoop_pending_master_iff (replicas : List Replica) :
    (drainLoop replicas caches 0).raw.pendingUpdateList = (caches 0).raw.pendingUpdateList ↔
      ∀ i ∈ replicas, ∀ key ∈ (caches i).pendingKeys, key ∈ (caches 0).keys := by
  induction replicas generalizing caches with
  | nil => simp [drainLoop]
  | cons i replicas inductionHypothesis =>
    obtain ⟨firstIff, keysSame⟩ := @underFlags_drain_pending_master caches i
    have grows : (caches 0).raw.pendingUpdateList <:+
        (underFlags drain caches i 0).raw.pendingUpdateList := pending_suffix_drainLoop [i]
    have pendingKeys (j : Replica) : (underFlags drain caches i j).pendingKeys =
        if j = i then [] else (caches j).pendingKeys := by
      rw [LRUCache.pendingKeys, underFlags_drain_pending]
      split_ifs <;> rfl
    rw [drainLoop_cons, List.forall_mem_cons, ← firstIff]
    constructor
    · intro same
      -- the list in the middle lies between two equal ones
      have middle : (underFlags drain caches i 0).raw.pendingUpdateList =
          (caches 0).raw.pendingUpdateList := by
        refine (grows.eq_of_length_le ?_).symm
        rw [← same]
        exact (pending_suffix_drainLoop replicas).length_le
      refine ⟨middle, fun j member key pending => ?_⟩
      by_cases first : j = i
      · exact firstIff.mp middle key (first ▸ pending)
      · rw [← middle] at same
        refine (keysSame (firstIff.mp middle) key).mp (inductionHypothesis.mp same j member key ?_)
        rwa [pendingKeys, if_neg first]
    · rintro ⟨middle, later⟩
      rw [← middle]
      refine inductionHypothesis.mpr fun j member key pending => ?_
      rw [pendingKeys] at pending
      split_ifs at pending
      · exact absurd pending List.not_mem_nil
      · exact (keysSame (firstIff.mp middle) key).mpr (later j member key pending)

/-! ### The loop that copies -/

/-- The second loop of `updateCache`, over some replicas. -/
def copyLoop (replicas : List Replica) (caches : Caches) : Caches :=
  (replicas.map Subtype.val).foldl (underFlags copy) caches

theorem copyLoop_cons (i : Replica) (replicas : List Replica) (caches : Caches) :
    copyLoop (i :: replicas) caches = copyLoop replicas (underFlags copy caches i) := rfl

theorem underFlags_copy_master (i : Replica) :
    (underFlags copy caches i 0).entries = (caches 0).entries ∧
      (underFlags copy caches i 0).raw.pendingUpdateList = (caches 0).raw.pendingUpdateList := by
  rw [underFlags, (setFlags_frame ..).1, (setFlags_frame ..).2.1, copy_master]
  exact ⟨(setFlags_frame ..).1, (setFlags_frame ..).2.1⟩

theorem underFlags_copy_pending {i j : Replica} (empty : (caches j).raw.pendingUpdateList = []) :
    (underFlags copy caches i j).raw.pendingUpdateList = [] := by
  rw [underFlags, (setFlags_frame ..).2.1, copy_pending, (setFlags_frame ..).2.1, empty, ite_self]

/-- A copy between flags gives the replica the entries of the master, in reverse order. -/
theorem underFlags_copy_entries (sized : Sized capacity caches) (i j : Replica) :
    (underFlags copy caches i j).entries =
      if j = i then (caches 0).entries.reverse else (caches j).entries := by
  have flagged := sized.setFlags i true
  rw [underFlags, (setFlags_frame ..).1]
  by_cases same : j = i
  · rw [if_pos same, same, copy_replica,
      LRUCache.updateM2M_entries _ _ ((flagged 0).trans (flagged i).symm).le, (setFlags_frame ..).1]
  · rw [if_neg same, copy_other fun equal => same (Subtype.ext equal), (setFlags_frame ..).1]

/-- The loop leaves the master as it is, up to its flag. -/
theorem copyLoop_master (replicas : List Replica) :
    (copyLoop replicas caches 0).entries = (caches 0).entries ∧
      (copyLoop replicas caches 0).raw.pendingUpdateList = (caches 0).raw.pendingUpdateList := by
  induction replicas generalizing caches with
  | nil => exact ⟨rfl, rfl⟩
  | cons i replicas inductionHypothesis =>
    obtain ⟨entries, pending⟩ := @underFlags_copy_master caches i
    rw [copyLoop_cons, ← entries, ← pending]
    exact inductionHypothesis

theorem copyLoop_pending (replicas : List Replica) {j : Replica}
    (empty : (caches j).raw.pendingUpdateList = []) :
    (copyLoop replicas caches j).raw.pendingUpdateList = [] := by
  induction replicas generalizing caches with
  | nil => exact empty
  | cons i replicas inductionHypothesis =>
    exact inductionHypothesis (underFlags_copy_pending empty)

/-- The loop gives its replicas the entries of the master. -/
theorem copyLoop_entries (sized : Sized capacity caches) (replicas : List Replica) (j : Replica) :
    (copyLoop replicas caches j).entries =
      if j ∈ replicas then (caches 0).entries.reverse else (caches j).entries := by
  induction replicas generalizing caches with
  | nil => rfl
  | cons i replicas inductionHypothesis =>
    have later : Sized capacity (underFlags copy caches i) :=
      ((sized.setFlags i true).copy i).setFlags i false
    rw [copyLoop_cons, inductionHypothesis later, underFlags_copy_entries sized,
      (underFlags_copy_master i).1]
    by_cases first : j = i <;> by_cases second : j ∈ replicas <;> simp [first, second]

/-! ### The whole function -/

variable {manager : CacheManager}

/-- `updateCache` is the two loops over all replicas. -/
theorem updateCache_caches (manager : CacheManager) :
    manager.updateCache.caches = copyLoop allReplicas (drainLoop allReplicas manager.caches) := rfl

/-- No replica has anything pending after `updateCache`. -/
theorem updateCache_pending (i : Replica) :
    (manager.updateCache.caches i).raw.pendingUpdateList = [] := by
  rw [updateCache_caches]
  refine copyLoop_pending allReplicas ?_
  rw [drainLoop_pending, if_pos (mem_allReplicas i)]

/-- Every replica has the map of the master after `updateCache`. -/
theorem updateCache_sameMap (sized : Sized capacity manager.caches) (i : Replica) :
    LRUCache.SameMap (manager.updateCache.caches i) (manager.updateCache.caches 0) := by
  have drained : Sized capacity (drainLoop allReplicas manager.caches) :=
    Runs.after_of_kept (Sized capacity)
      (fun _ _ kept => ((kept.setFlags _ true).drain _).setFlags _ false) sized _
  rw [LRUCache.sameMap_iff, updateCache_caches, (copyLoop_master allReplicas).1,
    copyLoop_entries drained, if_pos (mem_allReplicas i)]
  exact fun entry => List.mem_reverse

theorem Roomy.updateCache (roomy : Roomy capacity domain manager.caches) :
    Roomy capacity domain manager.updateCache.caches :=
  ⟨roomy.sized.updateCache, roomy.few, roomy.known.updateCache⟩

/-- The master holds every kept key after `updateCache`. -/
theorem Kept.updateCache (roomy : Roomy capacity domain manager.caches)
    (kept : Kept manager.caches key) : key ∈ (manager.updateCache.caches 0).keys := by
  rw [updateCache_caches, LRUCache.keys, (copyLoop_master allReplicas).1]
  rcases (kept_drainLoop roomy allReplicas).mpr kept with held | ⟨i, pending⟩
  · exact held
  · rw [LRUCache.pendingKeys, drainLoop_pending, if_pos (mem_allReplicas i)] at pending
    exact absurd pending List.not_mem_nil

/-- `updateCache` leaves the master with an empty pending list exactly when it was empty and the
master held every key that was pending in a replica. -/
theorem updateCache_pending_master_iff :
    (manager.updateCache.caches 0).raw.pendingUpdateList = [] ↔
      (manager.caches 0).raw.pendingUpdateList = [] ∧
        ∀ i : Replica, ∀ key ∈ (manager.caches i).pendingKeys, key ∈ (manager.caches 0).keys := by
  have exact := @drainLoop_pending_master_iff manager.caches allReplicas
  rw [updateCache_caches, (copyLoop_master allReplicas).2]
  constructor
  · intro empty
    have before : (manager.caches 0).raw.pendingUpdateList = [] :=
      List.suffix_nil.mp (empty ▸ pending_suffix_drainLoop allReplicas)
    rw [empty, before] at exact
    exact ⟨before, fun i => exact.mp rfl i (mem_allReplicas i)⟩
  · rintro ⟨before, held⟩
    rw [exact.mpr fun i _ => held i, before]

end CacheManager

end SearchEngine
