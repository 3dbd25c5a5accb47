/-
This file takes `CacheManager::updateCache` apart into its statements, and says
what they do to the keys and the pending lists of the caches.

The two loops run over the replicas, the caches 1 to 7. A drain moves the pending
entries of a replica into the master and empties its pending list. A copy
replaces the entries of a replica by those of the master, and empties the
pending list of the replica too, except where the master has no entry.
-/

import SearchEngine.Cache.CacheManager
import SearchEngine.Cache.Transfers

namespace SearchEngine

namespace CacheManager

/-! ### The statements -/

/-- A cache other than the master. -/
abbrev Replica := { i : Fin 8 // i ≠ 0 }

/-- A statement of `updateCache`. -/
inductive UpdateStep where
  /-- `_caches[0]._isUpdating = flag; _caches[i]._isUpdating = flag;` -/
  | setFlags (i : Replica) (flag : Bool)
  /-- `_caches[0].updateP2M(_caches[i]);` -/
  | updateP2M (i : Replica)
  /-- `_caches[0].writeToFile(str);` -/
  | writeToFile
  /-- `_caches[i].updateM2M(_caches[0]);` -/
  | updateM2M (i : Replica)
  deriving DecidableEq

/-- Execute one statement. -/
def perform (manager : CacheManager) : UpdateStep → CacheManager
  | .setFlags i flag => { manager with caches := setFlags manager.caches i flag }
  | .updateP2M i => { manager with caches := drain manager.caches i }
  | .writeToFile => { manager with cachelib := (manager.caches 0).writeToFile }
  | .updateM2M i => { manager with caches := copy manager.caches i }

/-- The body of a loop of `updateCache`. -/
def round (body : Replica → UpdateStep) (i : Replica) : List UpdateStep :=
  [.setFlags i true, body i, .setFlags i false]

/-- The replicas in the order of the loops. -/
def allReplicas : List Replica :=
  [⟨1, by decide⟩, ⟨2, by decide⟩, ⟨3, by decide⟩, ⟨4, by decide⟩, ⟨5, by decide⟩, ⟨6, by decide⟩,
    ⟨7, by decide⟩]

/-- The statements of `updateCache` in their order. -/
def updateSteps : List UpdateStep :=
  allReplicas.flatMap (round .updateP2M) ++ [.writeToFile] ++ allReplicas.flatMap (round .updateM2M)

theorem mem_allReplicas (i : Replica) : i ∈ allReplicas := by
  revert i
  decide

/-- The statements of a loop, executed one directly after the other, are the loop. -/
theorem foldl_round (body : Replica → UpdateStep) (effect : Caches → Fin 8 → Caches)
    (same : ∀ manager i, perform manager (body i) =
      { manager with caches := effect manager.caches i })
    (replicas : List Replica) (manager : CacheManager) :
    (replicas.flatMap (round body)).foldl perform manager = { manager with
      caches := (replicas.map Subtype.val).foldl (underFlags effect) manager.caches } := by
  induction replicas generalizing manager with
  | nil => rfl
  | cons i replicas inductionHypothesis =>
    rw [List.flatMap_cons, List.foldl_append, round]
    simp only [List.foldl_cons, List.foldl_nil, List.map_cons]
    rw [same, inductionHypothesis]
    rfl

/-- The statements of `updateCache`, executed one directly after the other, are `updateCache`. -/
theorem foldl_updateSteps (manager : CacheManager) :
    updateSteps.foldl perform manager = manager.updateCache := by
  have indices : allReplicas.map Subtype.val = replicas := rfl
  rw [updateSteps, List.foldl_append, List.foldl_append,
    foldl_round .updateP2M drain fun _ _ => rfl, foldl_round .updateM2M copy fun _ _ => rfl,
    indices]
  rfl

/-! ### One statement -/

variable {caches : Caches} {i : Replica}

theorem setFlags_apply (i j : Fin 8) (flag : Bool) : setFlags caches i flag j =
    if j = 0 ∨ j = i then (caches j).setUpdating flag else caches j := by
  rw [setFlags]
  by_cases isReplica : j = i
  · subst isReplica
    rw [Function.update_self, if_pos (Or.inr rfl)]
    by_cases isMaster : j = 0
    · subst isMaster
      rw [Function.update_self]
      rfl
    · rw [Function.update_of_ne isMaster]
  · rw [Function.update_of_ne isReplica]
    by_cases isMaster : j = 0
    · subst isMaster
      rw [Function.update_self, if_pos (Or.inl rfl)]
    · rw [Function.update_of_ne isMaster, if_neg (by simp [isMaster, isReplica])]

/-- The flags are all that changes. -/
theorem setFlags_frame (i j : Fin 8) (flag : Bool) :
    (setFlags caches i flag j).entries = (caches j).entries ∧
      (setFlags caches i flag j).raw.pendingUpdateList = (caches j).raw.pendingUpdateList ∧
      (setFlags caches i flag j).raw.capacity = (caches j).raw.capacity := by
  rw [setFlags_apply]
  split_ifs <;> exact ⟨rfl, rfl, rfl⟩

theorem drain_master (i : Replica) : drain caches i 0 =
    (caches 0).putAll ((caches i).raw.pendingUpdateList.map CacheNode.entry) := by
  rw [← LRUCache.updateP2M_fst]
  exact (Function.update_of_ne i.2.symm _ _).trans (Function.update_self ..)

theorem drain_replica (i : Replica) : drain caches i i = (caches i).clearPending :=
  Function.update_self ..

theorem drain_other {j : Fin 8} (notMaster : j ≠ 0) (other : j ≠ i) :
    drain caches i j = caches j :=
  (Function.update_of_ne other _ _).trans (Function.update_of_ne notMaster _ _)

theorem copy_replica (i : Fin 8) : copy caches i i = (caches i).updateM2M (caches 0) :=
  Function.update_self ..

theorem copy_other {i j : Fin 8} (other : j ≠ i) : copy caches i j = caches j :=
  Function.update_of_ne other ..

/-! ### Capacities -/

/-- All caches have the same capacity. -/
def Sized (capacity : Nat) (caches : Caches) : Prop := ∀ i, (caches i).raw.capacity = capacity

variable {capacity : Nat}

theorem Sized.update (sized : Sized capacity caches) {cache : LRUCache}
    (same : cache.raw.capacity = capacity) (i : Fin 8) :
    Sized capacity (Function.update caches i cache) :=
  (Function.forall_update_iff caches fun _ cache => cache.raw.capacity = capacity).mpr
    ⟨same, fun j _ => sized j⟩

theorem Sized.setFlags (sized : Sized capacity caches) (i : Fin 8) (flag : Bool) :
    Sized capacity (setFlags caches i flag) := fun j => by
  rw [(setFlags_frame i j flag).2.2, sized]

theorem Sized.drain (sized : Sized capacity caches) (i : Fin 8) :
    Sized capacity (drain caches i) := by
  have master : ((caches 0).updateP2M (caches i)).1.raw.capacity = capacity := by
    rw [LRUCache.updateP2M_fst, LRUCache.putAll_capacity, sized]
  have replica : (caches i).clearPending.raw.capacity = capacity := sized i
  exact (sized.update master 0).update replica i

theorem Sized.copy (sized : Sized capacity caches) (i : Fin 8) : Sized capacity (copy caches i) :=
  sized.update ((LRUCache.updateM2M_capacity _ _).trans (sized i)) i

theorem Sized.perform {manager : CacheManager} (sized : Sized capacity manager.caches)
    (step : UpdateStep) : Sized capacity (manager.perform step).caches := by
  cases step with
  | setFlags i flag => exact sized.setFlags i flag
  | updateP2M i => exact sized.drain i
  | writeToFile => exact sized
  | updateM2M i => exact sized.copy i

theorem Sized.updateCache {manager : CacheManager} (sized : Sized capacity manager.caches) :
    Sized capacity manager.updateCache.caches :=
  foldl_updateSteps manager ▸ Runs.after_of_kept
    (fun manager : CacheManager => Sized capacity manager.caches)
    (fun _ step kept => kept.perform step) sized updateSteps

/-! ### Flags -/

/-- `_caches[i]._isUpdating` -/
def isUpdating (caches : Caches) (i : Fin 8) : Bool := (caches i).raw.isUpdating

theorem isUpdating_update {cache : LRUCache} {i : Fin 8}
    (same : cache.raw.isUpdating = isUpdating caches i) (j : Fin 8) :
    isUpdating (Function.update caches i cache) j = isUpdating caches j :=
  apply_update_of_same (fun cache : LRUCache => cache.raw.isUpdating) same j

theorem isUpdating_setFlags (i j : Fin 8) (flag : Bool) : isUpdating (setFlags caches i flag) j =
    if j = 0 ∨ j = i then flag else isUpdating caches j := by
  rw [isUpdating, setFlags_apply]
  split_ifs <;> rfl

theorem isUpdating_drain (i : Replica) (j : Fin 8) :
    isUpdating (drain caches i) j = isUpdating caches j := by
  by_cases master : j = 0
  · rw [master, isUpdating, drain_master, LRUCache.putAll_isUpdating, isUpdating]
  · by_cases replica : j = i
    · rw [replica, isUpdating, drain_replica]
      rfl
    · rw [isUpdating, drain_other master replica, isUpdating]

theorem isUpdating_copy (i j : Fin 8) : isUpdating (copy caches i) j = isUpdating caches j :=
  isUpdating_update (LRUCache.updateM2M_isUpdating _ _) j

end CacheManager

end SearchEngine
