/-
This file models `CacheManager`: a vector of eight caches, of which the first is
the master, and the function that brings them up to date.

`updateCache` moves the pending entries of the caches 1 to 7 into the master,
writes the master to the cache file, and copies it back over the caches 1 to 7.
Every cache operation only moves entries around or adds the entry it is given,
so a property of single entries that holds of all entries and all pending
entries is kept by all of them. `LRUCache.Holds` states such a property.
-/

import SearchEngine.Cache.LRUCache
import SearchEngine.Library.Runs

namespace SearchEngine

/-! ### Properties of all entries -/

namespace LRUCache

/-- Every entry and every pending entry has a property. -/
structure Holds (valid : Bytes → List Bytes → Prop) (cache : LRUCache) : Prop where
  entries : ∀ entry ∈ cache.entries, valid entry.1 entry.2
  pending : ∀ node ∈ cache.raw.pendingUpdateList, valid node.key node.value

variable {valid : Bytes → List Bytes → Prop} {cache : LRUCache}

theorem holds_create (capacity : Nat) : Holds valid (create capacity) where
  entries := by simp
  pending := by simp [create, Raw.create]

theorem Holds.get (holds : Holds valid cache) (key : Bytes) : Holds valid (cache.get key).1 where
  entries := fun entry member => by
    rw [get_entries] at member
    exact holds.entries entry (Recency.mem_of_mem_find member)
  pending := fun node member => by
    rw [get_pending] at member
    exact holds.pending node member

/-- A hit returns the value of an entry. -/
theorem Holds.get_value (holds : Holds valid cache) {key : Bytes} {value : List Bytes}
    (hit : (cache.get key).2 = some value) : valid key value := by
  rw [LRUCache.get_value] at hit
  by_cases held : key ∈ cache.entries.map Prod.fst
  · obtain ⟨stored, member, found⟩ := Recency.find_of_mem held
    rw [found] at hit
    obtain rfl := Option.some.inj hit
    exact holds.entries (key, stored) member
  · rw [Recency.find_of_notMem held] at hit
    exact absurd hit (by simp)

theorem Holds.put (holds : Holds valid cache) {key : Bytes} {value : List Bytes}
    (added : valid key value) : Holds valid (cache.put key value) where
  entries := fun entry member => by
    rw [put_entries] at member
    rcases Recency.mem_of_mem_store member with rfl | ⟨kept, -⟩
    · exact added
    · exact holds.entries entry kept
  pending := fun node member => by
    rw [put_pending, Raw.pendingAfterPut] at member
    split_ifs at member with held
    · exact holds.pending node member
    · rcases List.mem_cons.mp member with rfl | queued
      · exact added
      · exact holds.pending node queued

theorem Holds.clear (holds : Holds valid cache) : Holds valid cache.clear where
  entries := fun _ member => absurd member List.not_mem_nil
  pending := holds.pending

theorem Holds.clearPending (holds : Holds valid cache) : Holds valid cache.clearPending where
  entries := holds.entries
  pending := fun _ member => absurd member List.not_mem_nil

theorem Holds.setUpdating (holds : Holds valid cache) (flag : Bool) :
    Holds valid (cache.setUpdating flag) := ⟨holds.entries, holds.pending⟩

/-- Draining a cache moves its pending entries. -/
theorem Holds.updateP2M (holds : Holds valid cache) {updateOb : LRUCache}
    (others : Holds valid updateOb) :
    Holds valid (cache.updateP2M updateOb).1 ∧ Holds valid (cache.updateP2M updateOb).2 := by
  refine ⟨?_, others.clearPending⟩
  rw [LRUCache.updateP2M]
  refine List.foldlRecOn _ _ holds fun drained kept node member => ?_
  exact kept.put (others.pending node member)

/-- Copying a cache adds its entries only. -/
theorem Holds.updateM2M (holds : Holds valid cache) {updateOb : LRUCache}
    (others : Holds valid updateOb) : Holds valid (cache.updateM2M updateOb) := by
  rw [LRUCache.updateM2M]
  refine List.foldlRecOn _ _ holds.clear fun copied kept node member => ?_
  exact (kept.put (others.entries node.2.entry (List.mem_map_of_mem member))).clearPending

end LRUCache

/-- What an update keeps of the value it replaces is kept everywhere. -/
theorem apply_update_of_same {Name Value Image : Type} [DecidableEq Name] (image : Value → Image)
    {family : Name → Value} {name : Name} {changed : Value}
    (same : image changed = image (family name)) (other : Name) :
    image (Function.update family name changed other) = image (family other) := by
  rw [Function.apply_update (fun _ => image), same,
    Function.update_eq_self name fun other => image (family other)]

/-! ### The caches -/

/-- There is a cache 0, the one all others are updated from. -/
instance neZeroCaches : NeZero 8 := ⟨by decide⟩

/-- `_caches` -/
abbrev Caches := Fin 8 → LRUCache

/-- `CacheManager`, with the contents of the file that `cachelib` names. -/
structure CacheManager where
  caches : Caches
  cachelib : Bytes

namespace CacheManager

/-- `CacheManager::init` -/
def init (cachelib : Bytes) : CacheManager where
  caches := Function.update (fun _ => LRUCache.create 10000) 0
    ((LRUCache.create 10000).readFromFile cachelib)
  cachelib

/-- `_caches[0]._isUpdating = flag; _caches[i]._isUpdating = flag;` -/
def setFlags (caches : Caches) (i : Fin 8) (flag : Bool) : Caches :=
  let caches := Function.update caches 0 ((caches 0).setUpdating flag)
  Function.update caches i ((caches i).setUpdating flag)

/-- `_caches[0].updateP2M(_caches[i]);` -/
def drain (caches : Caches) (i : Fin 8) : Caches :=
  let (master, replica) := (caches 0).updateP2M (caches i)
  Function.update (Function.update caches 0 master) i replica

/-- `_caches[i].updateM2M(_caches[0]);` -/
def copy (caches : Caches) (i : Fin 8) : Caches :=
  Function.update caches i ((caches i).updateM2M (caches 0))

/-- The body of a loop of `updateCache`. -/
def underFlags (body : Caches → Fin 8 → Caches) (caches : Caches) (i : Fin 8) : Caches :=
  setFlags (body (setFlags caches i true) i) i false

/-- The indices of the loops of `updateCache`. -/
def replicas : List (Fin 8) := [1, 2, 3, 4, 5, 6, 7]

/-- `CacheManager::updateCache` -/
def updateCache (manager : CacheManager) : CacheManager :=
  let caches := replicas.foldl (underFlags drain) manager.caches
  let cachelib := (caches 0).writeToFile
  { caches := replicas.foldl (underFlags copy) caches, cachelib }

/-! ### What `updateCache` keeps -/

/-- Every entry and every pending entry of every cache has a property. -/
def Holds (valid : Bytes → List Bytes → Prop) (caches : Caches) : Prop :=
  ∀ i, (caches i).Holds valid

variable {valid : Bytes → List Bytes → Prop} {caches : Caches}

theorem Holds.update (holds : Holds valid caches) {cache : LRUCache} (changed : cache.Holds valid)
    (i : Fin 8) : Holds valid (Function.update caches i cache) :=
  (Function.forall_update_iff caches fun _ cache => cache.Holds valid).mpr
    ⟨changed, fun j _ => holds j⟩

theorem holds_init {cachelib : Bytes}
    (read : ((LRUCache.create 10000).readFromFile cachelib).Holds valid) :
    Holds valid (init cachelib).caches :=
  Holds.update (fun _ => LRUCache.holds_create 10000) read 0

theorem Holds.setFlags (holds : Holds valid caches) (i : Fin 8) (flag : Bool) :
    Holds valid (setFlags caches i flag) := by
  have master := holds.update ((holds 0).setUpdating flag) 0
  exact master.update ((master i).setUpdating flag) i

theorem Holds.drain (holds : Holds valid caches) (i : Fin 8) : Holds valid (drain caches i) := by
  obtain ⟨master, replica⟩ := (holds 0).updateP2M (holds i)
  exact (holds.update master 0).update replica i

theorem Holds.copy (holds : Holds valid caches) (i : Fin 8) : Holds valid (copy caches i) :=
  holds.update ((holds i).updateM2M (holds 0)) i

/-- A loop of `updateCache` keeps what its body keeps. -/
theorem Holds.loop {body : Caches → Fin 8 → Caches}
    (kept : ∀ caches i, Holds valid caches → Holds valid (body caches i))
    (holds : Holds valid caches) : Holds valid (replicas.foldl (underFlags body) caches) := by
  refine Runs.after_of_kept (Holds valid) (fun before i held => ?_) holds replicas
  exact (kept _ i (held.setFlags i true)).setFlags i false

/-- `updateCache` moves entries between the caches and makes none up. -/
theorem Holds.updateCache {manager : CacheManager} (holds : Holds valid manager.caches) :
    Holds valid manager.updateCache.caches :=
  (holds.loop fun _ i held => held.drain i).loop fun _ i held => held.copy i

end CacheManager

end SearchEngine
