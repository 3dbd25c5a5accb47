/-
This file proves the representation invariant of `LRUCache` over every sequence
of calls on any family of caches.

The functions of the class that go through `put` are modelled here on the members,
as `get` and `put` are, so that every iterator they use is checked. The two
objects of a transfer may be one: `updateP2M` then drains the pending list it
pushes to, and `updateM2M` copies from a list it has just cleared. Each checked
call on the members of caches that carry the invariant is the call on the caches,
so no run fails, and all caches of a run carry the invariant. `updateCache` is a
run of such calls on the eight caches of the server.
-/

import SearchEngine.Cache.Transfers
import SearchEngine.Cache.CacheManager

namespace SearchEngine

namespace LRUCache

namespace Raw

/-! ### The calls on the members -/

/-- `_lru.clear(); _umap.clear();` -/
def clear (cache : Raw) : Raw := { cache with umap := ∅, lru := [] }

/-- `_pendingUpdateList.clear();` -/
def clearPending (cache : Raw) : Raw := { cache with pendingUpdateList := [] }

/-- `LRUCache::readFromFile` on the contents of the file. -/
def readFromFile (cache : Raw) (contents : Bytes) : Except Fault Raw :=
  (Text.lines newline contents).foldlM
    (fun cache line =>
      let state := line.foldl LineState.step {}
      cache.put state.key state.value) cache

/-- The loop of `LRUCache::updateP2M` over the pending nodes. -/
def putPending (cache : Raw) (nodes : List CacheNode) : Except Fault Raw :=
  nodes.foldlM (fun cache node => cache.put node.key node.value) cache

/-- The loop of `LRUCache::updateM2M` over the nodes of a list. -/
def putNodes (cache : Raw) (nodes : List (Nat × CacheNode)) : Except Fault Raw :=
  nodes.foldlM
    (fun cache node => do
      let cache ← cache.put node.2.key node.2.value
      return cache.clearPending) cache

/-- What the members of a cache keep between calls. -/
structure Represents (cache : Raw) : Prop where
  keys : ∀ key, key ∈ cache.umap ↔ ∃ node ∈ cache.lru, node.2.key = key
  keys_nodup : (cache.lru.map fun node => node.2.key).Nodup
  nodes_nodup : (cache.lru.map Prod.fst).Nodup
  iterators : ∀ key it, cache.umap.lookup key = some it →
    ∃ value, NodeList.deref it cache.lru = some ⟨key, value⟩
  size : cache.umap.keys.length ≤ cache.capacity ∧ cache.lru.length ≤ cache.capacity

theorem WellFormed.represents {cache : Raw} (wellFormed : cache.WellFormed) :
    cache.Represents where
  keys := fun key => by rw [wellFormed.indexed.mem_umap_iff, List.mem_map]
  keys_nodup := wellFormed.indexed.keys_nodup
  nodes_nodup := wellFormed.indexed.nodes_nodup
  iterators := fun key it found => by
    obtain ⟨value, listed⟩ := (wellFormed.indexed.lookup_iff key it).mp found
    refine ⟨value, ?_⟩
    rw [NodeList.deref, NodeList.find?_of_mem wellFormed.indexed.nodes_nodup listed,
      Option.map_some]
  size := by
    rw [wellFormed.indexed.length_keys]
    exact ⟨wellFormed.size, wellFormed.size⟩

end Raw

/-! ### The calls on the members of caches that carry the invariant -/

variable (cache : LRUCache)

theorem raw_readFromFile (contents : Bytes) :
    cache.raw.readFromFile contents = .ok (cache.readFromFile contents).raw :=
  Runs.foldlM_of_simulated raw (fun cache _ => cache.raw_put _ _) cache _

theorem raw_putPending (updateOb : LRUCache) :
    cache.raw.putPending updateOb.raw.pendingUpdateList = .ok (cache.updateP2M updateOb).1.raw :=
  Runs.foldlM_of_simulated raw (fun cache _ => cache.raw_put _ _) cache _

theorem raw_putNodes (updateOb : LRUCache) :
    cache.clear.raw.putNodes updateOb.raw.lru = .ok (cache.updateM2M updateOb).raw := by
  refine Runs.foldlM_of_simulated raw (fun cache node => ?_) cache.clear _
  rw [raw_put, ok_bind]
  rfl

/-! ### Families of caches -/

/-- A call on a cache of a family, whose objects have names. -/
inductive FamilyCall (Name : Type) where
  | get (this : Name) (key : Bytes)
  | put (this : Name) (key : Bytes) (value : List Bytes)
  | readFromFile (this : Name) (contents : Bytes)
  | updateP2M (this updateOb : Name)
  | updateM2M (this updateOb : Name)

variable {Name : Type} [DecidableEq Name]

/-- Perform a call on the members of the caches. -/
def callRaw (caches : Name → Raw) : FamilyCall Name → Except Fault (Name → Raw)
  | .get this key => do
    let (cache, _) ← (caches this).get key
    return Function.update caches this cache
  | .put this key value => do
    let cache ← (caches this).put key value
    return Function.update caches this cache
  | .readFromFile this contents => do
    let cache ← (caches this).readFromFile contents
    return Function.update caches this cache
  | .updateP2M this updateOb => do
    -- `put` pushes in front of the iterator, so the loop ends where the list ended before it,
    -- also where both objects are one
    let cache ← (caches this).putPending (caches updateOb).pendingUpdateList
    let caches := Function.update caches this cache
    return Function.update caches updateOb (caches updateOb).clearPending
  | .updateM2M this updateOb => do
    let caches := Function.update caches this (caches this).clear
    let cache ← (caches this).putNodes (caches updateOb).lru
    return Function.update caches this cache

/-- Perform a call on caches that carry the invariant. -/
def call (caches : Name → LRUCache) : FamilyCall Name → Name → LRUCache
  | .get this key => Function.update caches this ((caches this).get key).1
  | .put this key value => Function.update caches this ((caches this).put key value)
  | .readFromFile this contents =>
    Function.update caches this ((caches this).readFromFile contents)
  | .updateP2M this updateOb =>
    let caches := Function.update caches this ((caches this).updateP2M (caches updateOb)).1
    Function.update caches updateOb (caches updateOb).clearPending
  | .updateM2M this updateOb =>
    let cleared := Function.update caches this (caches this).clear
    Function.update caches this ((caches this).updateM2M (cleared updateOb))

/-- The members of the caches. -/
def members (caches : Name → LRUCache) (name : Name) : Raw := (caches name).raw

theorem members_update (caches : Name → LRUCache) (this : Name) (cache : LRUCache) :
    members (Function.update caches this cache) =
      Function.update (members caches) this cache.raw := by
  funext name
  exact Function.apply_update (fun _ => raw) caches this cache name

/-- A call on the members of caches that carry the invariant returns, and is the call on the
caches. -/
theorem callRaw_members (caches : Name → LRUCache) (familyCall : FamilyCall Name) :
    callRaw (members caches) familyCall = .ok (members (call caches familyCall)) := by
  cases familyCall with
  | get this key =>
    have returned := (caches this).raw_get key
    rw [callRaw, members, returned, call, members_update]
    rfl
  | put this key value =>
    have returned := (caches this).raw_put key value
    rw [callRaw, members, returned, call, members_update]
    rfl
  | readFromFile this contents =>
    have returned := (caches this).raw_readFromFile contents
    rw [callRaw, members, returned, call, members_update]
    rfl
  | updateP2M this updateOb =>
    have returned := (caches this).raw_putPending (caches updateOb)
    rw [callRaw, members, members, returned, ok_bind, ← members_update, call,
      members_update _ updateOb]
    rfl
  | updateM2M this updateOb =>
    have cleared : Function.update (members caches) this (members caches this).clear =
        members (Function.update caches this (caches this).clear) :=
      (members_update caches this (caches this).clear).symm
    have returned :=
      (caches this).raw_putNodes (Function.update caches this (caches this).clear updateOb)
    rw [callRaw, cleared, members, members, Function.update_self, returned, ok_bind, call,
      members_update, members_update, Function.update_idem]
    rfl

/-- A call changes no capacity. -/
theorem call_capacity (caches : Name → LRUCache) (familyCall : FamilyCall Name) (name : Name) :
    (call caches familyCall name).raw.capacity = (caches name).raw.capacity := by
  have update (caches : Name → LRUCache) (this : Name) (cache : LRUCache)
      (same : cache.raw.capacity = (caches this).raw.capacity) :=
    apply_update_of_same (fun cache : LRUCache => cache.raw.capacity) same name
  cases familyCall with
  | get this key => exact update caches this _ (get_capacity _ key)
  | put this key value => exact update caches this _ (put_capacity _ key value)
  | readFromFile this contents =>
    refine update caches this _ ?_
    rw [readFromFile_eq, putAll_capacity]
  | updateP2M this updateOb =>
    refine (update _ updateOb (clearPending _) rfl).trans (update caches this _ ?_)
    rw [updateP2M_fst, putAll_capacity]
  | updateM2M this updateOb => exact update caches this _ (updateM2M_capacity _ _)

/-- In every run of calls on a family of caches that starts with empty ones, no call uses a dangling
iterator, and every cache represents its entries within its capacity. -/
theorem represents_after_calls (capacity : Name → Nat) (calls : List (FamilyCall Name)) :
    ∃ caches, calls.foldlM callRaw (fun name => Raw.create (capacity name)) = .ok caches ∧
      ∀ name, (caches name).Represents ∧ (caches name).capacity = capacity name := by
  have run := Runs.foldlM_of_simulated members callRaw_members
    (fun name => create (capacity name)) calls
  refine ⟨_, run, fun name => ⟨(Runs.after call _ calls name).wellFormed.represents, ?_⟩⟩
  refine Runs.after_of_kept
    (fun caches : Name → LRUCache => (caches name).raw.capacity = capacity name)
    (fun caches familyCall same => ?_) rfl calls
  rw [call_capacity, same]

end LRUCache

/-! ### The caches of the server -/

namespace CacheManager

open LRUCache

/-- `_caches[0]._isUpdating = flag; _caches[i]._isUpdating = flag;` on the members. -/
def setFlagsRaw (caches : Fin 8 → Raw) (i : Fin 8) (flag : Bool) : Fin 8 → Raw :=
  let caches := Function.update caches 0 { caches 0 with isUpdating := flag }
  Function.update caches i { caches i with isUpdating := flag }

/-- The body of a loop of `updateCache` on the members: a call between two flags. -/
def underFlagsRaw (transfer : Fin 8 → FamilyCall (Fin 8)) (caches : Fin 8 → Raw) (i : Fin 8) :
    Except Fault (Fin 8 → Raw) := do
  let caches ← callRaw (setFlagsRaw caches i true) (transfer i)
  return setFlagsRaw caches i false

/-- The two loops of `updateCache` on the members; the file that is written between them reads
them only. -/
def updateCacheRaw (caches : Fin 8 → Raw) : Except Fault (Fin 8 → Raw) := do
  let caches ← replicas.foldlM (underFlagsRaw (.updateP2M 0)) caches
  replicas.foldlM (underFlagsRaw fun i => .updateM2M i 0) caches

theorem setFlagsRaw_members (caches : Caches) (i : Fin 8) (flag : Bool) :
    setFlagsRaw (members caches) i flag = members (setFlags caches i flag) := by
  rw [setFlags, members_update, members_update, setFlagsRaw, members]
  dsimp only
  rw [show Function.update (members caches) 0 { (caches 0).raw with isUpdating := flag } i =
    members (Function.update caches 0 ((caches 0).setUpdating flag)) i by
      rw [members_update]; rfl]
  rfl

/-- The drains of `updateCache` are calls between two objects. -/
theorem callRaw_drain (caches : Caches) (i : Fin 8) (replica : i ≠ 0) :
    callRaw (members caches) (.updateP2M 0 i) = .ok (members (drain caches i)) := by
  have two : Function.update caches 0 ((caches 0).updateP2M (caches i)).1 i = caches i :=
    Function.update_of_ne replica _ _
  have same : call caches (.updateP2M 0 i) = drain caches i := by
    rw [call, drain]
    dsimp only
    rw [two]
    rfl
  rw [callRaw_members, same]

/-- The copies of `updateCache` are calls between two objects. -/
theorem callRaw_copy (caches : Caches) (i : Fin 8) (replica : i ≠ 0) :
    callRaw (members caches) (.updateM2M i 0) = .ok (members (copy caches i)) := by
  have two : Function.update caches i (caches i).clear 0 = caches 0 :=
    Function.update_of_ne replica.symm _ _
  have same : call caches (.updateM2M i 0) = copy caches i := by
    rw [call, copy, two]
  rw [callRaw_members, same]

/-- A loop over the replicas ends, and does on the members what it does on the caches. -/
theorem foldlM_underFlagsRaw {transfer : Fin 8 → FamilyCall (Fin 8)}
    {body : Caches → Fin 8 → Caches}
    (transfers : ∀ caches i, i ≠ 0 →
      callRaw (members caches) (transfer i) = .ok (members (body caches i)))
    {replicas : List (Fin 8)} (others : 0 ∉ replicas) (caches : Caches) :
    replicas.foldlM (underFlagsRaw transfer) (members caches) =
      .ok (members (replicas.foldl (underFlags body) caches)) := by
  induction replicas generalizing caches with
  | nil => rfl
  | cons i replicas inductionHypothesis =>
    have replica : i ≠ 0 := fun same => others (same ▸ List.mem_cons_self)
    have later : 0 ∉ replicas := fun member => others (List.mem_cons_of_mem _ member)
    have flagged : underFlagsRaw transfer (members caches) i =
        .ok (members (underFlags body caches i)) := by
      rw [underFlagsRaw, setFlagsRaw_members, transfers _ i replica, ok_bind,
        setFlagsRaw_members]
      rfl
    rw [List.foldlM_cons, flagged, ok_bind, inductionHypothesis later, List.foldl_cons]

/-- `updateCache` uses no dangling iterator: on the lists and the maps of the eight caches it ends,
and does what the model of the caches says. -/
theorem updateCacheRaw_members (manager : CacheManager) :
    updateCacheRaw (members manager.caches) = .ok (members manager.updateCache.caches) := by
  have drained :=
    foldlM_underFlagsRaw callRaw_drain (show 0 ∉ replicas by decide) manager.caches
  rw [updateCacheRaw, drained, ok_bind,
    foldlM_underFlagsRaw callRaw_copy (by decide)]
  rfl

end CacheManager

end SearchEngine
