/-
This file says what the functions of `LRUCache` that go through `put` do to the
entries, the keys and the pending lists of the caches.

All of them put a list of entries, one after the other: `readFromFile` the
decoded lines, `updateP2M` the pending entries of the other cache, and
`updateM2M` its entries. The map from keys to values that clients see is the
result of `get`, and two caches have the same map exactly when they have the same
entries, in whatever order.
-/

import SearchEngine.Cache.LRUCache

namespace SearchEngine

namespace LRUCache

/-! ### Keys and values -/

/-- The keys a cache holds, the most recently used first. -/
def keys (cache : LRUCache) : List Bytes := cache.entries.map Prod.fst

/-- Two caches answer every lookup alike. -/
def SameMap (first second : LRUCache) : Prop := ∀ key, (first.get key).2 = (second.get key).2

variable {cache : LRUCache}

theorem get_eq_some_iff {key : Bytes} {value : List Bytes} :
    (cache.get key).2 = some value ↔ (key, value) ∈ cache.entries := by
  rw [get_value]
  exact Recency.find_snd_eq_some_iff cache.entries_nodup

theorem get_eq_none_iff {key : Bytes} : (cache.get key).2 = none ↔ key ∉ cache.keys := by
  rw [get_value]
  exact Recency.find_snd_eq_none_iff

theorem sameMap_iff {first second : LRUCache} :
    SameMap first second ↔ ∀ entry, entry ∈ first.entries ↔ entry ∈ second.entries := by
  constructor
  · rintro same ⟨key, value⟩
    rw [← get_eq_some_iff, ← get_eq_some_iff, same key]
  · intro same key
    ext value
    rw [get_eq_some_iff, get_eq_some_iff, same]

theorem length_keys_le (cache : LRUCache) : cache.keys.toFinset.card ≤ cache.raw.capacity := by
  refine (List.toFinset_card_le _).trans ?_
  rw [keys, List.length_map]
  exact cache.length_entries

@[simp] theorem mem_keys_get {key other : Bytes} :
    other ∈ (cache.get key).1.keys ↔ other ∈ cache.keys := by
  rw [keys, keys, get_entries]
  by_cases held : key ∈ cache.entries.map Prod.fst
  · rw [Recency.map_fst_find_of_mem held, Recency.mem_touch, or_iff_right_of_imp]
    rintro rfl
    exact held
  · rw [Recency.find_of_notMem held]

/-- With room for all keys, a `put` adds its key to the keys. -/
theorem mem_keys_put {key other : Bytes} {domain : Finset Bytes}
    (few : domain.card ≤ cache.raw.capacity) (known : key ∈ domain)
    (allKnown : ∀ held ∈ cache.keys, held ∈ domain) (value : List Bytes) :
    other ∈ (cache.put key value).keys ↔ other = key ∨ other ∈ cache.keys := by
  rw [keys, put_entries]
  exact Recency.mem_map_fst_store cache.entries_nodup few known allKnown value

/-- A `put` of a held key changes neither the keys nor the pending list. -/
theorem put_held {key : Bytes} (held : key ∈ cache.keys) (value : List Bytes) :
    (∀ other, other ∈ (cache.put key value).keys ↔ other ∈ cache.keys) ∧
      (cache.put key value).raw.pendingUpdateList = cache.raw.pendingUpdateList := by
  refine ⟨fun other => ?_, ?_⟩
  · rw [mem_keys_put cache.length_keys_le (List.mem_toFinset.mpr held)
      (fun _ member => List.mem_toFinset.mpr member), or_iff_right_of_imp]
    rintro rfl
    exact held
  · rw [put_pending, Raw.pendingAfterPut]
    exact if_pos held

/-- A `put` of an absent key is queued. -/
theorem put_absent {key : Bytes} (absent : key ∉ cache.keys) (value : List Bytes) :
    (cache.put key value).raw.pendingUpdateList = ⟨key, value⟩ :: cache.raw.pendingUpdateList := by
  rw [put_pending, Raw.pendingAfterPut]
  exact if_neg absent

@[simp] theorem get_isUpdating (cache : LRUCache) (key : Bytes) :
    (cache.get key).1.raw.isUpdating = cache.raw.isUpdating := by
  obtain ⟨lru, same⟩ := cache.get_raw key
  rw [same]

@[simp] theorem put_isUpdating (cache : LRUCache) (key : Bytes) (value : List Bytes) :
    (cache.put key value).raw.isUpdating = cache.raw.isUpdating := by
  obtain ⟨next, result, _, _, _, same, _⟩ := Raw.put_spec cache.wellFormed key value
  rw [raw_put] at result
  rw [Except.ok.inj result, same]

/-! ### Putting many entries -/

/-- Put entries one after the other. -/
def putAll (cache : LRUCache) (stored : List (Bytes × List Bytes)) : LRUCache :=
  stored.foldl (fun cache entry => cache.put entry.1 entry.2) cache

variable (cache) (stored : List (Bytes × List Bytes))

@[simp] theorem putAll_nil : cache.putAll [] = cache := rfl

@[simp] theorem putAll_cons (entry : Bytes × List Bytes) :
    cache.putAll (entry :: stored) = (cache.put entry.1 entry.2).putAll stored := rfl

@[simp] theorem putAll_capacity : (cache.putAll stored).raw.capacity = cache.raw.capacity := by
  induction stored generalizing cache with
  | nil => rfl
  | cons entry rest inductionHypothesis =>
    rw [putAll_cons, inductionHypothesis, put_capacity]

@[simp] theorem putAll_isUpdating : (cache.putAll stored).raw.isUpdating = cache.raw.isUpdating := by
  induction stored generalizing cache with
  | nil => rfl
  | cons entry rest inductionHypothesis =>
    rw [putAll_cons, inductionHypothesis, put_isUpdating]

theorem putAll_entries :
    (cache.putAll stored).entries = Recency.storeAll cache.raw.capacity cache.entries stored := by
  induction stored generalizing cache with
  | nil => rfl
  | cons entry rest inductionHypothesis =>
    rw [putAll_cons, inductionHypothesis, put_entries, put_capacity]
    rfl

variable {cache stored}

theorem mem_keys_putAll {other : Bytes} {domain : Finset Bytes}
    (few : domain.card ≤ cache.raw.capacity) (known : ∀ entry ∈ stored, entry.1 ∈ domain)
    (allKnown : ∀ held ∈ cache.keys, held ∈ domain) :
    other ∈ (cache.putAll stored).keys ↔ other ∈ stored.map Prod.fst ∨ other ∈ cache.keys := by
  induction stored generalizing cache with
  | nil => simp
  | cons entry rest inductionHypothesis =>
    have first := known entry List.mem_cons_self
    have added (held : Bytes) : held ∈ (cache.put entry.1 entry.2).keys ↔ _ :=
      mem_keys_put few first allKnown entry.2
    have later : ∀ held ∈ (cache.put entry.1 entry.2).keys, held ∈ domain := by
      intro held member
      rcases (added held).mp member with rfl | before
      · exact first
      · exact allKnown held before
    rw [putAll_cons, inductionHypothesis ((put_capacity ..).symm ▸ few)
      (fun other member => known other (List.mem_cons_of_mem _ member)) later, added,
      List.map_cons, List.mem_cons, or_left_comm, or_assoc]

/-- Putting entries makes no others up. -/
theorem mem_of_mem_putAll {entry : Bytes × List Bytes}
    (member : entry ∈ (cache.putAll stored).entries) : entry ∈ stored ∨ entry ∈ cache.entries := by
  induction stored generalizing cache with
  | nil => exact Or.inr member
  | cons first rest inductionHypothesis =>
    rcases inductionHypothesis member with later | before
    · exact Or.inl (List.mem_cons_of_mem _ later)
    · rw [put_entries] at before
      rcases Recency.mem_of_mem_store before with rfl | ⟨held, _⟩
      · exact Or.inl List.mem_cons_self
      · exact Or.inr held

/-- The pending list keeps what it has. -/
theorem pending_suffix_putAll :
    cache.raw.pendingUpdateList <:+ (cache.putAll stored).raw.pendingUpdateList := by
  induction stored generalizing cache with
  | nil => exact List.suffix_rfl
  | cons entry rest inductionHypothesis =>
    refine List.IsSuffix.trans ?_ inductionHypothesis
    by_cases held : entry.1 ∈ cache.keys
    · rw [(put_held held entry.2).2]
    · rw [put_absent held]
      exact List.suffix_cons _ _

/-- The pending list grows by nothing exactly when all keys are held. -/
theorem pending_putAll_eq_iff :
    (cache.putAll stored).raw.pendingUpdateList = cache.raw.pendingUpdateList ↔
      ∀ entry ∈ stored, entry.1 ∈ cache.keys := by
  induction stored generalizing cache with
  | nil => simp
  | cons entry rest inductionHypothesis =>
    by_cases held : entry.1 ∈ cache.keys
    · obtain ⟨sameKeys, samePending⟩ := put_held held entry.2
      rw [putAll_cons, ← samePending, inductionHypothesis]
      simp [sameKeys, held]
    · have grown : (⟨entry.1, entry.2⟩ :: cache.raw.pendingUpdateList : List CacheNode).length ≤
          ((cache.put entry.1 entry.2).putAll rest).raw.pendingUpdateList.length := by
        rw [← put_absent held]
        exact pending_suffix_putAll.length_le
      refine ⟨fun same => ?_, fun all => absurd (all entry List.mem_cons_self) held⟩
      rw [putAll_cons] at same
      rw [same, List.length_cons] at grown
      omega

/-- Putting held keys changes no keys. -/
theorem mem_keys_putAll_of_held (held : ∀ entry ∈ stored, entry.1 ∈ cache.keys) {other : Bytes} :
    other ∈ (cache.putAll stored).keys ↔ other ∈ cache.keys := by
  rw [mem_keys_putAll cache.length_keys_le
    (fun entry member => List.mem_toFinset.mpr (held entry member))
    (fun _ member => List.mem_toFinset.mpr member), or_iff_right_of_imp]
  intro member
  obtain ⟨entry, listed, rfl⟩ := List.mem_map.mp member
  exact held entry listed

/-! ### Files -/

/-- The entry a line of the cache file is read as. -/
def decodeLine (line : Bytes) : Bytes × List Bytes :=
  let state := line.foldl LineState.step {}
  (state.key, state.value)

theorem readFromFile_eq (cache : LRUCache) (contents : Bytes) :
    cache.readFromFile contents = cache.putAll ((Text.lines newline contents).map decodeLine) := by
  rw [readFromFile, putAll, List.foldl_map]
  rfl

/-! ### Pending lists and masters -/

/-- The keys that wait for the next drain of a cache. -/
def pendingKeys (cache : LRUCache) : List Bytes := cache.raw.pendingUpdateList.map CacheNode.key

variable (cache) (updateOb : LRUCache)

theorem updateP2M_fst : (cache.updateP2M updateOb).1 =
    cache.putAll (updateOb.raw.pendingUpdateList.map CacheNode.entry) := by
  rw [updateP2M, putAll, List.foldl_map]
  rfl

theorem map_fst_pending :
    (cache.raw.pendingUpdateList.map CacheNode.entry).map Prod.fst = cache.pendingKeys := by
  rw [List.map_map]
  rfl

@[simp] theorem clearPending_entries : cache.clearPending.entries = cache.entries := rfl

@[simp] theorem clearPending_keys : cache.clearPending.keys = cache.keys := rfl

@[simp] theorem clearPending_pending : cache.clearPending.raw.pendingUpdateList = [] := rfl

@[simp] theorem clearPending_capacity : cache.clearPending.raw.capacity = cache.raw.capacity := rfl

@[simp] theorem setUpdating_entries (flag : Bool) :
    (cache.setUpdating flag).entries = cache.entries := rfl

@[simp] theorem setUpdating_keys (flag : Bool) : (cache.setUpdating flag).keys = cache.keys := rfl

@[simp] theorem setUpdating_pending (flag : Bool) :
    (cache.setUpdating flag).raw.pendingUpdateList = cache.raw.pendingUpdateList := rfl

@[simp] theorem setUpdating_capacity (flag : Bool) :
    (cache.setUpdating flag).raw.capacity = cache.raw.capacity := rfl

/-- The loop of `updateM2M`, on the nodes that are still to be copied. -/
theorem updateM2M_loop (nodes : List (Nat × CacheNode)) (cache : LRUCache) :
    let copied := nodes.foldl
      (fun cache node => (cache.put node.2.key node.2.value).clearPending) cache
    copied.entries = Recency.storeAll cache.raw.capacity cache.entries
        (nodes.map fun node => node.2.entry) ∧
      copied.raw.capacity = cache.raw.capacity ∧
      copied.raw.pendingUpdateList = if nodes = [] then cache.raw.pendingUpdateList else [] := by
  induction nodes generalizing cache with
  | nil => exact ⟨rfl, rfl, rfl⟩
  | cons node rest inductionHypothesis =>
    obtain ⟨entries, capacity, pending⟩ :=
      inductionHypothesis (cache.put node.2.key node.2.value).clearPending
    rw [clearPending_capacity, put_capacity] at entries capacity
    rw [clearPending_pending, ite_self] at pending
    refine ⟨?_, capacity, pending⟩
    rw [List.foldl_cons, entries, clearPending_entries, put_entries]
    rfl

theorem updateM2M_isUpdating :
    (cache.updateM2M updateOb).raw.isUpdating = cache.raw.isUpdating := by
  rw [updateM2M]
  refine List.foldlRecOn
    (motive := fun copied : LRUCache => copied.raw.isUpdating = cache.raw.isUpdating)
    _ _ rfl fun copied same node _ => ?_
  exact (put_isUpdating copied node.2.key node.2.value).trans same

theorem updateM2M_capacity : (cache.updateM2M updateOb).raw.capacity = cache.raw.capacity :=
  (updateM2M_loop updateOb.raw.lru cache.clear).2.1

theorem updateM2M_pending : (cache.updateM2M updateOb).raw.pendingUpdateList =
    if updateOb.entries = [] then cache.raw.pendingUpdateList else [] := by
  have loop := (updateM2M_loop updateOb.raw.lru cache.clear).2.2
  have empty : updateOb.entries = [] ↔ updateOb.raw.lru = [] := by
    rw [entries, Raw.entries, List.map_eq_nil_iff]
  rw [updateM2M, loop, if_congr empty rfl rfl]
  rfl

/-- A copy of a cache that fits holds the entries of the cache, in reverse order. -/
theorem updateM2M_entries (fits : updateOb.raw.capacity ≤ cache.raw.capacity) :
    (cache.updateM2M updateOb).entries = updateOb.entries.reverse := by
  have loop := (updateM2M_loop updateOb.raw.lru cache.clear).1
  have listed : (updateOb.raw.lru.map fun node => node.2.entry) = updateOb.entries := rfl
  have cleared : cache.clear.entries = [] := rfl
  rw [listed, cleared, Recency.storeAll_of_nodup, List.append_nil] at loop
  · exact loop
  · rw [List.map_nil, List.append_nil]
    exact updateOb.entries_nodup
  · exact updateOb.length_entries.trans fits

theorem sameMap_updateM2M (fits : updateOb.raw.capacity ≤ cache.raw.capacity) :
    SameMap (cache.updateM2M updateOb) updateOb := by
  rw [sameMap_iff]
  intro entry
  rw [updateM2M_entries cache updateOb fits, List.mem_reverse]

end LRUCache

end SearchEngine
