/-
This file models `LRUCache`: a hash map of iterators into a linked list of
nodes, and a list of the nodes added since the last drain.

`LRUCache.Raw` holds the members as the class declares them, and `get` and `put`
of a raw cache are the source's functions with every iterator use checked. The
representation invariant `WellFormed` ties the map to the list. On a well-formed
cache no check fails, the invariant is kept, and the entries change as the
recency list `Recency.find` and `Recency.store` says. `LRUCache` carries the
invariant, so its operations are total; the functions of the class that only
call `put` are defined on it.
-/

import SearchEngine.Basic
import SearchEngine.Library.NodeList
import SearchEngine.Library.Recency

namespace SearchEngine

/-- `LRUCache::CacheNode` -/
structure CacheNode where
  key : Bytes
  value : List Bytes
  deriving DecidableEq, Repr

/-- A key and its value, as a recency list holds it. -/
def CacheNode.entry (node : CacheNode) : Bytes × List Bytes := (node.key, node.value)

/-- The members of `LRUCache`. An iterator into `_lru` is the identity of its node, and
`nextNode` is the identity of the next node the list allocates. -/
structure LRUCache.Raw where
  umap : AList fun _ : Bytes => Nat
  lru : List (Nat × CacheNode)
  pendingUpdateList : List CacheNode
  capacity : Nat
  isUpdating : Bool
  nextNode : Nat

namespace LRUCache.Raw

/-- `LRUCache(int capacity)` -/
def create (capacity : Nat) : Raw :=
  { umap := ∅, lru := [], pendingUpdateList := [], capacity, isUpdating := false, nextNode := 0 }

/-- `LRUCache::get`; the result is the value written to the reference parameter on a hit. -/
def get (cache : Raw) (key : Bytes) : Except Fault (Raw × Option (List Bytes)) :=
  match cache.umap.lookup key with
  | some it => do
    let lru ← orFault .danglingIterator (NodeList.splice it cache.lru)
    let node ← orFault .danglingIterator (NodeList.deref it lru)
    return ({ cache with lru }, some node.value)
  | none => return (cache, none)

/-- `_umap.erase(_lru.back()->key); _lru.pop_back();` -/
def evict (umap : AList fun _ : Bytes => Nat) (lru : List (Nat × CacheNode)) :
    Except Fault ((AList fun _ : Bytes => Nat) × List (Nat × CacheNode)) := do
  let back ← orFault .danglingIterator lru.getLast?
  return (umap.erase back.2.key, lru.dropLast)

/-- `LRUCache::put` -/
def put (cache : Raw) (key : Bytes) (value : List Bytes) : Except Fault Raw :=
  match cache.umap.lookup key with
  | some it => do
    let lru ← orFault .danglingIterator (NodeList.splice it cache.lru)
    let lru ← orFault .danglingIterator (NodeList.assign it { key, value } lru)
    let front ← orFault .danglingIterator (NodeList.begin? lru)
    return { cache with lru, umap := cache.umap.insert key front }
  | none => do
    let lru := (cache.nextNode, { key, value }) :: cache.lru
    let umap := cache.umap.insert key cache.nextNode
    let (umap, lru) ← if umap.keys.length > cache.capacity then evict umap lru else pure (umap, lru)
    return { cache with
      umap, lru
      pendingUpdateList := { key, value } :: cache.pendingUpdateList
      nextNode := cache.nextNode + 1 }

/-- The entries, most recently used first. -/
def entries (cache : Raw) : List (Bytes × List Bytes) :=
  cache.lru.map fun node => node.2.entry

end LRUCache.Raw

/-! ### The map and the list hold the same keys -/

/-- The map sends every key of the list to the node that carries it, and nothing else. -/
structure Indexed (umap : AList fun _ : Bytes => Nat) (lru : List (Nat × CacheNode)) : Prop where
  nodes_nodup : (lru.map Prod.fst).Nodup
  keys_nodup : (lru.map fun node => node.2.key).Nodup
  lookup_iff : ∀ key it, umap.lookup key = some it ↔ ∃ value, (it, CacheNode.mk key value) ∈ lru

namespace Indexed

variable {umap : AList fun _ : Bytes => Nat} {lru : List (Nat × CacheNode)}

theorem mem_umap_iff (indexed : Indexed umap lru) (key : Bytes) :
    key ∈ umap ↔ key ∈ lru.map fun node => node.2.key := by
  rw [← AList.lookup_isSome, Option.isSome_iff_exists, List.mem_map]
  constructor
  · rintro ⟨it, found⟩
    obtain ⟨value, listed⟩ := (indexed.lookup_iff key it).mp found
    exact ⟨_, listed, rfl⟩
  · rintro ⟨node, listed, rfl⟩
    exact ⟨node.1, (indexed.lookup_iff _ _).mpr ⟨node.2.value, listed⟩⟩

/-- `_umap.size()` is the number of nodes. -/
theorem length_keys (indexed : Indexed umap lru) : umap.keys.length = lru.length := by
  have same : umap.keys.Perm (lru.map fun node => node.2.key) :=
    (List.perm_ext_iff_of_nodup umap.keys_nodup indexed.keys_nodup).mpr fun key =>
      AList.mem_keys.symm.trans (indexed.mem_umap_iff key)
  rw [same.length_eq, List.length_map]

theorem perm (indexed : Indexed umap lru) {reordered : List (Nat × CacheNode)}
    (same : reordered.Perm lru) : Indexed umap reordered where
  nodes_nodup := (same.map _).nodup_iff.mpr indexed.nodes_nodup
  keys_nodup := (same.map _).nodup_iff.mpr indexed.keys_nodup
  lookup_iff key it := by
    rw [indexed.lookup_iff]
    exact exists_congr fun value => same.mem_iff.symm

/-- Two nodes that carry one key are the same node. -/
theorem eq_of_key_eq (indexed : Indexed umap lru) {first second : Nat × CacheNode}
    (firstListed : first ∈ lru) (secondListed : second ∈ lru)
    (sameKey : first.2.key = second.2.key) : first = second :=
  List.inj_on_of_nodup_map indexed.keys_nodup firstListed secondListed sameKey

/-- The other nodes are those with another key. -/
theorem filter_node_eq_filter_key (indexed : Indexed umap lru) {key : Bytes} {it : Nat}
    {value : List Bytes} (listed : (it, CacheNode.mk key value) ∈ lru) :
    lru.filter (·.1 ≠ it) = lru.filter (·.2.key ≠ key) := by
  refine List.filter_congr fun node member => ?_
  have agree : node.1 = it ↔ node.2.key = key := by
    constructor
    · intro same
      have equal := List.inj_on_of_nodup_map indexed.nodes_nodup member listed same
      rw [equal]
    · intro same
      rw [indexed.eq_of_key_eq member listed same]
  simp [agree]

/-- A map that indexes the other nodes indexes the front node too when its key is inserted. -/
theorem lookup_insert_iff {key : Bytes} {it : Nat} {value : List Bytes}
    {rest : List (Nat × CacheNode)} (absent : ∀ node ∈ rest, node.2.key ≠ key)
    (others : ∀ other, other ≠ key → ∀ node, umap.lookup other = some node ↔
      ∃ found, (node, CacheNode.mk other found) ∈ rest) (other : Bytes) (node : Nat) :
    (umap.insert key it).lookup other = some node ↔
      ∃ found, (node, CacheNode.mk other found) ∈ (it, CacheNode.mk key value) :: rest := by
  by_cases same : other = key
  · subst same
    rw [AList.lookup_insert]
    constructor
    · intro found
      exact ⟨value, by simp [← Option.some.inj found]⟩
    · rintro ⟨found, member⟩
      rcases List.mem_cons.mp member with equal | inRest
      · rw [(Prod.mk.inj equal).1]
      · exact absurd rfl (absent _ inRest)
  · rw [AList.lookup_insert_ne same, others other same]
    simp [same]

/-- Replacing the front node's value keeps the map. -/
theorem overwrite {key : Bytes} {it : Nat} {value : List Bytes} {rest : List (Nat × CacheNode)}
    (indexed : Indexed umap ((it, CacheNode.mk key value) :: rest)) (replacement : List Bytes) :
    Indexed (umap.insert key it) ((it, CacheNode.mk key replacement) :: rest) where
  nodes_nodup := indexed.nodes_nodup
  keys_nodup := indexed.keys_nodup
  lookup_iff := by
    refine lookup_insert_iff (fun node inRest same => ?_) fun other different node => ?_
    · exact (List.nodup_cons.mp indexed.keys_nodup).1 (List.mem_map.mpr ⟨node, inRest, same⟩)
    · rw [indexed.lookup_iff]
      simp [different]

/-- A fresh node with a fresh key extends the map. -/
theorem push_front (indexed : Indexed umap lru) {key : Bytes} {node : Nat}
    (freshKey : umap.lookup key = none) (freshNode : ∀ other ∈ lru, other.1 ≠ node)
    (value : List Bytes) :
    Indexed (umap.insert key node) ((node, CacheNode.mk key value) :: lru) where
  nodes_nodup := by
    refine List.nodup_cons.mpr ⟨?_, indexed.nodes_nodup⟩
    simpa using fun other member => freshNode (node, other) member rfl
  keys_nodup := by
    refine List.nodup_cons.mpr ⟨fun member => ?_, indexed.keys_nodup⟩
    have held := AList.lookup_isSome.mpr ((indexed.mem_umap_iff key).mpr member)
    simp [freshKey] at held
  lookup_iff := by
    refine lookup_insert_iff (fun other member same => ?_) fun other _ it => ?_
    · have held := (indexed.mem_umap_iff key).mpr (List.mem_map.mpr ⟨other, member, same⟩)
      exact AList.lookup_eq_none.mp freshKey held
    · exact indexed.lookup_iff other it

/-- Erasing the last node's key and dropping the node keeps the map. -/
theorem pop_back {front : List (Nat × CacheNode)} {back : Nat × CacheNode}
    (indexed : Indexed umap (front ++ [back])) : Indexed (umap.erase back.2.key) front where
  nodes_nodup := by
    have distinct := indexed.nodes_nodup
    rw [List.map_append] at distinct
    exact distinct.of_append_left
  keys_nodup := by
    have distinct := indexed.keys_nodup
    rw [List.map_append] at distinct
    exact distinct.of_append_left
  lookup_iff key it := by
    have backFresh : ∀ node ∈ front, node.2.key ≠ back.2.key := by
      intro node member same
      have distinct := indexed.keys_nodup
      rw [List.map_append] at distinct
      exact (List.disjoint_of_nodup_append distinct) (List.mem_map_of_mem member)
        (by simpa using same)
    by_cases same : key = back.2.key
    · rw [same, AList.lookup_erase]
      constructor
      · intro found
        cases found
      · rintro ⟨value, member⟩
        exact (backFresh _ member rfl).elim
    · rw [AList.lookup_erase_ne same, indexed.lookup_iff]
      refine exists_congr fun value => ?_
      rw [List.mem_append, List.mem_singleton]
      refine ⟨fun member => member.resolve_right fun equal => ?_, Or.inl⟩
      exact same (congrArg (fun node : Nat × CacheNode => node.2.key) equal)

end Indexed

/-! ### The representation invariant -/

namespace LRUCache.Raw

/-- The representation invariant: the map indexes the list, no node carries the identity the
list allocates next, and the capacity bounds the number of entries. -/
structure WellFormed (cache : Raw) : Prop where
  indexed : Indexed cache.umap cache.lru
  fresh : ∀ node ∈ cache.lru, node.1 < cache.nextNode
  size : cache.lru.length ≤ cache.capacity

theorem create_wellFormed (capacity : Nat) : (create capacity).WellFormed where
  indexed :=
    { nodes_nodup := List.nodup_nil
      keys_nodup := List.nodup_nil
      lookup_iff := fun key it => by simp [create] }
  fresh := fun node member => by cases member
  size := Nat.zero_le _

variable {cache : Raw}

theorem map_fst_entries (cache : Raw) :
    cache.entries.map Prod.fst = cache.lru.map fun node => node.2.key := by
  rw [entries, List.map_map]
  rfl

theorem WellFormed.entries_nodup (wellFormed : cache.WellFormed) :
    (cache.entries.map Prod.fst).Nodup := by
  rw [map_fst_entries]
  exact wellFormed.indexed.keys_nodup

theorem WellFormed.length_entries (wellFormed : cache.WellFormed) :
    cache.entries.length ≤ cache.capacity := by
  rw [entries, List.length_map]
  exact wellFormed.size

theorem WellFormed.lookup_eq_none (wellFormed : cache.WellFormed) {key : Bytes} :
    cache.umap.lookup key = none ↔ key ∉ cache.entries.map Prod.fst := by
  rw [AList.lookup_eq_none, wellFormed.indexed.mem_umap_iff, map_fst_entries]

/-- The entries of the nodes other than `it` are the entries with another key. -/
theorem WellFormed.map_entry_filter (wellFormed : cache.WellFormed) {key : Bytes} {it : Nat}
    {value : List Bytes} (listed : (it, CacheNode.mk key value) ∈ cache.lru) :
    (cache.lru.filter (·.1 ≠ it)).map (fun node => node.2.entry) =
      cache.entries.filter (·.1 ≠ key) := by
  rw [wellFormed.indexed.filter_node_eq_filter_key listed, entries, List.filter_map]
  rfl

/-- A miss changes nothing. -/
theorem get_of_notMem (wellFormed : cache.WellFormed) {key : Bytes}
    (absent : key ∉ cache.entries.map Prod.fst) : cache.get key = .ok (cache, none) := by
  rw [get, wellFormed.lookup_eq_none.mpr absent]
  rfl

/-- A lookup is the lookup of the recency list; only `_lru` changes. -/
theorem get_spec (wellFormed : cache.WellFormed) (key : Bytes) :
    ∃ lru, cache.get key = .ok ({ cache with lru }, (Recency.find key cache.entries).2) ∧
      WellFormed { cache with lru } ∧
      entries { cache with lru } = (Recency.find key cache.entries).1 := by
  cases found : cache.umap.lookup key with
  | none =>
    have absent := wellFormed.lookup_eq_none.mp found
    refine ⟨cache.lru, ?_, wellFormed, ?_⟩
    · rw [get_of_notMem wellFormed absent, Recency.find_of_notMem absent]
    · rw [Recency.find_of_notMem absent]
  | some it =>
    obtain ⟨value, listed⟩ := (wellFormed.indexed.lookup_iff key it).mp found
    have held : key ∈ cache.entries.map Prod.fst := by
      rw [map_fst_entries]
      exact List.mem_map.mpr ⟨_, listed, rfl⟩
    obtain ⟨stored, storedMember, storedFind⟩ := Recency.find_of_mem held
    have sameValue : stored = value := by
      have entryMember : (key, value) ∈ cache.entries :=
        List.mem_map.mpr ⟨_, listed, rfl⟩
      exact (Prod.mk.inj (List.inj_on_of_nodup_map wellFormed.entries_nodup storedMember
        entryMember rfl)).2
    have moved := NodeList.splice_perm wellFormed.indexed.nodes_nodup listed
    refine ⟨(it, ⟨key, value⟩) :: cache.lru.filter (·.1 ≠ it), ?_, ?_, ?_⟩
    · simp only [get, found, NodeList.splice_of_mem wellFormed.indexed.nodes_nodup listed,
        orFault_some, ok_bind, NodeList.deref_front, pure_eq_ok, storedFind, sameValue]
    · exact {
        indexed := wellFormed.indexed.perm moved
        fresh := fun node member => wellFormed.fresh node (moved.mem_iff.mp member)
        size := moved.length_eq ▸ wellFormed.size }
    · rw [storedFind, sameValue, entries, List.map_cons, wellFormed.map_entry_filter listed]
      rfl

/-- What a `put` leaves in the pending list: only a key that was absent is queued. -/
def pendingAfterPut (cache : Raw) (key : Bytes) (value : List Bytes) : List CacheNode :=
  if key ∈ cache.entries.map Prod.fst then cache.pendingUpdateList
  else { key, value } :: cache.pendingUpdateList

/-- Overwriting a held key moves its node to the front with the new value. -/
theorem put_of_mem (wellFormed : cache.WellFormed) {key : Bytes} (value : List Bytes)
    (held : key ∈ cache.entries.map Prod.fst) :
    ∃ next, cache.put key value = .ok next ∧ next.WellFormed ∧
      next.entries = Recency.store cache.capacity key value cache.entries ∧
      next.capacity = cache.capacity ∧ next.isUpdating = cache.isUpdating ∧
      next.pendingUpdateList = cache.pendingUpdateList := by
  cases found : cache.umap.lookup key with
  | none => exact absurd held (wellFormed.lookup_eq_none.mp found)
  | some it =>
    obtain ⟨stored, listed⟩ := (wellFormed.indexed.lookup_iff key it).mp found
    have moved := NodeList.splice_perm wellFormed.indexed.nodes_nodup listed
    have others : ∀ node ∈ cache.lru.filter (·.1 ≠ it), node.1 ≠ it := by
      intro node member
      simpa using (List.mem_filter.mp member).2
    have length : (cache.lru.filter (·.1 ≠ it)).length < cache.capacity := by
      have bound := wellFormed.size
      rw [← moved.length_eq, List.length_cons] at bound
      omega
    refine ⟨{ cache with
      lru := (it, ⟨key, value⟩) :: cache.lru.filter (·.1 ≠ it)
      umap := cache.umap.insert key it }, ?_, ?_, ?_, rfl, rfl, rfl⟩
    · simp only [put, found, NodeList.splice_of_mem wellFormed.indexed.nodes_nodup listed,
        orFault_some, ok_bind, NodeList.assign_front _ others, NodeList.begin?, List.head?_cons,
        Option.map_some, pure_eq_ok]
    · exact {
        indexed := (wellFormed.indexed.perm moved).overwrite value
        fresh := fun node member => by
          rcases List.mem_cons.mp member with rfl | rest
          · exact wellFormed.fresh (it, ⟨key, stored⟩) listed
          · exact wellFormed.fresh node (List.mem_filter.mp rest).1
        size := by simpa using length }
    · rw [entries, List.map_cons, wellFormed.map_entry_filter listed, Recency.store,
        List.take_of_length_le]
      · rfl
      · rw [← wellFormed.map_entry_filter listed, List.length_cons, List.length_map]
        exact length

/-- Adding an absent key pushes a node to the front and evicts the last one past capacity. -/
theorem put_of_notMem (wellFormed : cache.WellFormed) {key : Bytes} (value : List Bytes)
    (absent : key ∉ cache.entries.map Prod.fst) :
    ∃ next, cache.put key value = .ok next ∧ next.WellFormed ∧
      next.entries = Recency.store cache.capacity key value cache.entries ∧
      next.capacity = cache.capacity ∧ next.isUpdating = cache.isUpdating ∧
      next.pendingUpdateList = { key, value } :: cache.pendingUpdateList := by
  have found := wellFormed.lookup_eq_none.mpr absent
  have pushed : Indexed (cache.umap.insert key cache.nextNode)
      ((cache.nextNode, ⟨key, value⟩) :: cache.lru) :=
    wellFormed.indexed.push_front found
      (fun node member => Nat.ne_of_lt (wellFormed.fresh node member)) value
  have fresh : ∀ node ∈ (cache.nextNode, CacheNode.mk key value) :: cache.lru,
      node.1 < cache.nextNode + 1 := by
    intro node member
    rcases List.mem_cons.mp member with same | listed
    · rw [same]
      exact Nat.lt_succ_self _
    · exact Nat.lt_succ_of_lt (wellFormed.fresh node listed)
  have stored : Recency.store cache.capacity key value cache.entries =
      ((key, value) :: cache.entries).take cache.capacity := by
    rw [Recency.store, List.filter_eq_self.mpr]
    intro entry member
    simpa using fun same : entry.1 = key => absent (same ▸ List.mem_map_of_mem member)
  have total := pushed.length_keys
  rw [List.length_cons] at total
  by_cases full : cache.lru.length + 1 > cache.capacity
  · have exact : cache.lru.length = cache.capacity := by
      have := wellFormed.size
      omega
    have nonempty : (cache.nextNode, CacheNode.mk key value) :: cache.lru ≠ [] := by simp
    have split := List.dropLast_append_getLast nonempty
    refine ⟨{ cache with
      lru := ((cache.nextNode, ⟨key, value⟩) :: cache.lru).dropLast
      umap := (cache.umap.insert key cache.nextNode).erase
        (((cache.nextNode, CacheNode.mk key value) :: cache.lru).getLast nonempty).2.key
      pendingUpdateList := { key, value } :: cache.pendingUpdateList
      nextNode := cache.nextNode + 1 }, ?_, ?_, ?_, rfl, rfl, rfl⟩
    · simp only [put, found, total, if_pos full, evict, List.getLast?_eq_some_getLast nonempty,
        orFault_some, ok_bind, pure_eq_ok]
    · rw [← split] at pushed
      exact {
        indexed := pushed.pop_back
        fresh := fun node member => fresh node (List.mem_of_mem_dropLast member)
        size := by simp [exact] }
    · rw [stored, entries, List.map_dropLast, List.dropLast_eq_take, List.length_map,
        List.length_cons, exact, Nat.add_sub_cancel, List.map_cons]
      rfl
  · refine ⟨{ cache with
      lru := (cache.nextNode, ⟨key, value⟩) :: cache.lru
      umap := cache.umap.insert key cache.nextNode
      pendingUpdateList := { key, value } :: cache.pendingUpdateList
      nextNode := cache.nextNode + 1 }, ?_, ?_, ?_, rfl, rfl, rfl⟩
    · simp only [put, found, total, if_neg full, ok_bind, pure_eq_ok]
    · exact { indexed := pushed, fresh, size := by simpa using full }
    · rw [stored, List.take_of_length_le]
      · rfl
      · rw [entries, List.length_cons, List.length_map]
        omega

/-- A `put` is the `store` of the recency list. -/
theorem put_spec (wellFormed : cache.WellFormed) (key : Bytes) (value : List Bytes) :
    ∃ next, cache.put key value = .ok next ∧ next.WellFormed ∧
      next.entries = Recency.store cache.capacity key value cache.entries ∧
      next.capacity = cache.capacity ∧ next.isUpdating = cache.isUpdating ∧
      next.pendingUpdateList = cache.pendingAfterPut key value := by
  by_cases held : key ∈ cache.entries.map Prod.fst
  · rw [pendingAfterPut, if_pos held]
    exact put_of_mem wellFormed value held
  · rw [pendingAfterPut, if_neg held]
    exact put_of_notMem wellFormed value held

theorem get_wellFormed (wellFormed : cache.WellFormed) {key : Bytes} {next : Raw}
    {value : Option (List Bytes)} (returned : cache.get key = .ok (next, value)) :
    next.WellFormed := by
  obtain ⟨lru, result, kept, _⟩ := get_spec wellFormed key
  rw [result] at returned
  rw [← (Prod.mk.inj (Except.ok.inj returned)).1]
  exact kept

theorem put_wellFormed (wellFormed : cache.WellFormed) {key : Bytes} {value : List Bytes}
    {next : Raw} (returned : cache.put key value = .ok next) : next.WellFormed := by
  obtain ⟨stored, result, kept, _⟩ := put_spec wellFormed key value
  rw [result] at returned
  rw [← Except.ok.inj returned]
  exact kept

theorem get_ne_error (wellFormed : cache.WellFormed) {key : Bytes} {fault : Fault} :
    cache.get key ≠ .error fault := by
  obtain ⟨lru, result, _⟩ := get_spec wellFormed key
  rw [result]
  exact fun same => by cases same

theorem put_ne_error (wellFormed : cache.WellFormed) {key : Bytes} {value : List Bytes}
    {fault : Fault} : cache.put key value ≠ .error fault := by
  obtain ⟨next, result, _⟩ := put_spec wellFormed key value
  rw [result]
  exact fun same => by cases same

end LRUCache.Raw

/-! ### Caches that carry their invariant -/

/-- An `LRUCache` object: members that satisfy the representation invariant. -/
structure LRUCache where
  raw : LRUCache.Raw
  wellFormed : raw.WellFormed

namespace LRUCache

/-- `LRUCache(int capacity)` -/
def create (capacity : Nat) : LRUCache := ⟨.create capacity, Raw.create_wellFormed capacity⟩

/-- The entries, most recently used first. -/
def entries (cache : LRUCache) : List (Bytes × List Bytes) := cache.raw.entries

/-- `LRUCache::get` -/
def get (cache : LRUCache) (key : Bytes) : LRUCache × Option (List Bytes) :=
  match returned : cache.raw.get key with
  | .ok (raw, value) => (⟨raw, Raw.get_wellFormed cache.wellFormed returned⟩, value)
  | .error _ => absurd returned (Raw.get_ne_error cache.wellFormed)

/-- `LRUCache::put` -/
def put (cache : LRUCache) (key : Bytes) (value : List Bytes) : LRUCache :=
  match returned : cache.raw.put key value with
  | .ok raw => ⟨raw, Raw.put_wellFormed cache.wellFormed returned⟩
  | .error _ => absurd returned (Raw.put_ne_error cache.wellFormed)

/-- `_lru.clear(); _umap.clear();` -/
def clear (cache : LRUCache) : LRUCache where
  raw := { cache.raw with umap := ∅, lru := [] }
  wellFormed :=
    { indexed := (Raw.create_wellFormed 0).indexed
      fresh := fun node member => by cases member
      size := Nat.zero_le _ }

/-- `_pendingUpdateList.clear();` -/
def clearPending (cache : LRUCache) : LRUCache where
  raw := { cache.raw with pendingUpdateList := [] }
  wellFormed := ⟨cache.wellFormed.indexed, cache.wellFormed.fresh, cache.wellFormed.size⟩

/-- `_isUpdating = flag;` -/
def setUpdating (cache : LRUCache) (flag : Bool) : LRUCache where
  raw := { cache.raw with isUpdating := flag }
  wellFormed := ⟨cache.wellFormed.indexed, cache.wellFormed.fresh, cache.wellFormed.size⟩

variable (cache : LRUCache) (key : Bytes) (value : List Bytes)

theorem entries_nodup : (cache.entries.map Prod.fst).Nodup := cache.wellFormed.entries_nodup

theorem length_entries : cache.entries.length ≤ cache.raw.capacity :=
  cache.wellFormed.length_entries

@[simp] theorem entries_create (capacity : Nat) : (create capacity).entries = [] := rfl

/-- The checked function of the source returns, and returns this result. -/
theorem raw_get : cache.raw.get key = .ok ((cache.get key).1.raw, (cache.get key).2) := by
  unfold get
  split
  · assumption
  · rename_i fault returned
    exact absurd returned (Raw.get_ne_error cache.wellFormed)

theorem raw_put : cache.raw.put key value = .ok (cache.put key value).raw := by
  unfold put
  split
  · assumption
  · rename_i fault returned
    exact absurd returned (Raw.put_ne_error cache.wellFormed)

/-- A lookup changes `_lru` only. -/
theorem get_raw : ∃ lru, (cache.get key).1.raw = { cache.raw with lru } := by
  obtain ⟨lru, result, _⟩ := Raw.get_spec cache.wellFormed key
  rw [raw_get] at result
  exact ⟨lru, (Prod.mk.inj (Except.ok.inj result)).1⟩

@[simp] theorem get_entries : (cache.get key).1.entries = (Recency.find key cache.entries).1 := by
  obtain ⟨lru, result, _, same⟩ := Raw.get_spec cache.wellFormed key
  rw [raw_get] at result
  rw [entries, (Prod.mk.inj (Except.ok.inj result)).1]
  exact same

@[simp] theorem get_value : (cache.get key).2 = (Recency.find key cache.entries).2 := by
  obtain ⟨lru, result, _⟩ := Raw.get_spec cache.wellFormed key
  rw [raw_get] at result
  exact (Prod.mk.inj (Except.ok.inj result)).2

@[simp] theorem get_capacity : (cache.get key).1.raw.capacity = cache.raw.capacity := by
  obtain ⟨lru, same⟩ := cache.get_raw key
  rw [same]

@[simp] theorem get_pending :
    (cache.get key).1.raw.pendingUpdateList = cache.raw.pendingUpdateList := by
  obtain ⟨lru, same⟩ := cache.get_raw key
  rw [same]

/-- A miss leaves the object as it was. -/
theorem get_of_miss (miss : (cache.get key).2 = none) : (cache.get key).1 = cache := by
  have absent : key ∉ cache.entries.map Prod.fst := by
    intro held
    obtain ⟨stored, _, found⟩ := Recency.find_of_mem held
    rw [get_value, found] at miss
    cases miss
  have result := Raw.get_of_notMem cache.wellFormed absent
  rw [raw_get] at result
  have same := (Prod.mk.inj (Except.ok.inj result)).1
  cases cache
  cases next : get _ key with
  | mk first second =>
    cases first
    simp only [next] at same
    simp [same]

@[simp] theorem put_entries :
    (cache.put key value).entries = Recency.store cache.raw.capacity key value cache.entries := by
  obtain ⟨next, result, _, same, _⟩ := Raw.put_spec cache.wellFormed key value
  rw [raw_put] at result
  rw [entries, Except.ok.inj result]
  exact same

@[simp] theorem put_capacity : (cache.put key value).raw.capacity = cache.raw.capacity := by
  obtain ⟨next, result, _, _, same, _⟩ := Raw.put_spec cache.wellFormed key value
  rw [raw_put] at result
  rw [Except.ok.inj result, same]

@[simp] theorem put_pending :
    (cache.put key value).raw.pendingUpdateList = cache.raw.pendingAfterPut key value := by
  obtain ⟨next, result, _, _, _, _, same⟩ := Raw.put_spec cache.wellFormed key value
  rw [raw_put] at result
  rw [Except.ok.inj result, same]

/-! ### The functions of the class that go through `put` -/

/-- `LRUCache::writeToFile`; the result is the contents of the file. -/
def writeToFile (cache : LRUCache) : Bytes :=
  cache.entries.flatMap fun entry =>
    entry.1 ++ [colon] ++ (entry.2.flatMap fun word => word ++ [space]) ++ [newline]

/-- One line of `LRUCache::readFromFile`: the key and the values read so far, the value being
read, and whether a `':'` was met. -/
structure LineState where
  flag : Bool := false
  key : Bytes := []
  value : List Bytes := []
  str : Bytes := []

/-- The body of the loop over the characters of a line. -/
def LineState.step (state : LineState) (character : UInt8) : LineState :=
  if character = colon then { state with flag := true }
  else if !state.flag then { state with key := state.key ++ [character] }
  else if character = space then { state with value := state.value ++ [state.str], str := [] }
  else { state with str := state.str ++ [character] }

/-- `LRUCache::readFromFile` on the contents of the file. -/
def readFromFile (cache : LRUCache) (contents : Bytes) : LRUCache :=
  (Text.lines newline contents).foldl
    (fun cache line =>
      let state := line.foldl LineState.step {}
      cache.put state.key state.value) cache

/-- `LRUCache::updateP2M`; both objects are returned. -/
def updateP2M (cache updateOb : LRUCache) : LRUCache × LRUCache :=
  (updateOb.raw.pendingUpdateList.foldl (fun cache node => cache.put node.key node.value) cache,
    updateOb.clearPending)

/-- `LRUCache::updateM2M` -/
def updateM2M (cache updateOb : LRUCache) : LRUCache :=
  updateOb.raw.lru.foldl (fun cache node => (cache.put node.2.key node.2.value).clearPending)
    cache.clear

end LRUCache

end SearchEngine
