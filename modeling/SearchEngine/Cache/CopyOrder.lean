/-
This file determines when a copy of a cache keeps the recency order.

`updateM2M` and `readFromFile` put the entries of a cache one after the other, from
the most recently used one on, and every `put` makes its entry the most recently
used one. So a copy lists the keys in reverse order: the same map, and the same
order only where there is at most one entry. The key that the copy evicts next is
the most recently used key of the original.
-/

import SearchEngine.Cache.CacheFile
import SearchEngine.Cache.History

namespace SearchEngine

namespace LRUCache

/-- The copy lists the keys in the order of the source, and a `put` leaves it with the keys it
leaves the source with, so the next eviction removes the same key. -/
structure OrderKept (copy source : LRUCache) : Prop where
  keys : copy.keys = source.keys
  next : ∀ key value, (copy.put key value).keys = (source.put key value).keys

variable {copy source : LRUCache}

theorem keys_put (cache : LRUCache) (key : Bytes) (value : List Bytes) :
    (cache.put key value).keys = (Recency.touch key cache.keys).take cache.raw.capacity := by
  rw [keys, put_entries, Recency.map_fst_store]
  rfl

/-- A copy with the keys in reverse order keeps the order exactly when there is at most one. -/
theorem orderKept_iff (capacity : copy.raw.capacity = source.raw.capacity)
    (reversed : copy.keys = source.keys.reverse) :
    OrderKept copy source ↔ source.entries.length ≤ 1 := by
  have order : copy.keys = source.keys ↔ source.entries.length ≤ 1 := by
    rw [reversed, keys, Recency.reverse_eq_self_iff source.entries_nodup, List.length_map]
  constructor
  · intro kept
    exact order.mp kept.keys
  · intro few
    have same := order.mpr few
    refine ⟨same, fun key value => ?_⟩
    rw [keys_put, keys_put, same, capacity]

/-- A full cache that is given a new key evicts the least recently used one. -/
theorem keys_put_of_full {cache : LRUCache} (full : cache.entries.length = cache.raw.capacity)
    {key : Bytes} (new : key ∉ cache.keys) (room : 0 < cache.raw.capacity) (value : List Bytes) :
    (cache.put key value).keys = key :: cache.keys.dropLast := by
  have others : cache.keys.filter (· ≠ key) = cache.keys :=
    List.filter_eq_self.mpr fun other member => by
      simpa using fun same : other = key => new (same ▸ member)
  obtain ⟨count, capacity⟩ : ∃ count, cache.raw.capacity = count + 1 :=
    ⟨cache.raw.capacity - 1, by omega⟩
  have length : cache.keys.length - 1 = count := by
    rw [keys, List.length_map, full, capacity, Nat.add_sub_cancel]
  rw [keys_put, Recency.touch, others, capacity, List.take_succ_cons, List.dropLast_eq_take,
    length]

/-- A copy with the keys in reverse order that is full evicts the most recently used key of the
source. -/
theorem keys_put_of_reversed (capacity : copy.raw.capacity = source.raw.capacity)
    (reversed : copy.keys = source.keys.reverse)
    (full : source.entries.length = source.raw.capacity) {key : Bytes} (new : key ∉ source.keys)
    (room : 0 < source.raw.capacity) (value : List Bytes) :
    (copy.put key value).keys = key :: source.keys.tail.reverse := by
  have length : copy.entries.length = source.entries.length := by
    have same := congrArg List.length reversed
    rwa [List.length_reverse, keys, keys, List.length_map, List.length_map] at same
  have absent : key ∉ copy.keys := by
    rw [reversed, List.mem_reverse]
    exact new
  rw [keys_put_of_full (by rw [length, full, capacity]) absent (by rw [capacity]; exact room),
    reversed, List.dropLast_reverse]

/-! ### The two copies -/

theorem keys_updateM2M (replica : LRUCache) (fits : source.raw.capacity ≤ replica.raw.capacity) :
    (replica.updateM2M source).keys = source.keys.reverse := by
  rw [keys, updateM2M_entries replica source fits, List.map_reverse]
  rfl

theorem capacity_readBack (cache : LRUCache) :
    cache.readBack.raw.capacity = cache.raw.capacity := by
  rw [readBack, readFromFile_eq, putAll_capacity]
  rfl

theorem keys_readBack (keys : ∀ entry ∈ source.entries, newline ∉ entry.1)
    (words : ∀ entry ∈ source.entries, ∀ word ∈ entry.2, space ∉ word ∧ newline ∉ word)
    (clean : ∀ entry ∈ source.entries, colon ∉ entry.1) :
    source.readBack.keys = source.keys.reverse := by
  rw [LRUCache.keys, readBack_entries keys words clean, List.map_reverse, List.map_map]
  rfl

/-- The entries can be written to a file and read from it. -/
structure Writable (cache : LRUCache) : Prop where
  keys : ∀ entry ∈ cache.entries, colon ∉ entry.1 ∧ newline ∉ entry.1
  words : ∀ entry ∈ cache.entries, ∀ word ∈ entry.2, colon ∉ word ∧ space ∉ word ∧ newline ∉ word

/-- A replica of the same capacity, and a cache that is read back from the file, keep the order of a
cache exactly when it has at most one entry. -/
theorem copies_orderKept_iff (source : LRUCache) {replica : LRUCache}
    (capacity : replica.raw.capacity = source.raw.capacity) :
    (OrderKept (replica.updateM2M source) source ↔ source.entries.length ≤ 1) ∧
      (Writable source →
        (OrderKept ((create source.raw.capacity).readFromFile source.writeToFile) source ↔
          source.entries.length ≤ 1)) := by
  constructor
  · refine orderKept_iff ?_ (keys_updateM2M replica (le_of_eq capacity.symm))
    rw [updateM2M_capacity, capacity]
  · intro writable
    refine orderKept_iff source.capacity_readBack (keys_readBack ?_ ?_ ?_)
    · exact fun entry held => (writable.keys entry held).2
    · exact fun entry held word listed => (writable.words entry held word listed).2
    · exact fun entry held => (writable.keys entry held).1

/-- A cache with one entry. -/
theorem copies_orderKept_one :
    (OrderKept ((create 2).updateM2M ((create 2).put [97] [[97]])) ((create 2).put [97] [[97]]) ↔
        ((create 2).put [97] [[97]]).entries.length ≤ 1) ∧
      (Writable ((create 2).put [97] [[97]]) →
        (OrderKept ((create 2).readFromFile ((create 2).put [97] [[97]]).writeToFile)
            ((create 2).put [97] [[97]]) ↔
          ((create 2).put [97] [[97]]).entries.length ≤ 1)) :=
  copies_orderKept_iff ((create 2).put [97] [[97]]) rfl

/-- A cache with room for two keys that was given `a` and then `b`. -/
def twoKeys : LRUCache := ((create 2).run [] [.put [97] [[97]], .put [98] [[98]]]).1

/-- Both copies list `a` in front of `b`, and a third key evicts `b` from them instead of `a`. -/
theorem twoKeys_not_orderKept :
    Writable twoKeys ∧ ¬ OrderKept ((create 2).updateM2M twoKeys) twoKeys ∧
      ¬ OrderKept ((create 2).readFromFile twoKeys.writeToFile) twoKeys ∧
      (twoKeys.put [99] []).keys = [[99], [98]] ∧
      (((create 2).updateM2M twoKeys).put [99] []).keys = [[99], [97]] ∧
      (((create 2).readFromFile twoKeys.writeToFile).put [99] []).keys = [[99], [97]] := by
  have writable : Writable twoKeys := ⟨by decide, by decide⟩
  refine ⟨writable, fun kept => ?_, fun kept => ?_, by decide, by decide, by decide⟩
  · exact absurd kept.keys (by decide)
  · exact absurd kept.keys (by decide)

end LRUCache

end SearchEngine
