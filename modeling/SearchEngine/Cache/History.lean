/-
This file proves that a cache answers as its call history says.

A history is the list of the calls made on a cache, with whether a `get` hit,
the latest call first. It alone determines which keys are held, in which order
and with which values: the keys are the window of the touched keys at the
cache's capacity, and each value is the one of the latest `put` of its key. The
relation `Tracks` says so; every call preserves it, hits, misses, overwrites,
insertions and evictions alike.
-/

import SearchEngine.Cache.LRUCache

namespace SearchEngine

/-! ### Calls and what they did -/

/-- A call on a cache. -/
inductive Call where
  | put (key : Bytes) (value : List Bytes)
  | get (key : Bytes)

/-- What a call did. -/
inductive Event where
  | put (key : Bytes) (value : List Bytes)
  | hit (key : Bytes)
  | miss (key : Bytes)

/-- The key an event touches: a `put` touches its key, a `get` only when it hits. -/
def Event.touched : Event → Option Bytes
  | .put key _ => some key
  | .hit key => some key
  | .miss _ => none

/-- The value an event puts under a key. -/
def Event.puts (key : Bytes) : Event → Option (List Bytes)
  | .put other value => if other = key then some value else none
  | _ => none

/-- The keys a history touches, the latest touch first. -/
def touches (history : List Event) : List Bytes := history.filterMap Event.touched

/-- The value of the latest `put` of a key. -/
def lastPut (key : Bytes) (history : List Event) : Option (List Bytes) :=
  history.findSome? (Event.puts key)

namespace LRUCache

/-- Perform one call. -/
def perform (cache : LRUCache) : Call → LRUCache × Event
  | .put key value => (cache.put key value, .put key value)
  | .get key => ((cache.get key).1, if (cache.get key).2.isSome then .hit key else .miss key)

/-- Perform calls in order; the history grows at the front. -/
def run (cache : LRUCache) (history : List Event) : List Call → LRUCache × List Event
  | [] => (cache, history)
  | call :: calls => run (cache.perform call).1 ((cache.perform call).2 :: history) calls

/-! ### A cache is determined by its history -/

/-- The cache holds what its history says. -/
structure Tracks (cache : LRUCache) (history : List Event) : Prop where
  order : cache.entries.map Prod.fst = Recency.window cache.raw.capacity (touches history)
  values : ∀ entry ∈ cache.entries, lastPut entry.1 history = some entry.2
  put_of_touched : ∀ key ∈ touches history, ∃ value, Event.put key value ∈ history

theorem tracks_create (capacity : Nat) : Tracks (create capacity) [] where
  order := by simp [touches, Recency.window, Recency.recent]
  values := fun entry member => by simp at member
  put_of_touched := fun key member => by simp [touches] at member

variable {cache : LRUCache} {history : List Event}

theorem exists_put_of_lastPut {key : Bytes} {value : List Bytes}
    (latest : lastPut key history = some value) : Event.put key value ∈ history := by
  obtain ⟨event, member, puts⟩ := List.exists_of_findSome?_eq_some latest
  cases event with
  | put other stored =>
    by_cases same : other = key
    · rw [Event.puts, if_pos same] at puts
      rw [← Option.some.inj puts, ← same]
      exact member
    · rw [Event.puts, if_neg same] at puts
      cases puts
  | hit other => cases puts
  | miss other => cases puts

theorem Tracks.put (tracks : Tracks cache history) (key : Bytes) (value : List Bytes) :
    Tracks (cache.put key value) (.put key value :: history) where
  order := by
    rw [put_entries, put_capacity, Recency.map_fst_store, tracks.order, Recency.take_touch_window]
    rfl
  values := fun entry member => by
    rw [put_entries] at member
    rw [lastPut, List.findSome?_cons, Event.puts]
    rcases Recency.mem_of_mem_store member with same | ⟨kept, different⟩
    · rw [same, if_pos rfl]
    · rw [if_neg (Ne.symm different)]
      exact tracks.values entry kept
  put_of_touched := fun other member => by
    rcases List.mem_cons.mp member with same | earlier
    · exact ⟨value, same ▸ List.mem_cons_self⟩
    · obtain ⟨stored, listed⟩ := tracks.put_of_touched other earlier
      exact ⟨stored, List.mem_cons_of_mem _ listed⟩

theorem Tracks.hit (tracks : Tracks cache history) {key : Bytes}
    (held : key ∈ cache.entries.map Prod.fst) :
    Tracks (cache.get key).1 (.hit key :: history) where
  order := by
    rw [get_entries, get_capacity, Recency.map_fst_find_of_mem held, tracks.order]
    rw [tracks.order] at held
    exact Recency.touch_window_of_mem held
  values := fun entry member => by
    rw [get_entries] at member
    exact tracks.values entry (Recency.mem_of_mem_find member)
  put_of_touched := fun other member => by
    rcases List.mem_cons.mp member with same | earlier
    · obtain ⟨entry, listed, sameKey⟩ := List.mem_map.mp held
      rw [same, ← sameKey]
      exact ⟨entry.2, List.mem_cons_of_mem _
        (exists_put_of_lastPut (tracks.values entry listed))⟩
    · obtain ⟨stored, listed⟩ := tracks.put_of_touched other earlier
      exact ⟨stored, List.mem_cons_of_mem _ listed⟩

theorem Tracks.miss (tracks : Tracks cache history) (key : Bytes) :
    Tracks cache (.miss key :: history) where
  order := tracks.order
  values := tracks.values
  put_of_touched := fun other member => by
    obtain ⟨stored, listed⟩ := tracks.put_of_touched other member
    exact ⟨stored, List.mem_cons_of_mem _ listed⟩

theorem get_isSome_iff (cache : LRUCache) (key : Bytes) :
    (cache.get key).2.isSome ↔ key ∈ cache.entries.map Prod.fst := by
  by_cases held : key ∈ cache.entries.map Prod.fst
  · obtain ⟨value, _, found⟩ := Recency.find_of_mem held
    simp [held, found]
  · simp [held, Recency.find_of_notMem held]

/-- Every call keeps the cache on its history. -/
theorem Tracks.perform (tracks : Tracks cache history) (call : Call) :
    Tracks (cache.perform call).1 ((cache.perform call).2 :: history) := by
  cases call with
  | put key value => exact tracks.put key value
  | get key =>
    show Tracks (cache.get key).1
      ((if (cache.get key).2.isSome then Event.hit key else Event.miss key) :: history)
    by_cases found : (cache.get key).2.isSome
    · rw [if_pos found]
      exact tracks.hit ((get_isSome_iff cache key).mp found)
    · rw [if_neg found, get_of_miss cache key (Option.not_isSome_iff_eq_none.mp found)]
      exact tracks.miss key

theorem Tracks.run (tracks : Tracks cache history) (calls : List Call) :
    Tracks (cache.run history calls).1 (cache.run history calls).2 := by
  induction calls generalizing cache history with
  | nil => exact tracks
  | cons call calls inductionHypothesis => exact inductionHypothesis (tracks.perform call)

theorem run_capacity (cache : LRUCache) (history : List Event) (calls : List Call) :
    (cache.run history calls).1.raw.capacity = cache.raw.capacity := by
  induction calls generalizing cache history with
  | nil => rfl
  | cons call calls inductionHypothesis =>
    rw [LRUCache.run, inductionHypothesis]
    cases call with
    | put key value => exact put_capacity cache key value
    | get key => exact get_capacity cache key

/-- After any calls on an empty cache, a `get` hits exactly when its key was put and fewer
than `capacity` other keys were touched since the key was last touched. A hit returns the
value of the latest `put`, and a miss leaves the cache as it was. -/
theorem get_after_run (capacity : Nat) (calls : List Call) (key : Bytes) :
    let state := (create capacity).run [] calls
    ((state.1.get key).2.isSome ↔
        (∃ value, Event.put key value ∈ state.2) ∧
          (Recency.since key (touches state.2)).toFinset.card < capacity) ∧
      (∀ value, (state.1.get key).2 = some value → lastPut key state.2 = some value) ∧
      ((state.1.get key).2 = none → (state.1.get key).1 = state.1) := by
  intro state
  have tracks : Tracks state.1 state.2 := (tracks_create capacity).run calls
  have sameCapacity : state.1.raw.capacity = capacity := run_capacity _ _ calls
  refine ⟨?_, ?_, get_of_miss state.1 key⟩
  · rw [get_isSome_iff, tracks.order, Recency.mem_window, sameCapacity]
    refine and_congr_left fun _ => ⟨tracks.put_of_touched key, ?_⟩
    rintro ⟨value, listed⟩
    exact List.mem_filterMap.mpr ⟨_, listed, rfl⟩
  · intro value returned
    have held := (get_isSome_iff state.1 key).mp (by rw [returned]; rfl)
    obtain ⟨stored, listed, found⟩ := Recency.find_of_mem held
    rw [get_value, found] at returned
    rw [← Option.some.inj returned]
    exact tracks.values _ listed

end LRUCache

end SearchEngine
