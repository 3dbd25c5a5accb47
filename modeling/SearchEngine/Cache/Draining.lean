/-
This file determines when `updateP2M` does to the master what the worker's puts
would have done.

A worker queues a put only when it does not hold the key, and queues it in front.
The drain goes through the queue from its front, so the master receives the
latest put first. What it is left with are the queued puts from the first one on,
where the puts themselves would have left the latest one in front. The main
theorem states, for every master and every sequence of calls on the worker, when
these two come to the same list.
-/

import SearchEngine.Cache.History
import SearchEngine.Cache.Transfers

namespace SearchEngine

/-- The entry a call puts. -/
def Call.entry : Call → Option (Bytes × List Bytes)
  | .put key value => some (key, value)
  | .get _ => none

/-- The puts among calls, in the order in which they are made. -/
def puts (calls : List Call) : List (Bytes × List Bytes) := calls.filterMap Call.entry

namespace LRUCache

/-- The puts among calls that a cache queues, because it does not hold their keys then. -/
def queuedPuts (cache : LRUCache) : List Call → List (Bytes × List Bytes)
  | [] => []
  | .put key value :: calls =>
    if key ∈ cache.keys then queuedPuts (cache.put key value) calls
    else (key, value) :: queuedPuts (cache.put key value) calls
  | .get key :: calls => queuedPuts (cache.get key).1 calls

/-! ### The queue -/

/-- The queue after calls: the puts that are queued, the latest first. -/
theorem run_pending (cache : LRUCache) (history : List Event) (calls : List Call) :
    (cache.run history calls).1.raw.pendingUpdateList.map CacheNode.entry =
      (cache.queuedPuts calls).reverse ++ cache.raw.pendingUpdateList.map CacheNode.entry := by
  induction calls generalizing cache history with
  | nil => rfl
  | cons call calls inductionHypothesis =>
    rw [run, inductionHypothesis]
    cases call with
    | get key => rw [perform, queuedPuts, get_pending]
    | put key value =>
      rw [perform, queuedPuts]
      by_cases held : key ∈ cache.keys
      · rw [if_pos held, (put_held held value).2]
      · rw [if_neg held, put_absent held, List.reverse_cons, List.append_assoc]
        rfl

/-- What is queued was put. -/
theorem queuedPuts_sublist (cache : LRUCache) (calls : List Call) :
    (cache.queuedPuts calls).Sublist (puts calls) := by
  induction calls generalizing cache with
  | nil => exact List.Sublist.refl _
  | cons call calls inductionHypothesis =>
    cases call with
    | get key => exact inductionHypothesis (cache.get key).1
    | put key value =>
      have rest := inductionHypothesis (cache.put key value)
      rw [queuedPuts]
      split_ifs
      · exact rest.cons (key, value)
      · exact rest.cons_cons (key, value)

/-! ### The drain -/

/-- The entries of a cache after many puts. -/
theorem putAll_entries_newest (cache : LRUCache) (stored : List (Bytes × List Bytes)) :
    (cache.putAll stored).entries =
      (Recency.newest (stored.reverse ++ cache.entries)).take cache.raw.capacity := by
  rw [putAll_entries]
  exact Recency.storeAll_eq_newest cache.entries_nodup cache.length_entries stored

/-- The master's entries after the drain: the queued puts of each key, the earliest first, and
behind them what it held under other keys. -/
theorem updateP2M_entries (master : LRUCache) {worker : LRUCache}
    (drained : worker.raw.pendingUpdateList = []) (calls : List Call) :
    (master.updateP2M (worker.run [] calls).1).1.entries =
      (Recency.newest (worker.queuedPuts calls ++ master.entries)).take master.raw.capacity := by
  rw [updateP2M_fst, putAll_entries_newest, run_pending, drained, List.map_nil, List.append_nil,
    List.reverse_reverse]

/-- The drain replays the puts exactly when the latest put of every key, the latest of all first,
as far as the master has room, are in front of the queued puts, the earliest first, with the
master's other entries behind them. -/
theorem updateP2M_replays_iff (master : LRUCache) {worker : LRUCache}
    (drained : worker.raw.pendingUpdateList = []) (calls : List Call) :
    (master.updateP2M (worker.run [] calls).1).1.entries =
        (master.putAll (puts calls)).entries ↔
      (Recency.newest (puts calls).reverse).take master.raw.capacity <+:
        Recency.newest (worker.queuedPuts calls ++ master.entries) := by
  rw [updateP2M_entries master drained, putAll_entries_newest]
  refine Recency.take_newest_eq_iff fun key queued => ?_
  obtain ⟨entry, member, rfl⟩ := List.mem_map.mp queued
  exact List.mem_map_of_mem (List.mem_reverse.mpr
    ((worker.queuedPuts_sublist calls).subset member))

/-- A master that holds the key `b`, and a worker that misses the key `a`, puts it, and puts it
again with the same value. -/
def masterOther : LRUCache := (create 2).put [98] [[122]]

def putMissed : List Call :=
  [.get [97], .put [97] [[120]], .get [98], .put [97] [[120]], .get [97]]

/-- The puts of the worker are replayed on top of what the master holds. -/
theorem updateP2M_replays_one :
    (masterOther.putAll (puts putMissed)).entries = [([97], [[120]]), ([98], [[122]])] ∧
      (masterOther.updateP2M ((create 2).run [] putMissed).1).1.entries =
        (masterOther.putAll (puts putMissed)).entries := by
  refine ⟨?_, (updateP2M_replays_iff masterOther rfl putMissed).mpr ?_⟩
  · rw [putAll_entries_newest]
    decide
  · decide

/-- Puts of several new keys are never replayed: the master has room for one of them at least, and
has the first one in front instead of the last one. -/
theorem newKeys_not_replayed {master worker : LRUCache}
    (drained : worker.raw.pendingUpdateList = []) (room : 0 < master.raw.capacity)
    {calls : List Call} (queued : worker.queuedPuts calls = puts calls)
    (distinct : ((puts calls).map Prod.fst).Nodup) (several : 1 < (puts calls).length) :
    (master.updateP2M (worker.run [] calls).1).1.entries ≠
      (master.putAll (puts calls)).entries := by
  obtain ⟨count, capacity⟩ : ∃ count, master.raw.capacity = count + 1 :=
    ⟨master.raw.capacity - 1, by omega⟩
  obtain ⟨first, last, between, split⟩ : ∃ first last between,
      puts calls = first :: (between ++ [last]) := by
    obtain ⟨first, rest, split⟩ := List.exists_cons_of_length_pos (Nat.lt_of_succ_lt several)
    have nonempty : rest ≠ [] := by
      rintro rfl
      rw [split] at several
      exact absurd several (by simp)
    exact ⟨first, rest.getLast nonempty, rest.dropLast,
      by rw [split, List.dropLast_append_getLast nonempty]⟩
  intro same
  rw [updateP2M_entries master drained, putAll_entries_newest, queued, capacity, split] at same
  rw [split] at distinct
  have fronts : first = last := by
    simpa [Recency.newest] using congrArg List.head? same
  rw [fronts] at distinct
  simp at distinct

/-- A worker with room for one key puts a key, another one, and the first key again. -/
def putAgain : List Call := [.put [97] [[120]], .put [98] [[121]], .put [97] [[122]]]

/-- The master is left with the first value of the key that was put twice. -/
theorem putAgain_not_replayed :
    ((create 2).updateP2M ((create 1).run [] putAgain).1).1.entries =
        [([97], [[120]]), ([98], [[121]])] ∧
      ((create 2).putAll (puts putAgain)).entries = [([97], [[122]]), ([98], [[121]])] := by
  rw [updateP2M_entries (create 2) rfl, putAll_entries_newest]
  decide

end LRUCache

end SearchEngine
