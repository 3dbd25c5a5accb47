/-
This file models `KeyRecommander`, and proves that the caches in front of the
dictionary are transparent.

`KeyRecommander::doQuery` is four statements on the members of one object: the
assignment of `_sought`, the lookup in a cache, the query of the dictionary, and
the insertion into the cache. The caches that are looked up are those that
`CacheManager::updateCache` moves entries between. A run is any order of queries,
of updates, and of changes of the flags that decide which cache of a worker is
used. The invariant of a run is that every key is stored with the list the
dictionary gives for it, and that the dictionary reads as it was loaded.
-/

import SearchEngine.Cache.CacheManager
import SearchEngine.Recommender.Lookups

namespace SearchEngine

/-- `KeyRecommander`, with the objects it refers to. -/
structure KeyRecommander where
  dic : Dictionary
  cachemanager : CacheManager
  sought : Bytes

namespace KeyRecommander

/-! ### The statements of `doQuery` -/

/-- `_sought = sought;` -/
def assign (recommander : KeyRecommander) (sought : Bytes) : KeyRecommander :=
  { recommander with sought }

/-- `_cachemanager.getCache(idx + (flag ? 4 : 0))`, with the flag of the cache `idx`. -/
def getCache (recommander : KeyRecommander) (idx : Fin 4) : Fin 8 :=
  let flag := (recommander.cachemanager.caches (idx.castLE (by decide))).raw.isUpdating
  if flag then idx.addNat 4 else idx.castLE (by decide)

/-- Replace one cache. -/
def setCache (recommander : KeyRecommander) (lru : Fin 8) (cache : LRUCache) : KeyRecommander :=
  { recommander with
    cachemanager := { recommander.cachemanager with
      caches := Function.update recommander.cachemanager.caches lru cache } }

/-- `lru.get(_sought, res)` -/
def get (recommander : KeyRecommander) (lru : Fin 8) : KeyRecommander × Option (List Bytes) :=
  let (cache, res) := (recommander.cachemanager.caches lru).get recommander.sought
  (recommander.setCache lru cache, res)

/-- `lru.put(_sought, res);` -/
def put (recommander : KeyRecommander) (lru : Fin 8) (res : List Bytes) : KeyRecommander :=
  recommander.setCache lru ((recommander.cachemanager.caches lru).put recommander.sought res)

section Queue

variable (que : PriorityQueue CandidateResult.less)

/-- `res = _dic.doQuery(_sought);` -/
def query (recommander : KeyRecommander) : KeyRecommander × Except Fault (List Bytes) :=
  let (dic, res) := recommander.dic.doQuery que recommander.sought
  ({ recommander with dic }, res)

/-- `KeyRecommander::doQuery`; an exception leaves `res` undetermined. -/
def doQuery (recommander : KeyRecommander) (sought : Bytes) (idx : Fin 4) :
    KeyRecommander × Except Fault (List Bytes) :=
  let recommander := recommander.assign sought
  let lru := recommander.getCache idx
  let (recommander, hit) := recommander.get lru
  match hit with
  | some res => (recommander, .ok res)
  | none =>
    let (recommander, res) := recommander.query que
    match res with
    | .error fault => (recommander, .error fault)
    | .ok res => (recommander.put lru res, .ok res)

/-! ### The invariant -/

/-- The recommendation list of a string: what the dictionary as it was loaded gives for it. -/
def recommended (loaded : Dictionary) (sought : Bytes) : Except Fault (List Bytes) :=
  (loaded.doQuery que sought).2

/-- Every key is stored with its recommendation list, and the dictionary reads as it was loaded. -/
structure Consistent (loaded : Dictionary) (recommander : KeyRecommander) : Prop where
  dic : recommander.dic.ReadsAs loaded
  caches : CacheManager.Holds (fun key value => recommended que loaded key = .ok value)
    recommander.cachemanager.caches

variable {que} {loaded : Dictionary} {recommander : KeyRecommander}

theorem Consistent.assign (consistent : Consistent que loaded recommander) (sought : Bytes) :
    Consistent que loaded (recommander.assign sought) := ⟨consistent.dic, consistent.caches⟩

/-- A lookup keeps the invariant, and a hit is the recommendation list of `_sought`. -/
theorem Consistent.get (consistent : Consistent que loaded recommander) (lru : Fin 8) :
    Consistent que loaded (recommander.get lru).1 ∧
      ∀ res, (recommander.get lru).2 = some res →
        recommended que loaded recommander.sought = .ok res :=
  ⟨⟨consistent.dic, consistent.caches.update ((consistent.caches lru).get recommander.sought) lru⟩,
    fun _ hit => (consistent.caches lru).get_value hit⟩

/-- A query of the dictionary keeps the invariant and gives the recommendation list of
`_sought`. -/
theorem Consistent.query (consistent : Consistent que loaded recommander) :
    Consistent que loaded (recommander.query que).1 ∧
      (recommander.query que).2 = recommended que loaded recommander.sought :=
  ⟨⟨(Dictionary.doQuery_readsAs que recommander.dic recommander.sought).trans consistent.dic,
      consistent.caches⟩, Dictionary.doQuery_congr que consistent.dic recommander.sought⟩

theorem Consistent.put (consistent : Consistent que loaded recommander) (lru : Fin 8)
    {res : List Bytes} (correct : recommended que loaded recommander.sought = .ok res) :
    Consistent que loaded (recommander.put lru res) :=
  ⟨consistent.dic, consistent.caches.update ((consistent.caches lru).put correct) lru⟩

@[simp] theorem sought_assign (recommander : KeyRecommander) (sought : Bytes) :
    (recommander.assign sought).sought = sought := rfl

@[simp] theorem sought_get (recommander : KeyRecommander) (lru : Fin 8) :
    (recommander.get lru).1.sought = recommander.sought := rfl

@[simp] theorem sought_query (recommander : KeyRecommander) :
    (recommander.query que).1.sought = recommander.sought := rfl

@[simp] theorem sought_put (recommander : KeyRecommander) (lru : Fin 8) (res : List Bytes) :
    (recommander.put lru res).sought = recommander.sought := rfl

/-- A call that is not interrupted answers with the recommendation list of its string. -/
theorem Consistent.doQuery (consistent : Consistent que loaded recommander) (sought : Bytes)
    (idx : Fin 4) : Consistent que loaded (recommander.doQuery que sought idx).1 ∧
      (recommander.doQuery que sought idx).2 = recommended que loaded sought := by
  obtain ⟨afterGet, hits⟩ :=
    (consistent.assign sought).get ((recommander.assign sought).getCache idx)
  obtain ⟨afterQuery, answers⟩ := afterGet.query
  rw [sought_get, sought_assign] at answers
  rw [KeyRecommander.doQuery]
  dsimp only
  cases hit : ((recommander.assign sought).get ((recommander.assign sought).getCache idx)).2 with
  | some res => exact ⟨afterGet, (hits res hit).symm⟩
  | none =>
    dsimp only
    cases answer : (((recommander.assign sought).get
      ((recommander.assign sought).getCache idx)).1.query que).2 with
    | error fault => exact ⟨afterQuery, answer.symm.trans answers⟩
    | ok res =>
      have correct := answers.symm.trans answer
      exact ⟨afterQuery.put _ correct, correct.symm⟩

end Queue

/-! ### Runs of whole calls -/

/-- A step of a run. -/
inductive Event where
  | doQuery (sought : Bytes) (idx : Fin 4)
  | updateCache
  | setUpdating (cache : Fin 8) (flag : Bool)

/-- A recommender with the responses it has given, each with the string it was asked for. -/
structure Session where
  recommander : KeyRecommander
  responses : List (Bytes × Except Fault (List Bytes))

variable (que : PriorityQueue CandidateResult.less)

/-- One step of a run. -/
def Session.step (session : Session) : Event → Session
  | .doQuery sought idx =>
    let (recommander, res) := session.recommander.doQuery que sought idx
    ⟨recommander, session.responses ++ [(sought, res)]⟩
  | .updateCache =>
    let recommander := session.recommander
    { session with
      recommander := { recommander with cachemanager := recommander.cachemanager.updateCache } }
  | .setUpdating cache flag =>
    let recommander := session.recommander
    { session with
      recommander := recommander.setCache cache
        ((recommander.cachemanager.caches cache).setUpdating flag) }

/-- The recommender is consistent, and every response was the recommendation list of its string. -/
structure Session.Correct (loaded : Dictionary) (session : Session) : Prop where
  consistent : Consistent que loaded session.recommander
  responses : ∀ response ∈ session.responses, response.2 = recommended que loaded response.1

theorem Session.Correct.step {que : PriorityQueue CandidateResult.less} {loaded : Dictionary}
    {session : Session} (correct : session.Correct que loaded) (event : Event) :
    (session.step que event).Correct que loaded := by
  obtain ⟨consistent, responses⟩ := correct
  cases event with
  | doQuery sought idx =>
    obtain ⟨kept, answer⟩ := consistent.doQuery sought idx
    refine ⟨kept, fun response member => ?_⟩
    rcases List.mem_append.mp member with earlier | last
    · exact responses response earlier
    · obtain rfl := List.mem_singleton.mp last
      exact answer
  | updateCache => exact ⟨⟨consistent.dic, consistent.caches.updateCache⟩, responses⟩
  | setUpdating cache flag =>
    exact ⟨⟨consistent.dic,
      consistent.caches.update ((consistent.caches cache).setUpdating flag) cache⟩, responses⟩

/-- From caches that hold recommendation lists only, every response of every run is the
recommendation list of its string, whatever is inserted into the index, evicted, cleared or
copied on the way. -/
theorem responses_transparent (recommander : KeyRecommander)
    (stored : CacheManager.Holds
      (fun key value => (recommander.dic.doQuery que key).2 = .ok value)
      recommander.cachemanager.caches)
    (events : List Event) :
    ∀ response ∈ (Runs.after (Session.step que) ⟨recommander, []⟩ events).responses,
      response.2 = (recommander.dic.doQuery que response.1).2 := by
  have start : Session.Correct que recommander.dic ⟨recommander, []⟩ :=
    ⟨⟨Dictionary.ReadsAs.refl _, stored⟩, fun response member => absurd member List.not_mem_nil⟩
  exact (Runs.after_of_kept (Session.Correct que recommander.dic)
    (fun session event correct => correct.step event) start events).responses

/-- A dictionary of the words `a` and `b`, behind caches whose file has the entry of `a`. -/
def sampleRecommander : KeyRecommander where
  dic := ⟨[([97], 1), ([98], 1)], AList.insert [98] [1] (AList.insert [97] [0] ∅)⟩
  cachemanager := CacheManager.init (ascii "a:a \n")
  sought := []

theorem holds_sampleRecommander :
    CacheManager.Holds
      (fun key value => (sampleRecommander.dic.doQuery orderedQueue key).2 = .ok value)
      sampleRecommander.cachemanager.caches := by
  refine CacheManager.holds_init ?_
  have read : (LRUCache.create 10000).readFromFile (ascii "a:a \n") =
      (LRUCache.create 10000).put [97] [[97]] := by rfl
  rw [read]
  exact (LRUCache.holds_create 10000).put (by decide)

theorem responses_transparent_sample :
    let ended := Runs.after (Session.step orderedQueue) ⟨sampleRecommander, []⟩
      [.doQuery [97] 0, .doQuery [98] 1, .updateCache, .setUpdating 2 true, .doQuery [98] 2,
        .doQuery [99] 3]
    ended.responses.length = 4 ∧ ∀ response ∈ ended.responses,
      response.2 = (sampleRecommander.dic.doQuery orderedQueue response.1).2 :=
  ⟨by decide, responses_transparent orderedQueue sampleRecommander holds_sampleRecommander _⟩

end KeyRecommander

end SearchEngine
