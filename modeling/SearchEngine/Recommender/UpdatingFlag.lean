/-
This file lets the worker threads and the thread of the timer use the caches at
the same time, and asks whether the flags `_isUpdating` keep them apart.

An operation of `updateCache` on caches, and a `get` or a `put` of a worker, take
time: each has a step in which it begins and one in which it ends. A worker reads
the flag of its own cache once, and uses the cache it has chosen until its call
returns. The flags are set for a replica and for the master together. So a worker
that has chosen a cache before the flags are set is not kept out, and neither is
the worker whose second cache is a replica that is updated together with its
first one, the master. Writing the cache file sets no flags at all.
-/

import SearchEngine.Recommender.Ledger

namespace SearchEngine

open CacheManager (Replica UpdateStep)

namespace CacheManager

/-! ### The order of the statements -/

/-- The caches a statement reads or rewrites. -/
def UpdateStep.uses : UpdateStep → List (Fin 8)
  | .setFlags _ _ => []
  | .updateP2M i => [0, i]
  | .writeToFile => [0]
  | .updateM2M i => [0, i]

/-- The caches whose flags are set, in front of the statements that remain. -/
def flagged : List UpdateStep → List (Fin 8)
  | .updateP2M i :: _ => [0, i]
  | .updateM2M i :: _ => [0, i]
  | .setFlags i false :: _ => [0, i]
  | _ => []

/-- What may follow a statement. -/
def follows : UpdateStep → List UpdateStep → Bool
  | .setFlags i true, later => later.head? = some (.updateP2M i) || later.head? = some (.updateM2M i)
  | .setFlags _ false, later => match later.head? with
    | none => true
    | some .writeToFile => true
    | some (.setFlags _ flag) => flag
    | _ => false
  | .updateP2M i, later => later.head? = some (.setFlags i false)
  | .updateM2M i, later => later.head? = some (.setFlags i false)
  | .writeToFile, later => match later.head? with
    | some (.setFlags _ flag) => flag
    | _ => false

/-- Every statement is followed as it may be. -/
def ordered : List UpdateStep → Bool
  | [] => true
  | statement :: later => follows statement later && ordered later

theorem ordered_updateSteps : ordered updateSteps = true := by decide

/-- The caches an operation is announced for, or uses without announcement. -/
def engaged : List UpdateStep → Bool → List (Fin 8)
  | .updateP2M i :: _, _ => [0, i]
  | .updateM2M i :: _, _ => [0, i]
  | .writeToFile :: _, true => [0]
  | _, _ => []

/-- The caches that are read or rewritten. -/
def inUse : List UpdateStep → Bool → List (Fin 8)
  | statement :: _, true => statement.uses
  | _, _ => []

theorem inUse_subset_engaged (remaining : List UpdateStep) (active : Bool) :
    inUse remaining active ⊆ engaged remaining active := by
  cases remaining with
  | nil => exact List.nil_subset _
  | cons statement later =>
    cases active with
    | false => exact List.nil_subset _
    | true => cases statement <;> exact List.Subset.refl _

/-- Behind the statement that sets flags, the operation is announced. -/
theorem of_follows_setFlags {i : Replica} {later : List UpdateStep}
    (next : follows (.setFlags i true) later = true) :
    flagged later = [0, (i : Fin 8)] ∧ engaged later false = [0, (i : Fin 8)] := by
  cases later with
  | nil => simp [follows] at next
  | cons statement later =>
    cases statement <;> simp_all [follows, flagged, engaged]

/-- Behind the statement that clears flags, and behind the writing of the file, no flag is set. -/
theorem of_follows_clear {statement : UpdateStep} {later : List UpdateStep}
    (next : follows statement later = true)
    (clears : (∃ i, statement = .setFlags i false) ∨ statement = .writeToFile) :
    flagged later = [] ∧ engaged later false = [] := by
  cases later with
  | nil => exact ⟨rfl, rfl⟩
  | cons head later =>
    rcases clears with ⟨i, rfl⟩ | rfl
    · cases head with
      | setFlags j flag => cases flag <;> simp_all [follows, flagged, engaged]
      | updateP2M | updateM2M => simp [follows] at next
      | writeToFile => exact ⟨rfl, rfl⟩
    · cases head with
      | setFlags j flag => cases flag <;> simp_all [follows, flagged, engaged]
      | updateP2M | updateM2M | writeToFile => simp [follows] at next

/-- Behind an operation on a replica, the flags are still set. -/
theorem of_follows_operation {statement : UpdateStep} {i : Replica} {later : List UpdateStep}
    (next : follows statement later = true)
    (operation : statement = .updateP2M i ∨ statement = .updateM2M i) :
    flagged later = [0, (i : Fin 8)] ∧ engaged later false = [] := by
  have head : later.head? = some (.setFlags i false) := by
    rcases operation with rfl | rfl <;> simpa [follows] using next
  obtain ⟨rest, rfl⟩ := List.head?_eq_some_iff.mp head
  exact ⟨rfl, rfl⟩

end CacheManager

/-! ### Threads -/

namespace KeyRecommander

open CacheManager (isUpdating flagged engaged inUse follows ordered)

/-- Where a worker stands in a call of `doQuery`. -/
inductive Access where
  | idle
  | called
  | chosen (lru : Fin 8)
  | inGet (lru : Fin 8)
  | answered (lru : Fin 8) (res : List Bytes)
  | inPut (lru : Fin 8) (res : List Bytes)

/-- The cache that a call has chosen. -/
def Access.cache : Access → Option (Fin 8)
  | .chosen lru => some lru
  | .inGet lru => some lru
  | .answered lru _ => some lru
  | .inPut lru _ => some lru
  | _ => none

/-- The cache that a call is inside `get` or `put` of. -/
def Access.inside : Access → Option (Fin 8)
  | .inGet lru => some lru
  | .inPut lru _ => some lru
  | _ => none

theorem Access.cache_of_inside {access : Access} {lru : Fin 8} (member : lru ∈ access.inside) :
    lru ∈ access.cache := by
  cases access <;> first | exact member | cases member

/-- The recommender, the statements of the current `updateCache` that remain, whether the first of
them has begun, and where the four workers stand. -/
structure Threads where
  recommander : KeyRecommander
  remaining : List UpdateStep
  active : Bool
  progress : Fin 4 → Access

namespace Threads

/-- The caches. -/
abbrev caches (threads : Threads) : Caches := threads.recommander.cachemanager.caches

/-- No call is under way, and no `updateCache`. -/
def start (recommander : KeyRecommander) : Threads := ⟨recommander, [], false, fun _ => .idle⟩

/-- What happens next: a worker enters a call or takes its next step, or the thread of the timer
takes its next step. -/
inductive Move where
  | call (worker : Fin 4) (sought : Bytes)
  | next (worker : Fin 4)
  | update

/-- A worker goes on. -/
def goOn (threads : Threads) (worker : Fin 4) (access : Access) : Threads :=
  { threads with progress := Function.update threads.progress worker access }

@[simp] theorem goOn_progress (threads : Threads) (worker : Fin 4) (access : Access) :
    (threads.goOn worker access).progress worker = access := Function.update_self ..

variable (que : PriorityQueue CandidateResult.less)

/-- The next step of a worker. The flag is read and the cache is chosen in one step; the end of a
`get` that misses takes the query of the dictionary along. -/
def execute (threads : Threads) (worker : Fin 4) : Access → Threads
  | .idle => threads
  | .called => threads.goOn worker (.chosen (threads.recommander.getCache worker))
  | .chosen lru => threads.goOn worker (.inGet lru)
  | .inGet lru =>
    let (recommander, hit) := threads.recommander.get lru
    match hit with
    | some _ => { threads with recommander }.goOn worker .idle
    | none =>
      let (recommander, res) := recommander.query que
      match res with
      | .error _ => { threads with recommander }.goOn worker .idle
      | .ok res => { threads with recommander }.goOn worker (.answered lru res)
  | .answered lru res => threads.goOn worker (.inPut lru res)
  | .inPut lru res =>
    { threads with recommander := threads.recommander.put lru res }.goOn worker .idle

/-- The next step of the thread of the timer. A statement that uses caches begins, and ends. -/
def update (threads : Threads) : Threads :=
  match threads.remaining with
  | [] => { threads with remaining := CacheManager.updateSteps }
  | statement :: remaining =>
    if statement.uses ≠ [] ∧ threads.active = false then { threads with active := true }
    else { threads with
      recommander := { threads.recommander with
        cachemanager := threads.recommander.cachemanager.perform statement }
      remaining
      active := false }

/-- One step. -/
def step (threads : Threads) : Move → Threads
  | .call worker sought =>
    match threads.progress worker with
    | .idle =>
      { threads with recommander := threads.recommander.assign sought }.goOn worker .called
    | _ => threads
  | .next worker => threads.execute que worker (threads.progress worker)
  | .update => threads.update

/-! ### Exclusion -/

/-- No worker is inside `get` or `put` of a cache that `updateCache` reads or rewrites. -/
def Excluded (threads : Threads) : Prop :=
  ∀ worker, ∀ lru ∈ (threads.progress worker).inside,
    lru ∉ inUse threads.remaining threads.active

/-- The flags are set, and the cache file is written, only while no call has chosen one of the
caches that are concerned. Worker 0 reads its flag neither while cache 4 is announced or updated
nor while the cache file is written. -/
def Guarded (threads : Threads) : Move → Prop
  | .call _ _ => True
  | .next worker => worker = 0 → threads.progress worker = .called →
      4 ∉ engaged threads.remaining threads.active ∧
        ¬ (threads.remaining.head? = some .writeToFile ∧ threads.active)
  | .update => match threads.remaining with
    | .setFlags i true :: _ =>
      ∀ worker, ∀ lru ∈ (threads.progress worker).cache, lru ≠ 0 ∧ lru ≠ i
    | .writeToFile :: _ => threads.active = false →
      ∀ worker, ∀ lru ∈ (threads.progress worker).cache, lru ≠ 0
    | _ => True

instance decidableGuarded : ∀ (threads : Threads) (move : Move), Decidable (threads.Guarded move)
  | _, .call _ _ => inferInstanceAs (Decidable True)
  | threads, .next worker =>
    have : Decidable (threads.progress worker = .called) :=
      match threads.progress worker with
      | .called => isTrue rfl
      | .idle | .chosen _ | .inGet _ | .answered _ _ | .inPut _ _ => isFalse (by simp)
    inferInstanceAs (Decidable (worker = 0 → threads.progress worker = .called →
      4 ∉ engaged threads.remaining threads.active ∧
        ¬ (threads.remaining.head? = some .writeToFile ∧ threads.active)))
  | ⟨_, .setFlags i true :: _, _, progress⟩, .update =>
    inferInstanceAs (Decidable (∀ worker, ∀ lru ∈ (progress worker).cache, lru ≠ 0 ∧ lru ≠ i))
  | ⟨_, .writeToFile :: _, active, progress⟩, .update =>
    inferInstanceAs (Decidable (active = false →
      ∀ worker, ∀ lru ∈ (progress worker).cache, lru ≠ 0))
  | ⟨_, [], _, _⟩, .update | ⟨_, .setFlags _ false :: _, _, _⟩, .update
  | ⟨_, .updateP2M _ :: _, _, _⟩, .update | ⟨_, .updateM2M _ :: _, _, _⟩, .update =>
    inferInstanceAs (Decidable True)

/-- The invariant: the statements are in order, the flags are those of the statement that comes
next, and no call has chosen a cache of an operation that is announced or under way. -/
structure Separate (threads : Threads) : Prop where
  inOrder : ordered threads.remaining = true
  flags : ∀ c, isUpdating threads.caches c = decide (c ∈ flagged threads.remaining)
  apart : ∀ worker, ∀ lru ∈ (threads.progress worker).cache,
    lru ∉ engaged threads.remaining threads.active

theorem Separate.excluded {threads : Threads} (separate : Separate threads) : threads.Excluded :=
  fun worker lru member used => separate.apart worker lru (Access.cache_of_inside member)
    (CacheManager.inUse_subset_engaged _ _ used)

/-! ### Steps of the workers -/

variable {que} {threads : Threads}

theorem Separate.goOn (separate : Separate threads) {recommander : KeyRecommander}
    (same : ∀ c, isUpdating recommander.cachemanager.caches c = isUpdating threads.caches c)
    {worker : Fin 4} {access : Access}
    (apart : ∀ lru ∈ access.cache, lru ∉ engaged threads.remaining threads.active) :
    Separate ({ threads with recommander }.goOn worker access) := by
  refine ⟨separate.inOrder, fun c => (same c).trans (separate.flags c), fun other lru member => ?_⟩
  have member : lru ∈ (Function.update threads.progress worker access other).cache := member
  by_cases equal : other = worker
  · rw [equal, Function.update_self] at member
    exact apart lru member
  · rw [Function.update_of_ne equal] at member
    exact separate.apart other lru member

/-- A worker whose flag is set goes to its second cache, and that is announced only for worker 0 and
together with the master. -/
theorem getCache_notMem {recommander : KeyRecommander} {worker : Fin 4} {i : Replica}
    (flags : ∀ c, isUpdating recommander.cachemanager.caches c =
      decide (c ∈ [0, (i : Fin 8)]))
    (second : worker = 0 → (4 : Fin 8) ≠ i) :
    recommander.getCache worker ∉ [0, (i : Fin 8)] := by
  have flag := flags (worker.castLE (by decide))
  rw [isUpdating] at flag
  rw [getCache, flag]
  simp only [List.mem_cons, List.not_mem_nil, or_false, decide_eq_true_eq, not_or]
  split_ifs with set
  · refine ⟨fun same => ?_, fun same => ?_⟩
    · exact absurd (congrArg Fin.val same) (by simp)
    · rcases set with first | own
      · have zero : worker = 0 := Fin.ext (by simpa using congrArg Fin.val first)
        refine second zero ?_
        rw [← same, zero]
        rfl
      · have equal := congrArg Fin.val (own.trans same.symm)
        simp at equal
  · exact not_or.mp set

/-- The cache that a worker picks is neither announced nor in use, where worker 0 does not read its
flag at a bad moment. -/
theorem Separate.getCache (separate : Separate threads) {worker : Fin 4}
    (called : threads.progress worker = .called) (guarded : threads.Guarded (.next worker)) :
    threads.recommander.getCache worker ∉ engaged threads.remaining threads.active := by
  have flags := separate.flags
  have guard (zero : worker = 0) := guarded zero called
  cases remaining : threads.remaining with
  | nil => exact List.not_mem_nil
  | cons statement later =>
    rw [remaining] at flags guard
    cases statement with
    | setFlags i flag => exact List.not_mem_nil
    | updateP2M i | updateM2M i =>
      exact getCache_notMem flags fun zero same => (guard zero).1 (by simp [engaged, same])
    | writeToFile =>
      cases active : threads.active with
      | false => exact List.not_mem_nil
      | true =>
        have clear : (threads.caches (worker.castLE (by decide))).raw.isUpdating = false :=
          flags (worker.castLE (by decide))
        rw [KeyRecommander.getCache, clear]
        intro member
        have first := congrArg Fin.val (List.mem_singleton.mp member)
        have zero : worker = 0 := Fin.ext (by simpa using first)
        exact (guard zero).2 ⟨rfl, active⟩

theorem isUpdating_get (recommander : KeyRecommander) (lru c : Fin 8) :
    isUpdating (recommander.get lru).1.cachemanager.caches c =
      isUpdating recommander.cachemanager.caches c :=
  CacheManager.isUpdating_update (LRUCache.get_isUpdating _ _) c

theorem isUpdating_put (recommander : KeyRecommander) (lru : Fin 8) (res : List Bytes) (c : Fin 8) :
    isUpdating (recommander.put lru res).cachemanager.caches c =
      isUpdating recommander.cachemanager.caches c :=
  CacheManager.isUpdating_update (LRUCache.put_isUpdating _ _ _) c

/-- A step of a worker keeps the invariant. -/
theorem Separate.execute (separate : Separate threads) {worker : Fin 4}
    (guarded : threads.Guarded (.next worker)) :
    Separate (threads.execute que worker (threads.progress worker)) := by
  have own := separate.apart worker
  cases stands : threads.progress worker with
  | idle => exact separate
  | called =>
    refine separate.goOn (fun _ => rfl) fun lru member => ?_
    obtain rfl := Option.some.inj member
    exact separate.getCache stands guarded
  | chosen lru =>
    rw [stands] at own
    exact separate.goOn (fun _ => rfl) own
  | inGet lru =>
    rw [stands] at own
    have same := isUpdating_get threads.recommander lru
    rw [Threads.execute]
    dsimp only
    cases (threads.recommander.get lru).2 with
    | some value => exact separate.goOn same fun _ none => by cases none
    | none =>
      have sameQuery (c : Fin 8) :
          isUpdating ((threads.recommander.get lru).1.query que).1.cachemanager.caches c =
            isUpdating threads.caches c := same c
      dsimp only
      cases ((threads.recommander.get lru).1.query que).2 with
      | error fault => exact separate.goOn sameQuery fun _ none => by cases none
      | ok res => exact separate.goOn sameQuery own
  | answered lru res =>
    rw [stands] at own
    exact separate.goOn (fun _ => rfl) own
  | inPut lru res =>
    exact separate.goOn (isUpdating_put threads.recommander lru res) fun _ none => by cases none

/-! ### Steps of the thread of the timer -/

/-- An operation that ends leaves the flags as they are. -/
theorem isUpdating_perform {manager : CacheManager} {statement : UpdateStep}
    (operation : ∀ i flag, statement ≠ .setFlags i flag) (c : Fin 8) :
    isUpdating (manager.perform statement).caches c = isUpdating manager.caches c := by
  cases statement with
  | setFlags i flag => exact absurd rfl (operation i flag)
  | updateP2M i => exact CacheManager.isUpdating_drain i c
  | writeToFile => rfl
  | updateM2M i => exact CacheManager.isUpdating_copy i c

/-- An operation begins. -/
theorem Separate.begin {recommander : KeyRecommander} {statement : UpdateStep}
    {later : List UpdateStep} {progress : Fin 4 → Access}
    (separate : Separate ⟨recommander, statement :: later, false, progress⟩)
    (guarded : Guarded ⟨recommander, statement :: later, false, progress⟩ .update)
    (operation : statement.uses ≠ []) :
    Separate ⟨recommander, statement :: later, true, progress⟩ := by
  refine ⟨separate.inOrder, separate.flags, ?_⟩
  cases statement with
  | setFlags i flag => exact absurd rfl operation
  | updateP2M i | updateM2M i => exact separate.apart
  | writeToFile =>
    exact fun worker lru member used =>
      guarded rfl worker lru member (List.mem_singleton.mp used)

/-- An operation ends. -/
theorem Separate.finish {recommander : KeyRecommander} {statement : UpdateStep}
    {later : List UpdateStep} {active : Bool} {progress : Fin 4 → Access}
    (separate : Separate ⟨recommander, statement :: later, active, progress⟩)
    (operation : ∀ i flag, statement ≠ .setFlags i flag) :
    Separate ⟨{ recommander with cachemanager := recommander.cachemanager.perform statement },
      later, false, progress⟩ := by
  obtain ⟨next, inOrder⟩ := (Bool.and_eq_true _ _).mp separate.inOrder
  have flags (c : Fin 8) := (isUpdating_perform operation c).trans (separate.flags c)
  cases statement with
  | setFlags i flag => exact absurd rfl (operation i flag)
  | updateP2M i =>
    obtain ⟨set, free⟩ := CacheManager.of_follows_operation next (Or.inl rfl)
    exact ⟨inOrder, fun c => set ▸ flags c, fun _ _ _ => free ▸ List.not_mem_nil⟩
  | updateM2M i =>
    obtain ⟨set, free⟩ := CacheManager.of_follows_operation next (Or.inr rfl)
    exact ⟨inOrder, fun c => set ▸ flags c, fun _ _ _ => free ▸ List.not_mem_nil⟩
  | writeToFile =>
    obtain ⟨clear, free⟩ := CacheManager.of_follows_clear next (Or.inr rfl)
    exact ⟨inOrder, fun c => clear ▸ flags c, fun _ _ _ => free ▸ List.not_mem_nil⟩

/-- The flags are set or cleared. -/
theorem Separate.setFlags {recommander : KeyRecommander} {i : Replica} {flag : Bool}
    {later : List UpdateStep} {active : Bool} {progress : Fin 4 → Access}
    (separate : Separate ⟨recommander, .setFlags i flag :: later, active, progress⟩)
    (guarded : Guarded ⟨recommander, .setFlags i flag :: later, active, progress⟩ .update) :
    Separate ⟨{ recommander with
      cachemanager := recommander.cachemanager.perform (.setFlags i flag) },
      later, false, progress⟩ := by
  obtain ⟨next, inOrder⟩ := (Bool.and_eq_true _ _).mp separate.inOrder
  have flags (c : Fin 8) : isUpdating (recommander.cachemanager.perform (.setFlags i flag)).caches c =
      if c = 0 ∨ c = i then flag else isUpdating recommander.cachemanager.caches c :=
    CacheManager.isUpdating_setFlags i c flag
  have before := separate.flags
  cases flag with
  | true =>
    obtain ⟨set, announced⟩ := CacheManager.of_follows_setFlags next
    refine ⟨inOrder, fun c => ?_, fun worker lru member => ?_⟩
    · rw [set, flags c, before c]
      simp [flagged]
    · obtain ⟨notMaster, notReplica⟩ := guarded worker lru member
      rw [announced]
      simp [notMaster, notReplica]
  | false =>
    obtain ⟨clear, free⟩ := CacheManager.of_follows_clear next (Or.inl ⟨i, rfl⟩)
    refine ⟨inOrder, fun c => ?_, fun _ _ _ => free ▸ List.not_mem_nil⟩
    rw [clear, flags c, before c]
    simp [flagged]

/-- A step of the thread of the timer keeps the invariant. -/
theorem Separate.update (separate : Separate threads) (guarded : threads.Guarded .update) :
    Separate threads.update := by
  obtain ⟨recommander, remaining, active, progress⟩ := threads
  cases remaining with
  | nil => exact ⟨CacheManager.ordered_updateSteps, separate.flags, fun _ _ _ => List.not_mem_nil⟩
  | cons statement later =>
    rw [Threads.update]
    dsimp only
    split_ifs with begins
    · obtain ⟨operation, idle⟩ := begins
      obtain rfl := idle
      exact separate.begin guarded operation
    · cases statement with
      | setFlags i flag => exact separate.setFlags guarded
      | updateP2M i | writeToFile | updateM2M i => exact separate.finish fun _ _ same => by cases same

theorem Separate.step (separate : Separate threads) {move : Move} (guarded : threads.Guarded move) :
    Separate (threads.step que move) := by
  cases move with
  | call worker sought =>
    rw [Threads.step]
    cases threads.progress worker with
    | idle =>
      have same (c : Fin 8) : isUpdating (threads.recommander.assign sought).cachemanager.caches c =
          isUpdating threads.caches c := rfl
      exact separate.goOn same fun _ none => by cases none
    | called | chosen | inGet | answered | inPut => exact separate
  | next worker => exact separate.execute guarded
  | update => exact separate.update guarded

/-! ### What an unguarded step leads to -/

/-- A worker that has chosen a cache in use is inside it, now or after its next step. -/
theorem reaches_of_inUse {worker : Fin 4} {lru : Fin 8}
    (chosen : lru ∈ (threads.progress worker).cache)
    (used : lru ∈ inUse threads.remaining threads.active) :
    ∃ more, ¬ (Runs.after (step que) threads more).Excluded := by
  have entered (access : Access) (inside : lru ∈ access.inside)
      (next : threads.step que (.next worker) = threads.goOn worker access) :
      ¬ (Runs.after (step que) threads [.next worker]).Excluded := by
    intro excluded
    rw [Runs.after_cons, Runs.after_nil, next] at excluded
    refine excluded worker lru ?_ used
    rw [goOn_progress]
    exact inside
  have inside (already : lru ∈ (threads.progress worker).inside) :
      ¬ (Runs.after (step que) threads []).Excluded := fun excluded =>
    excluded worker lru already used
  have next : threads.step que (.next worker) =
      threads.execute que worker (threads.progress worker) := rfl
  cases stands : threads.progress worker with
  | idle | called =>
    rw [stands] at chosen
    cases chosen
  | chosen other =>
    rw [stands] at chosen next
    exact ⟨_, entered (.inGet other) chosen next⟩
  | answered other res =>
    rw [stands] at chosen next
    exact ⟨_, entered (.inPut other res) chosen next⟩
  | inGet other | inPut other res => exact ⟨_, inside (stands ▸ (stands ▸ chosen :))⟩

/-- A worker that has chosen a cache that the next statement uses may be inside it while the
statement is executed. -/
theorem reaches_of_uses {worker : Fin 4} {lru : Fin 8}
    (chosen : lru ∈ (threads.progress worker).cache) {statement : UpdateStep}
    {later : List UpdateStep} (next : threads.remaining = statement :: later)
    (used : lru ∈ statement.uses) :
    ∃ more, ¬ (Runs.after (step que) threads more).Excluded := by
  cases active : threads.active with
  | true =>
    refine reaches_of_inUse chosen ?_
    rw [next, active]
    exact used
  | false =>
    have begun : threads.step que .update = { threads with active := true } := by
      rw [step, update, next]
      exact if_pos ⟨List.ne_nil_of_mem used, active⟩
    have inUse : lru ∈ inUse (threads.step que .update).remaining
        (threads.step que .update).active := by
      rw [begun, next]
      exact used
    have stillChosen : lru ∈ ((threads.step que .update).progress worker).cache := by
      rw [begun]
      exact chosen
    obtain ⟨more, violated⟩ := reaches_of_inUse stillChosen inUse
    exact ⟨.update :: more, violated⟩

/-- Worker 0, at a bad moment, picks a cache that the next statement uses. -/
theorem Separate.picks (separate : Separate threads)
    (bad : 4 ∈ engaged threads.remaining threads.active ∨
      threads.remaining.head? = some .writeToFile ∧ threads.active) :
    ∃ statement later, threads.remaining = statement :: later ∧
      threads.recommander.getCache 0 ∈ statement.uses := by
  have own := separate.flags 0
  have picked (set : isUpdating threads.caches 0 = true) : threads.recommander.getCache 0 = 4 := by
    rw [isUpdating] at set
    rw [KeyRecommander.getCache]
    exact if_pos set
  cases remaining : threads.remaining with
  | nil => simp [remaining, engaged] at bad
  | cons statement later =>
    refine ⟨statement, later, rfl, ?_⟩
    rw [remaining] at own bad
    cases statement with
    | setFlags i flag => simp [engaged] at bad
    | updateP2M i | updateM2M i =>
      rw [picked (own.trans (by simp [flagged]))]
      simpa [engaged, UpdateStep.uses] using bad
    | writeToFile =>
      rw [isUpdating] at own
      rw [KeyRecommander.getCache]
      have clear : ¬ (threads.caches ((0 : Fin 4).castLE (by decide))).raw.isUpdating = true := by
        rw [show ((0 : Fin 4).castLE (by decide) : Fin 8) = 0 from rfl, own]
        simp [flagged]
      rw [if_neg clear]
      exact List.mem_singleton.mpr rfl

/-- From every step that is not guarded, a worker can come to be inside a cache in use. -/
theorem Separate.reaches (separate : Separate threads) {move : Move}
    (unguarded : ¬ threads.Guarded move) :
    ∃ more, ¬ (Runs.after (Threads.step que) (threads.step que move) more).Excluded := by
  cases move with
  | call worker sought => exact absurd trivial unguarded
  | next worker =>
    rw [Guarded] at unguarded
    push Not at unguarded
    obtain ⟨rfl, called, bad⟩ := unguarded
    obtain ⟨statement, later, next, used⟩ := separate.picks (by
      by_contra good
      push Not at good
      obtain ⟨head, active⟩ := bad good.1
      exact good.2 head active)
    have picks : threads.step que (.next 0) =
        threads.goOn 0 (.chosen (threads.recommander.getCache 0)) := by
      rw [Threads.step, called]
      rfl
    have chosen : threads.recommander.getCache 0 ∈
        ((threads.step que (.next 0)).progress 0).cache := by
      rw [picks, goOn_progress]
      rfl
    have remains : (threads.step que (.next 0)).remaining = statement :: later := by
      rw [picks]
      exact next
    exact reaches_of_uses chosen remains used
  | update =>
    obtain ⟨recommander, remaining, active, progress⟩ := threads
    cases remaining with
    | nil => exact absurd trivial unguarded
    | cons statement later =>
      cases statement with
      | updateP2M i | updateM2M i => exact absurd trivial unguarded
      | writeToFile =>
        have unguarded : ¬ (active = false → ∀ worker, ∀ lru ∈ (progress worker).cache, lru ≠ 0) :=
          unguarded
        push Not at unguarded
        obtain ⟨rfl, worker, lru, chosen, master⟩ := unguarded
        have begun : Threads.step que ⟨recommander, .writeToFile :: later, false, progress⟩ .update =
            ⟨recommander, .writeToFile :: later, true, progress⟩ := rfl
        rw [begun]
        exact reaches_of_uses chosen rfl (List.mem_singleton.mpr master)
      | setFlags i flag =>
        cases flag with
        | false => exact absurd trivial unguarded
        | true =>
          have unguarded : ¬ ∀ worker, ∀ lru ∈ (progress worker).cache, lru ≠ 0 ∧ lru ≠ i :=
            unguarded
          push Not at unguarded
          obtain ⟨worker, lru, chosen, concerned⟩ := unguarded
          have used : lru ∈ [0, (i : Fin 8)] := by
            by_cases master : lru = 0
            · simp [master]
            · simp [concerned master]
          obtain ⟨next, _⟩ := (Bool.and_eq_true _ _).mp separate.inOrder
          have head := (CacheManager.of_follows_setFlags next).2
          cases later with
          | nil => simp [engaged] at head
          | cons operation rest =>
            refine reaches_of_uses chosen rfl ?_
            cases operation with
            | setFlags | writeToFile => simp [engaged] at head
            | updateP2M j | updateM2M j =>
              rw [← head] at used
              exact used

/-! ### Runs -/

/-- The invariant holds at the start. -/
theorem separate_start (dic : Dictionary) (sought : Bytes) (cachelib : Bytes) :
    Separate (start ⟨dic, CacheManager.init cachelib, sought⟩) := by
  refine ⟨rfl, fun c => ?_, fun _ _ none => by cases none⟩
  show isUpdating (CacheManager.ofCapacity 10000 cachelib).caches c = false
  by_cases master : c = 0
  · rw [master, isUpdating, CacheManager.ofCapacity_master, LRUCache.putAll_isUpdating]
    rfl
  · rw [isUpdating, CacheManager.ofCapacity_replica 10000 cachelib ⟨c, master⟩]
    rfl

/-- In a run whose steps are guarded, no worker is ever inside a cache that `updateCache` reads or
rewrites; and any step that is not guarded, taken at the end of such a run, can be followed by steps
after which one is. -/
theorem excluded_of_guarded (dic : Dictionary) (sought : Bytes) (cachelib : Bytes)
    (moves : List Move)
    (guarded : Runs.Throughout (step que) Guarded
      (start ⟨dic, CacheManager.init cachelib, sought⟩) moves) :
    (∀ earlier, earlier <+: moves → (Runs.after (step que)
        (start ⟨dic, CacheManager.init cachelib, sought⟩) earlier).Excluded) ∧
      ∀ move, ¬ (Runs.after (step que)
          (start ⟨dic, CacheManager.init cachelib, sought⟩) moves).Guarded move →
        ∃ more, ¬ (Runs.after (step que)
          (start ⟨dic, CacheManager.init cachelib, sought⟩) (moves ++ move :: more)).Excluded := by
  have separate {passed : List Move} (through : Runs.Throughout (step que) Guarded
      (start ⟨dic, CacheManager.init cachelib, sought⟩) passed) :=
    Runs.after_of_throughout Separate (fun _ _ guard kept => kept.step guard)
      (separate_start dic sought cachelib) through
  refine ⟨?_, fun move unguarded => ?_⟩
  · rintro earlier ⟨later, rfl⟩
    exact (separate (Runs.throughout_append.mp guarded).1).excluded
  · obtain ⟨more, violated⟩ := (separate guarded).reaches unguarded
    refine ⟨more, ?_⟩
    rw [Runs.after, List.foldl_append]
    exact violated

/-- Worker 1 answers, is called again once the flags of its cache are set, and picks its second
cache. -/
theorem excluded_of_guarded_sample :
    let begun := start ⟨sampleRecommander.dic, CacheManager.init [], []⟩
    let moves : List Move := [.call 1 [97], .next 1, .next 1, .next 1, .next 1, .next 1, .update,
      .update, .call 1 [98], .update, .next 1, .next 1, .update, .update]
    (∀ earlier, earlier <+: moves → (Runs.after (step orderedQueue) begun earlier).Excluded) ∧
      ∀ move, ¬ (Runs.after (step orderedQueue) begun moves).Guarded move →
        ∃ more, ¬ (Runs.after (step orderedQueue) begun (moves ++ move :: more)).Excluded :=
  excluded_of_guarded sampleRecommander.dic [] [] _ (by decide)

/-- Worker 1 chooses its cache before the flags are set; worker 0 turns to cache 4 while that is
updated. -/
theorem worker_inside_updated_cache :
    let begun := start ⟨sampleRecommander.dic, CacheManager.init [], []⟩
    ¬ (Runs.after (step orderedQueue) begun
        [.call 1 [97], .next 1, .next 1, .update, .update, .update]).Excluded ∧
      ¬ (Runs.after (step orderedQueue) begun
        (List.replicate 14 .update ++ [.call 0 [97], .next 0, .next 0, .update])).Excluded :=
  ⟨fun excluded => excluded 1 1 rfl (by decide), fun excluded => excluded 0 4 rfl (by decide)⟩

end Threads

end KeyRecommander

end SearchEngine
