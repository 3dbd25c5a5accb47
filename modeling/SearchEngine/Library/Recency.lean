/-
This file develops the least-recently-used discipline over arbitrary keys and values.

A history is a list of touched keys, the latest touch first. `recent` keeps one
occurrence of every key, at its latest touch, and `window` its first `capacity`
keys. The content here is that moving a touched key to the front of the window
and dropping what falls off its end is the same as recomputing the window from
the longer history, and that a key is in the window exactly when it was touched
and fewer than `capacity` other keys were touched after it. `find` and `store`
are the two operations of a bounded recency list of key-value pairs. Storing many
pairs keeps the newest pair of every key, the newest first, and cuts the list to
the capacity once.
-/

import Mathlib

namespace Recency

variable {Key Value : Type*} [DecidableEq Key]

/-! ### Histories of touched keys -/

/-- Move a key to the front, or add it there. -/
def touch (key : Key) (keys : List Key) : List Key :=
  key :: keys.filter (· ≠ key)

/-- The distinct keys of a history, each at its latest touch. -/
def recent : List Key → List Key
  | [] => []
  | key :: earlier => touch key (recent earlier)

/-- The keys touched after the latest touch of `key`. -/
def since (key : Key) (history : List Key) : List Key :=
  history.takeWhile (· ≠ key)

/-- The keys that a recency list of the given capacity holds after a history. -/
def window (capacity : Nat) (history : List Key) : List Key :=
  (recent history).take capacity

@[simp] theorem mem_touch {key other : Key} {keys : List Key} :
    other ∈ touch key keys ↔ other = key ∨ other ∈ keys := by
  by_cases same : other = key <;> simp [touch, same]

theorem nodup_touch {keys : List Key} (nodup : keys.Nodup) (key : Key) :
    (touch key keys).Nodup := by
  refine List.nodup_cons.mpr ⟨?_, nodup.filter _⟩
  simp

@[simp] theorem mem_recent {key : Key} {history : List Key} :
    key ∈ recent history ↔ key ∈ history := by
  induction history with
  | nil => simp [recent]
  | cons head earlier inductionHypothesis =>
    rw [recent, mem_touch, inductionHypothesis, List.mem_cons]

theorem nodup_recent (history : List Key) : (recent history).Nodup := by
  induction history with
  | nil => exact List.nodup_nil
  | cons head earlier inductionHypothesis => exact nodup_touch inductionHypothesis head

/-- Cutting a list before a key commutes with removing another key. -/
theorem since_filter {key other : Key} (different : other ≠ key) (keys : List Key) :
    since key (keys.filter (· ≠ other)) = (since key keys).filter (· ≠ other) := by
  induction keys with
  | nil => rfl
  | cons head rest inductionHypothesis =>
    simp only [since, ne_eq, decide_not] at inductionHypothesis ⊢
    by_cases isOther : head = other
    · simp [isOther, different, inductionHypothesis]
    · by_cases isKey : head = key <;> simp [isOther, isKey, Ne.symm different, inductionHypothesis]

/-- The keys in front of `key` are the keys touched after it. -/
theorem mem_since_recent {key other : Key} (history : List Key) :
    other ∈ since key (recent history) ↔ other ∈ since key history := by
  induction history with
  | nil => simp [recent]
  | cons head earlier inductionHypothesis =>
    by_cases same : head = key
    · simp [since, recent, touch, same]
    · have front : since key (recent (head :: earlier)) =
          head :: (since key (recent earlier)).filter (· ≠ head) := by
        rw [recent, touch, ← since_filter same]
        simp [since, same]
      have back : since key (head :: earlier) = head :: since key earlier := by
        simp [since, same]
      rw [front, back, List.mem_cons, List.mem_cons, List.mem_filter, inductionHypothesis]
      by_cases isHead : other = head <;> simp [isHead]

/-- A touched key stands behind as many keys as were touched after it. -/
theorem idxOf_recent {key : Key} {history : List Key} (touched : key ∈ history) :
    (recent history).idxOf key = (since key history).toFinset.card := by
  have nodup : (since key (recent history)).Nodup :=
    (nodup_recent history).sublist (List.takeWhile_sublist _)
  have same : (since key history).toFinset = (since key (recent history)).toFinset := by
    ext other
    rw [List.mem_toFinset, List.mem_toFinset, mem_since_recent]
  have position : ∀ keys : List Key, key ∈ keys → keys.idxOf key = (since key keys).length := by
    intro keys
    induction keys with
    | nil => simp
    | cons head rest inductionHypothesis =>
      intro member
      by_cases isKey : head = key
      · simp [since, isKey]
      · have inRest : key ∈ rest := (List.mem_cons.mp member).resolve_left (Ne.symm isKey)
        have tail := inductionHypothesis inRest
        unfold since at tail ⊢
        simp [List.idxOf_cons_ne _ isKey, isKey, tail]
  rw [same, List.toFinset_card_of_nodup nodup]
  exact position _ (mem_recent.mpr touched)

/-- A key is held exactly when it was touched and fewer than `capacity` other keys were
touched after it. -/
theorem mem_window {capacity : Nat} {key : Key} {history : List Key} :
    key ∈ window capacity history ↔
      key ∈ history ∧ (since key history).toFinset.card < capacity := by
  constructor
  · intro held
    have touched : key ∈ history := mem_recent.mp (List.mem_of_mem_take held)
    refine ⟨touched, ?_⟩
    rw [← idxOf_recent touched]
    exact (List.mem_take_iff_idxOf_lt (mem_recent.mpr touched)).mp held
  · rintro ⟨touched, few⟩
    rw [← idxOf_recent touched] at few
    exact (List.mem_take_iff_idxOf_lt (mem_recent.mpr touched)).mpr few

/-- Removing a held key from the first `count + 1` keys leaves the first `count` of the
others. -/
theorem filter_take_of_mem {key : Key} {keys : List Key} (nodup : keys.Nodup) (count : Nat)
    (held : key ∈ keys.take (count + 1)) :
    (keys.take (count + 1)).filter (· ≠ key) = (keys.filter (· ≠ key)).take count := by
  induction keys generalizing count with
  | nil => simp at held
  | cons head rest inductionHypothesis =>
    obtain ⟨headFresh, restNodup⟩ := List.nodup_cons.mp nodup
    by_cases same : head = key
    · subst same
      have untouched : ∀ others : List Key, head ∉ others → others.filter (· ≠ head) = others := by
        intro others absent
        refine List.filter_eq_self.mpr fun other member => ?_
        simpa using fun equal : other = head => absent (equal ▸ member)
      have shorter : head ∉ rest.take count := fun member => headFresh (List.mem_of_mem_take member)
      simp only [List.take_succ_cons, ne_eq, decide_not, List.filter_cons, decide_true,
        Bool.not_true, Bool.false_eq_true, if_false] at *
      rw [untouched _ shorter, untouched _ headFresh]
    · have inRest : key ∈ rest.take count := by
        simpa [List.take_succ_cons, Ne.symm same] using held
      cases count with
      | zero => simp at inRest
      | succ count =>
        have tail := inductionHypothesis restNodup count inRest
        simp only [List.take_succ_cons] at tail ⊢
        simp only [List.filter_cons, ne_eq, same, not_false_eq_true, decide_true, if_true,
          List.take_succ_cons]
        rw [← tail]

/-- A hit moves the key to the front of the window and drops nothing. -/
theorem touch_window_of_mem {capacity : Nat} {key : Key} {history : List Key}
    (held : key ∈ window capacity history) :
    touch key (window capacity history) = window capacity (key :: history) := by
  cases capacity with
  | zero => simp [window] at held
  | succ count =>
    rw [window, touch, filter_take_of_mem (nodup_recent history) count held, window, recent,
      touch, List.take_succ_cons]

/-- A touch of any key, cut to the capacity, is the window of the longer history. -/
theorem take_touch_window (capacity : Nat) (key : Key) (history : List Key) :
    (touch key (window capacity history)).take capacity = window capacity (key :: history) := by
  by_cases held : key ∈ window capacity history
  · rw [touch_window_of_mem held, window, List.take_take, Nat.min_self]
  · cases capacity with
    | zero => simp [window]
    | succ count =>
      have absent : ∀ keys : List Key, key ∉ keys.take (count + 1) →
          ((keys.take (count + 1)).filter (· ≠ key)).take count =
            (keys.filter (· ≠ key)).take count := by
        intro keys missing
        have prefixFixed : (keys.take (count + 1)).filter (· ≠ key) = keys.take (count + 1) := by
          refine List.filter_eq_self.mpr fun other member => ?_
          simpa using fun equal : other = key => missing (equal ▸ member)
        have split : keys.filter (· ≠ key) =
            keys.take (count + 1) ++ (keys.drop (count + 1)).filter (· ≠ key) := by
          conv_lhs => rw [← List.take_append_drop (count + 1) keys, List.filter_append]
          rw [prefixFixed]
        rw [prefixFixed, split, List.take_append]
        rcases Nat.lt_or_ge keys.length (count + 1) with short | long
        · have empty : keys.drop (count + 1) = [] := List.drop_eq_nil_of_le (Nat.le_of_lt short)
          simp [empty]
        · rw [List.length_take, Nat.min_eq_left long]
          simp
      rw [touch, List.take_succ_cons, window, absent _ held, window, recent, touch,
        List.take_succ_cons]

omit [DecidableEq Key] in
/-- Different keys read backwards as forwards only when there is one at most. -/
theorem reverse_eq_self_iff {keys : List Key} (nodup : keys.Nodup) :
    keys.reverse = keys ↔ keys.length ≤ 1 := by
  constructor
  · intro same
    cases keys with
    | nil => simp
    | cons first rest =>
      rcases List.eq_nil_or_concat rest with rfl | ⟨between, last, rfl⟩
      · simp
      · have ends : last = first := by simpa using congrArg List.head? same
        simp [ends] at nodup
  · intro few
    match keys, few with
    | [], _ => rfl
    | [key], _ => rfl

/-! ### Bounded recency lists of key-value pairs -/

/-- Look a key up; a hit moves its pair to the front. -/
def find (key : Key) (entries : List (Key × Value)) : List (Key × Value) × Option Value :=
  match entries.find? (·.1 = key) with
  | some entry => (entry :: entries.filter (·.1 ≠ key), some entry.2)
  | none => (entries, none)

/-- Put a pair in front of the others and cut to the capacity. -/
def store (capacity : Nat) (key : Key) (value : Value) (entries : List (Key × Value)) :
    List (Key × Value) :=
  ((key, value) :: entries.filter (·.1 ≠ key)).take capacity

theorem map_fst_filter (key : Key) (entries : List (Key × Value)) :
    (entries.filter (·.1 ≠ key)).map Prod.fst = (entries.map Prod.fst).filter (· ≠ key) := by
  rw [List.filter_map]
  rfl

theorem filter_of_notMem {key : Key} {entries : List (Key × Value)}
    (absent : key ∉ entries.map Prod.fst) : entries.filter (·.1 ≠ key) = entries := by
  refine List.filter_eq_self.mpr fun entry member => ?_
  simpa using fun same : entry.1 = key => absent (same ▸ List.mem_map_of_mem member)

theorem map_fst_store (capacity : Nat) (key : Key) (value : Value)
    (entries : List (Key × Value)) :
    (store capacity key value entries).map Prod.fst =
      (touch key (entries.map Prod.fst)).take capacity := by
  rw [store, List.map_take, List.map_cons, map_fst_filter, touch]

theorem mem_of_mem_store {capacity : Nat} {key : Key} {value : Value}
    {entries : List (Key × Value)} {entry : Key × Value}
    (member : entry ∈ store capacity key value entries) :
    entry = (key, value) ∨ (entry ∈ entries ∧ entry.1 ≠ key) := by
  rcases List.mem_cons.mp (List.mem_of_mem_take member) with same | filtered
  · exact Or.inl same
  · simpa using Or.inr (List.mem_filter.mp filtered)

theorem find_of_notMem {key : Key} {entries : List (Key × Value)}
    (absent : key ∉ entries.map Prod.fst) : find key entries = (entries, none) := by
  have missing : entries.find? (·.1 = key) = none := by
    refine List.find?_eq_none.mpr fun entry member => ?_
    simpa using fun same : entry.1 = key => absent (same ▸ List.mem_map_of_mem member)
  rw [find, missing]

/-- A hit returns a stored value of the key and only reorders the entries. -/
theorem find_of_mem {key : Key} {entries : List (Key × Value)}
    (held : key ∈ entries.map Prod.fst) :
    ∃ value, (key, value) ∈ entries ∧
      find key entries = ((key, value) :: entries.filter (·.1 ≠ key), some value) := by
  cases found : entries.find? (·.1 = key) with
  | none =>
    obtain ⟨entry, member, same⟩ := List.mem_map.mp held
    have missing := List.find?_eq_none.mp found entry member
    simp [same] at missing
  | some entry =>
    have same : entry.1 = key := by simpa using List.find?_some found
    refine ⟨entry.2, ?_, ?_⟩
    · rw [← same]
      exact List.mem_of_find?_eq_some found
    · rw [find, found, ← same]

theorem map_fst_find_of_mem {key : Key} {entries : List (Key × Value)}
    (held : key ∈ entries.map Prod.fst) :
    (find key entries).1.map Prod.fst = touch key (entries.map Prod.fst) := by
  obtain ⟨value, _, found⟩ := find_of_mem held
  rw [found, List.map_cons, map_fst_filter, touch]

theorem mem_of_mem_find {key : Key} {entries : List (Key × Value)} {entry : Key × Value}
    (member : entry ∈ (find key entries).1) : entry ∈ entries := by
  by_cases held : key ∈ entries.map Prod.fst
  · obtain ⟨value, stored, found⟩ := find_of_mem held
    rw [found] at member
    rcases List.mem_cons.mp member with same | filtered
    · exact same ▸ stored
    · exact (List.mem_filter.mp filtered).1
  · rwa [find_of_notMem held] at member

/-- Where keys are not repeated, a lookup answers with the entry of its key. -/
theorem find_snd_eq_some_iff {entries : List (Key × Value)}
    (nodup : (entries.map Prod.fst).Nodup) {key : Key} {value : Value} :
    (find key entries).2 = some value ↔ (key, value) ∈ entries := by
  by_cases held : key ∈ entries.map Prod.fst
  · obtain ⟨stored, member, found⟩ := find_of_mem held
    rw [found]
    constructor
    · intro same
      exact Option.some.inj same ▸ member
    · intro listed
      rw [(Prod.mk.inj (List.inj_on_of_nodup_map nodup member listed rfl)).2]
  · rw [find_of_notMem held]
    refine ⟨fun none => (by cases none), fun listed => absurd ?_ held⟩
    exact List.mem_map_of_mem listed

theorem find_snd_eq_none_iff {entries : List (Key × Value)} {key : Key} :
    (find key entries).2 = none ↔ key ∉ entries.map Prod.fst := by
  by_cases held : key ∈ entries.map Prod.fst
  · obtain ⟨stored, _, found⟩ := find_of_mem held
    simp [found, held]
  · simp [find_of_notMem held, held]

/-! ### Storing many entries -/

theorem store_of_notMem {capacity : Nat} {key : Key} {entries : List (Key × Value)}
    (absent : key ∉ entries.map Prod.fst) (room : entries.length < capacity) (value : Value) :
    store capacity key value entries = (key, value) :: entries := by
  rw [store, filter_of_notMem absent, List.take_of_length_le]
  rw [List.length_cons]
  exact room

/-- With room for all keys, storing an entry adds its key to the keys. -/
theorem mem_map_fst_store {capacity : Nat} {key other : Key} {entries : List (Key × Value)}
    (nodup : (entries.map Prod.fst).Nodup) {domain : Finset Key} (few : domain.card ≤ capacity)
    (known : key ∈ domain) (allKnown : ∀ held ∈ entries.map Prod.fst, held ∈ domain)
    (value : Value) :
    other ∈ (store capacity key value entries).map Prod.fst ↔
      other = key ∨ other ∈ entries.map Prod.fst := by
  have distinct := nodup_touch nodup key
  have inside : (touch key (entries.map Prod.fst)).toFinset ⊆ domain := by
    intro held member
    rcases mem_touch.mp (List.mem_toFinset.mp member) with rfl | listed
    · exact known
    · exact allKnown held listed
  have length : (touch key (entries.map Prod.fst)).length ≤ capacity := by
    rw [← List.toFinset_card_of_nodup distinct]
    exact (Finset.card_le_card inside).trans few
  rw [map_fst_store, List.take_of_length_le length, mem_touch]

/-- Store entries one after the other. -/
def storeAll (capacity : Nat) (entries stored : List (Key × Value)) : List (Key × Value) :=
  stored.foldl (fun entries entry => store capacity entry.1 entry.2 entries) entries

/-- Entries with new keys, and room for them, are stored in front, the last one first. -/
theorem storeAll_of_nodup {capacity : Nat} {stored entries : List (Key × Value)}
    (nodup : (stored.map Prod.fst ++ entries.map Prod.fst).Nodup)
    (room : stored.length + entries.length ≤ capacity) :
    storeAll capacity entries stored = stored.reverse ++ entries := by
  induction stored generalizing entries with
  | nil => rfl
  | cons entry rest inductionHypothesis =>
    rw [List.length_cons] at room
    have absent : entry.1 ∉ entries.map Prod.fst := fun member =>
      (List.nodup_cons.mp nodup).1 (List.mem_append_right _ member)
    have later : (rest.map Prod.fst ++ ((entry.1, entry.2) :: entries).map Prod.fst).Nodup :=
      (List.perm_middle.nodup_iff).mpr nodup
    have first := store_of_notMem absent (show entries.length < capacity by omega) entry.2
    have tail := inductionHypothesis later (by rw [List.length_cons]; omega)
    rw [storeAll] at tail ⊢
    rw [List.foldl_cons, first, tail, List.reverse_cons, List.append_assoc, List.singleton_append]

/-! ### The newest entries -/

/-- The newest entry of every key, where the newest of all comes first. -/
def newest : List (Key × Value) → List (Key × Value)
  | [] => []
  | entry :: earlier => entry :: (newest earlier).filter (·.1 ≠ entry.1)

theorem map_fst_newest (entries : List (Key × Value)) :
    (newest entries).map Prod.fst = recent (entries.map Prod.fst) := by
  induction entries with
  | nil => rfl
  | cons entry earlier inductionHypothesis =>
    rw [newest, List.map_cons, map_fst_filter, inductionHypothesis, List.map_cons, recent, touch]

theorem nodup_newest (entries : List (Key × Value)) : ((newest entries).map Prod.fst).Nodup := by
  rw [map_fst_newest]
  exact nodup_recent _

theorem mem_map_fst_newest {key : Key} {entries : List (Key × Value)} :
    key ∈ (newest entries).map Prod.fst ↔ key ∈ entries.map Prod.fst := by
  rw [map_fst_newest, mem_recent]

theorem newest_of_nodup {entries : List (Key × Value)} (nodup : (entries.map Prod.fst).Nodup) :
    newest entries = entries := by
  induction entries with
  | nil => rfl
  | cons entry earlier inductionHypothesis =>
    obtain ⟨absent, rest⟩ := List.nodup_cons.mp nodup
    rw [newest, inductionHypothesis rest, filter_of_notMem absent]

/-- Later entries come in front of the earlier ones of other keys. -/
theorem newest_append (later earlier : List (Key × Value)) :
    newest (later ++ earlier) =
      newest later ++ (newest earlier).filter (·.1 ∉ later.map Prod.fst) := by
  induction later with
  | nil => simp [newest]
  | cons entry later inductionHypothesis =>
    rw [List.cons_append, newest, inductionHypothesis, newest, List.filter_append,
      List.filter_filter, List.cons_append]
    congr 2
    refine List.filter_congr fun other _ => ?_
    rw [List.map_cons, ← Bool.decide_and, decide_eq_decide, List.mem_cons, not_or]

/-- Nothing is left of a history when the keys of a longer one are removed. -/
theorem filter_newest_eq_nil {part whole : List (Key × Value)}
    (within : ∀ key ∈ part.map Prod.fst, key ∈ whole.map Prod.fst) :
    (newest part).filter (·.1 ∉ whole.map Prod.fst) = [] := by
  refine List.filter_eq_nil_iff.mpr fun entry member => ?_
  have listed := mem_map_fst_newest.mp (List.mem_map_of_mem (f := Prod.fst) member)
  simpa using within entry.1 listed

/-- One pair at most has the key that is removed. -/
theorem length_le_filter_add_one {entries : List (Key × Value)}
    (nodup : (entries.map Prod.fst).Nodup) (key : Key) :
    entries.length ≤ (entries.filter (·.1 ≠ key)).length + 1 := by
  have once : (entries.map Prod.fst).count key ≤ 1 := List.nodup_iff_count_le_one.mp nodup key
  have split := List.length_eq_countP_add_countP (fun entry => decide (entry.1 ≠ key)) (l := entries)
  have removed : entries.countP (fun entry => decide ¬ decide (entry.1 ≠ key) = true) =
      (entries.map Prod.fst).count key := by
    rw [List.count_eq_countP, List.countP_map]
    refine List.countP_congr fun entry _ => ?_
    simp
  rw [← List.countP_eq_length_filter]
  omega

/-- A pair is stored into a list that was cut as into the whole list. -/
theorem store_take {entries : List (Key × Value)} (nodup : (entries.map Prod.fst).Nodup)
    (capacity : Nat) (key : Key) (value : Value) :
    store capacity key value (entries.take capacity) = store capacity key value entries := by
  cases capacity with
  | zero => rw [store, store, List.take_zero, List.take_zero]
  | succ count =>
    have whole : entries.filter (·.1 ≠ key) = (entries.take (count + 1)).filter (·.1 ≠ key) ++
        (entries.drop (count + 1)).filter (·.1 ≠ key) := by
      rw [← List.filter_append, List.take_append_drop]
    rw [store, store, List.take_succ_cons, List.take_succ_cons, whole, List.take_append]
    rcases Nat.le_total entries.length (count + 1) with short | long
    · rw [List.drop_eq_nil_of_le short, List.filter_nil, List.take_nil, List.append_nil]
    · have nodupFront : ((entries.take (count + 1)).map Prod.fst).Nodup :=
        nodup.sublist ((List.take_sublist _ _).map _)
      have enough := length_le_filter_add_one nodupFront key
      rw [List.length_take, Nat.min_eq_left long] at enough
      rw [Nat.sub_eq_zero_of_le (by omega), List.take_zero, List.append_nil]

/-- Storing pairs one after the other keeps the newest of all. -/
theorem storeAll_take_newest (capacity : Nat) (stored earlier : List (Key × Value)) :
    storeAll capacity ((newest earlier).take capacity) stored =
      (newest (stored.reverse ++ earlier)).take capacity := by
  induction stored generalizing earlier with
  | nil => rfl
  | cons entry rest inductionHypothesis =>
    have front : store capacity entry.1 entry.2 ((newest earlier).take capacity) =
        (newest (entry :: earlier)).take capacity := by
      rw [store_take (nodup_newest earlier), store, newest]
    rw [storeAll, List.foldl_cons, front, ← storeAll, inductionHypothesis, List.reverse_cons,
      List.append_assoc, List.singleton_append]

/-- Storing pairs into a list that holds no more than the capacity. -/
theorem storeAll_eq_newest {capacity : Nat} {entries : List (Key × Value)}
    (nodup : (entries.map Prod.fst).Nodup) (fits : entries.length ≤ capacity)
    (stored : List (Key × Value)) :
    storeAll capacity entries stored = (newest (stored.reverse ++ entries)).take capacity := by
  have whole := storeAll_take_newest capacity stored entries
  rwa [newest_of_nodup nodup, List.take_of_length_le fits] at whole

/-- Two histories of which one has all keys leave the same list exactly when its newest pairs are
in front of what the other one leaves. -/
theorem take_newest_eq_iff {capacity : Nat} {part whole entries : List (Key × Value)}
    (within : ∀ key ∈ part.map Prod.fst, key ∈ whole.map Prod.fst) :
    (newest (part ++ entries)).take capacity = (newest (whole ++ entries)).take capacity ↔
      (newest whole).take capacity <+: newest (part ++ entries) := by
  constructor
  · intro same
    have front : (newest whole).take capacity <+: (newest (whole ++ entries)).take capacity := by
      rw [newest_append, List.take_append]
      exact List.prefix_append _ _
    rw [← same] at front
    exact front.trans (List.take_prefix _ _)
  · intro front
    rcases Nat.le_total capacity (newest whole).length with few | many
    · have length : ((newest whole).take capacity).length = capacity := by
        rw [List.length_take, Nat.min_eq_left few]
      rw [newest_append whole, List.take_append_of_le_length few,
        List.prefix_iff_eq_take.mp front, length]
    · -- everything put is in front, and behind it is what the history does not touch
      rw [List.take_of_length_le many] at front
      obtain ⟨rest, split⟩ := front
      have untouched : (newest (part ++ entries)).filter (·.1 ∉ whole.map Prod.fst) =
          (newest entries).filter (·.1 ∉ whole.map Prod.fst) := by
        rw [newest_append part, List.filter_append, filter_newest_eq_nil within, List.nil_append,
          List.filter_filter]
        refine List.filter_congr fun entry _ => ?_
        rw [← Bool.decide_and, decide_eq_decide, and_iff_left_iff_imp]
        exact fun absent listed => absent (within _ listed)
      have behind : (newest (part ++ entries)).filter (·.1 ∉ whole.map Prod.fst) = rest := by
        have nodup := nodup_newest (part ++ entries)
        rw [← split, List.map_append] at nodup
        rw [← split, List.filter_append, filter_newest_eq_nil fun _ listed => listed,
          List.nil_append]
        refine List.filter_eq_self.mpr fun entry member => ?_
        have fresh : entry.1 ∉ whole.map Prod.fst := fun listed =>
          List.disjoint_of_nodup_append nodup (mem_map_fst_newest.mpr listed)
            (List.mem_map_of_mem member)
        exact decide_eq_true fresh
      have kept := behind.symm.trans untouched
      rw [newest_append whole, ← kept, split]

end Recency
