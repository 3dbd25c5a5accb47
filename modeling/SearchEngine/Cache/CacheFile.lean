/-
This file proves when a cache is read back from the file it is written to.

An entry is written as a line: the key, a `':'`, and the words of the value, each
with a `' '` behind it. The decoder takes everything in front of the first `':'`
as the key, and drops every later `':'` of the line. So a line without a `':'` in
its key is read as the key with the words of the value, less their `':'`; and no
line is read as a key that has one.
-/

import SearchEngine.Cache.Transfers

namespace SearchEngine

namespace LRUCache

/-! ### A line of the file -/

/-- The line `writeToFile` writes for an entry, without its newline. -/
def encodeLine (entry : Bytes × List Bytes) : Bytes :=
  entry.1 ++ [colon] ++ entry.2.flatMap fun word => word ++ [space]

/-- A word without its `':'`. -/
def withoutColons (word : Bytes) : Bytes := word.filter (· ≠ colon)

theorem withoutColons_eq_iff {word : Bytes} : withoutColons word = word ↔ colon ∉ word := by
  rw [withoutColons, List.filter_eq_self]
  constructor
  · intro clean member
    simpa using clean colon member
  · intro clean byte member
    simpa using fun same : byte = colon => clean (same ▸ member)

theorem step_key {key : Bytes} (clean : colon ∉ key) (start : Bytes) (value : List Bytes)
    (str : Bytes) : key.foldl LineState.step ⟨false, start, value, str⟩ =
      ⟨false, start ++ key, value, str⟩ := by
  induction key generalizing start with
  | nil => rw [List.append_nil, List.foldl_nil]
  | cons byte key inductionHypothesis =>
    have different : byte ≠ colon := fun same => clean (by simp [same])
    have rest : colon ∉ key := fun member => clean (List.mem_cons_of_mem _ member)
    have first : LineState.step ⟨false, start, value, str⟩ byte =
        ⟨false, start ++ [byte], value, str⟩ := by
      rw [LineState.step, if_neg different]
      rfl
    rw [List.foldl_cons, first, inductionHypothesis rest, List.append_assoc,
      List.singleton_append]

theorem step_word {word : Bytes} (unbroken : space ∉ word) (key : Bytes) (value : List Bytes)
    (start : Bytes) : word.foldl LineState.step ⟨true, key, value, start⟩ =
      ⟨true, key, value, start ++ withoutColons word⟩ := by
  induction word generalizing start with
  | nil => rw [withoutColons, List.filter_nil, List.append_nil, List.foldl_nil]
  | cons byte word inductionHypothesis =>
    have different : byte ≠ space := fun same => unbroken (by simp [same])
    have rest : space ∉ word := fun member => unbroken (List.mem_cons_of_mem _ member)
    by_cases isColon : byte = colon
    · have first : LineState.step ⟨true, key, value, start⟩ byte =
          ⟨true, key, value, start⟩ := by
        rw [LineState.step, if_pos isColon]
      rw [List.foldl_cons, first, inductionHypothesis rest, withoutColons, withoutColons,
        List.filter_cons_of_neg (by simp [isColon])]
    · have first : LineState.step ⟨true, key, value, start⟩ byte =
          ⟨true, key, value, start ++ [byte]⟩ := by
        rw [LineState.step, if_neg isColon]
        exact if_neg different
      rw [List.foldl_cons, first, inductionHypothesis rest, withoutColons, withoutColons,
        List.filter_cons_of_pos (by simp [isColon]), List.append_assoc, List.singleton_append]

theorem step_words {words : List Bytes} (unbroken : ∀ word ∈ words, space ∉ word) (key : Bytes)
    (start : List Bytes) :
    (words.flatMap fun word => word ++ [space]).foldl LineState.step ⟨true, key, start, []⟩ =
      ⟨true, key, start ++ words.map withoutColons, []⟩ := by
  induction words generalizing start with
  | nil => rw [List.map_nil, List.append_nil, List.flatMap_nil, List.foldl_nil]
  | cons word words inductionHypothesis =>
    have ended : LineState.step ⟨true, key, start, withoutColons word⟩ space =
        ⟨true, key, start ++ [withoutColons word], []⟩ := rfl
    rw [List.flatMap_cons, List.foldl_append, List.foldl_append,
      step_word (unbroken word List.mem_cons_self), List.nil_append, List.foldl_cons,
      List.foldl_nil, ended,
      inductionHypothesis fun other member => unbroken other (List.mem_cons_of_mem _ member),
      List.append_assoc, List.map_cons, List.singleton_append]

/-- The line of a key without a `':'` is read as the key and the words less their `':'`. -/
theorem decodeLine_encodeLine {entry : Bytes × List Bytes} (cleanKey : colon ∉ entry.1)
    (unbroken : ∀ word ∈ entry.2, space ∉ word) :
    decodeLine (encodeLine entry) = (entry.1, entry.2.map withoutColons) := by
  have flagged : LineState.step ⟨false, [] ++ entry.1, [], []⟩ colon =
      ⟨true, entry.1, [], []⟩ := rfl
  rw [decodeLine, encodeLine, List.foldl_append, List.foldl_append, step_key cleanKey,
    List.foldl_cons, List.foldl_nil, flagged, step_words unbroken]
  rfl

/-- No line is read as a key with a `':'`. -/
theorem colon_notMem_decodeLine (line : Bytes) : colon ∉ (decodeLine line).1 := by
  have kept : ∀ (line : Bytes) (state : LineState), colon ∉ state.key →
      colon ∉ (line.foldl LineState.step state).key := by
    intro line
    induction line with
    | nil => exact fun _ clean => clean
    | cons byte line inductionHypothesis =>
      intro state clean
      refine inductionHypothesis (state.step byte) ?_
      rw [LineState.step]
      split_ifs with isColon
      · exact clean
      · simpa [clean] using fun same : colon = byte => isColon same.symm
      · exact clean
      · exact clean
  exact kept line {} List.not_mem_nil

/-! ### The file -/

variable {cache : LRUCache}

/-- The lines of the file are the entries. -/
theorem lines_writeToFile (keys : ∀ entry ∈ cache.entries, newline ∉ entry.1)
    (words : ∀ entry ∈ cache.entries, ∀ word ∈ entry.2, newline ∉ word) :
    Text.lines newline cache.writeToFile = cache.entries.map encodeLine := by
  have unbroken : ∀ line ∈ cache.entries.map encodeLine, newline ∉ line := by
    intro line member
    obtain ⟨entry, held, rfl⟩ := List.mem_map.mp member
    have apart : newline ≠ colon ∧ newline ≠ space := by decide
    simpa [encodeLine, keys entry held, apart] using
      fun word listed => words entry held word listed
  rw [← Text.lines_flatMap unbroken, List.flatMap_map]
  rfl

/-- The cache that is read back. -/
def readBack (cache : LRUCache) : LRUCache :=
  (create cache.raw.capacity).readFromFile cache.writeToFile

/-- A key with a `':'` is not read back. -/
theorem colon_notMem_readBack {entry : Bytes × List Bytes}
    (member : entry ∈ cache.readBack.entries) : colon ∉ entry.1 := by
  rw [readBack, readFromFile_eq] at member
  rcases mem_of_mem_putAll member with decoded | held
  · obtain ⟨line, _, rfl⟩ := List.mem_map.mp decoded
    exact colon_notMem_decodeLine line
  · exact absurd held List.not_mem_nil

/-- Entries with clean keys are read back in reverse order, with the words less their `':'`. -/
theorem readBack_entries (keys : ∀ entry ∈ cache.entries, newline ∉ entry.1)
    (words : ∀ entry ∈ cache.entries, ∀ word ∈ entry.2, space ∉ word ∧ newline ∉ word)
    (clean : ∀ entry ∈ cache.entries, colon ∉ entry.1) :
    cache.readBack.entries =
      (cache.entries.map fun entry => (entry.1, entry.2.map withoutColons)).reverse := by
  have decoded : cache.entries.map (decodeLine ∘ encodeLine) =
      cache.entries.map fun entry => (entry.1, entry.2.map withoutColons) :=
    List.map_congr_left fun entry held => decodeLine_encodeLine (clean entry held)
      fun word listed => (words entry held word listed).1
  rw [readBack, readFromFile_eq,
    lines_writeToFile keys fun entry held word listed => (words entry held word listed).2,
    List.map_map, decoded, putAll_entries, entries_create, Recency.storeAll_of_nodup,
    List.append_nil]
  · rw [List.map_nil, List.append_nil, List.map_map]
    exact cache.entries_nodup
  · rw [List.length_map]
    exact cache.length_entries

/-- A cache is read back from its file with the same map exactly when no key and no word of a value
has a `':'`. -/
theorem readBack_sameMap_iff (cache : LRUCache)
    (keys : ∀ entry ∈ cache.entries, newline ∉ entry.1)
    (words : ∀ entry ∈ cache.entries, ∀ word ∈ entry.2, space ∉ word ∧ newline ∉ word) :
    SameMap ((create cache.raw.capacity).readFromFile cache.writeToFile) cache ↔
      ∀ entry ∈ cache.entries, colon ∉ entry.1 ∧ ∀ word ∈ entry.2, colon ∉ word := by
  rw [← readBack, sameMap_iff]
  constructor
  · intro same entry held
    have clean : ∀ entry ∈ cache.entries, colon ∉ entry.1 := fun entry held =>
      colon_notMem_readBack ((same entry).mpr held)
    refine ⟨clean entry held, fun word listed => ?_⟩
    -- the entry is read back with its words less their `':'`, and a key has one entry only
    have listedBack : (entry.1, entry.2.map withoutColons) ∈ cache.readBack.entries := by
      rw [readBack_entries keys words clean, List.mem_reverse]
      exact List.mem_map.mpr ⟨entry, held, rfl⟩
    have equal := List.inj_on_of_nodup_map cache.entries_nodup ((same _).mp listedBack) held rfl
    have fixed : entry.2.map withoutColons = entry.2.map id := by
      rw [List.map_id]
      exact congrArg Prod.snd equal
    exact withoutColons_eq_iff.mp (List.map_inj_left.mp fixed word listed)
  · intro clean entry
    have unchanged : (cache.entries.map fun entry => (entry.1, entry.2.map withoutColons)) =
        cache.entries.map id := by
      refine List.map_congr_left fun entry held => Prod.ext rfl ?_
      have fixed : entry.2.map withoutColons = entry.2.map id :=
        List.map_congr_left fun word listed =>
          withoutColons_eq_iff.mpr ((clean entry held).2 word listed)
      rw [fixed, List.map_id]
      rfl
    rw [readBack_entries keys words fun entry held => (clean entry held).1, unchanged, List.map_id,
      List.mem_reverse]

/-- A cache with two entries, of one word and of two. -/
theorem readBack_sameMap_sample :
    SameMap ((create 3).readFromFile
        (((create 3).put [97] [[97]]).put [98, 32] [[98], [97, 98]]).writeToFile)
      (((create 3).put [97] [[97]]).put [98, 32] [[98], [97, 98]]) :=
  (readBack_sameMap_iff (((create 3).put [97] [[97]]).put [98, 32] [[98], [97, 98]])
    (by decide) (by decide)).mpr (by decide)

/-- The dictionary has a word `:`. Its entry is read back with an empty word, and the entry of a
query `a:` is read back under `a`. -/
theorem readBack_drops_colon :
    ¬ SameMap ((create 3).readFromFile ((create 3).put [97] [[58]]).writeToFile)
        ((create 3).put [97] [[58]]) ∧
      ¬ SameMap ((create 3).readFromFile ((create 3).put [97, 58] [[97]]).writeToFile)
        ((create 3).put [97, 58] [[97]]) := by
  refine ⟨fun same => ?_, fun same => ?_⟩
  · exact absurd (same [97]) (by decide)
  · exact absurd (same [97, 58]) (by decide)

end LRUCache

end SearchEngine
