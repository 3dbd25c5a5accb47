/-
This file proves that the lookups of a dictionary query are unobservable.

`Dictionary::doQuery` looks characters up through the subscript of the index,
which inserts an empty set for a character that is absent. Two dictionaries read
alike when they have the same words and every character the same positions. A
query leaves a dictionary that reads as the one before it, also where it ends in
a fault, and dictionaries that read alike answer alike.
-/

import SearchEngine.Recommender.Dictionary

namespace SearchEngine

open Containers

/-- Two dictionaries that read alike. -/
structure Dictionary.ReadsAs (dictionary other : Dictionary) : Prop where
  dict : dictionary.dict = other.dict
  index : value dictionary.index = value other.index

namespace Dictionary

theorem ReadsAs.refl (dictionary : Dictionary) : dictionary.ReadsAs dictionary := ⟨rfl, rfl⟩

theorem ReadsAs.trans {first second third : Dictionary} (left : first.ReadsAs second)
    (right : second.ReadsAs third) : first.ReadsAs third :=
  ⟨left.dict.trans right.dict, left.index.trans right.index⟩

theorem readsAs_subscript (dictionary : Dictionary) (letter : Bytes) :
    ({ dictionary with index := (subscript dictionary.index letter).1 } : Dictionary).ReadsAs
      dictionary := ⟨rfl, value_subscript dictionary.index letter⟩

theorem pushCandidates_readsAs (sought : Bytes) (dictionary : Dictionary) (words : List Bytes) :
    (pushCandidates sought dictionary words).1.ReadsAs dictionary := by
  induction words generalizing dictionary with
  | nil => exact ReadsAs.refl dictionary
  | cons letter words inductionHypothesis =>
    have reads := readsAs_subscript dictionary letter
    rw [pushCandidates]
    dsimp only
    cases pushPositions dictionary.dict sought (subscript dictionary.index letter).2 with
    | error fault => exact reads
    | ok pushed => exact (inductionHypothesis _).trans reads

theorem pushCandidates_congr (sought : Bytes) {dictionary other : Dictionary}
    (reads : dictionary.ReadsAs other) (words : List Bytes) :
    (pushCandidates sought dictionary words).2 = (pushCandidates sought other words).2 := by
  induction words generalizing dictionary other with
  | nil => rfl
  | cons letter words inductionHypothesis =>
    have laterReads :
        ({ dictionary with index := (subscript dictionary.index letter).1 } : Dictionary).ReadsAs
          { other with index := (subscript other.index letter).1 } :=
      ⟨reads.dict, by rw [value_subscript, value_subscript, reads.index]⟩
    have later := inductionHypothesis laterReads
    rw [pushCandidates, pushCandidates]
    dsimp only
    rw [subscript_snd, subscript_snd, reads.dict, reads.index]
    cases pushPositions other.dict sought (value other.index letter) with
    | error fault => rfl
    | ok pushed =>
      dsimp only
      rw [← later, reads.dict]

theorem candidates_readsAs (dictionary : Dictionary) (sought : Bytes) :
    (dictionary.candidates sought).1.ReadsAs dictionary := by
  rw [candidates]
  cases splitSought sought with
  | error fault => exact ReadsAs.refl dictionary
  | ok words => exact pushCandidates_readsAs sought dictionary words

theorem candidates_congr {dictionary other : Dictionary} (reads : dictionary.ReadsAs other)
    (sought : Bytes) : (dictionary.candidates sought).2 = (other.candidates sought).2 := by
  rw [candidates, candidates]
  cases splitSought sought with
  | error fault => rfl
  | ok words => exact pushCandidates_congr sought reads words

variable (que : PriorityQueue CandidateResult.less)

/-- A query leaves a dictionary that reads as the one before it. -/
theorem doQuery_readsAs (dictionary : Dictionary) (sought : Bytes) :
    (dictionary.doQuery que sought).1.ReadsAs dictionary :=
  dictionary.candidates_readsAs sought

/-- Dictionaries that read alike answer alike. -/
theorem doQuery_congr {dictionary other : Dictionary} (reads : dictionary.ReadsAs other)
    (sought : Bytes) : (dictionary.doQuery que sought).2 = (other.doQuery que sought).2 := by
  rw [doQuery, doQuery, select, select]
  dsimp only
  rw [candidates_congr reads sought]

end Dictionary

end SearchEngine
