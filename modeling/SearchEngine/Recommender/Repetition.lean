/-
This file determines when a dictionary query repeats a word, and when its
selection runs into the empty queue.

A word is pushed once for every character it shares with the query, so the order
of popping has copies of it. A round takes copies off, but walks only once through
the words that were returned: it takes one copy of each at most, and only in the
order in which they were returned. Where more copies come up, the round returns
one of them again; where nothing comes up behind the copies, it asks the empty
queue for its top. The main theorems state for which orders of popping this
happens.
-/

import SearchEngine.Recommender.Selection

namespace SearchEngine

open Containers Utf8 Matching

/-! ### Words that are not repeated -/

/-- The copies of the words that have come up which come up next are, as far as the next new word,
at most one of each, in the order in which the words came up first. -/
def Settled (front back : List Bytes) : Prop :=
  (back.takeWhile (· ∈ front)).Sublist front.eraseDups

instance (front back : List Bytes) : Decidable (Settled front back) :=
  inferInstanceAs (Decidable (List.Sublist _ _))

/-- The copies settle wherever at most four words have come up. -/
def CopiesSettle (order : List Bytes) : Prop :=
  ∀ front back, order = front ++ back → front.eraseDups.length ≤ 4 → Settled front back

theorem eraseDups_append_of_subset {popped copies : List Bytes}
    (known : ∀ word ∈ copies, word ∈ popped) : (popped ++ copies).eraseDups = popped.eraseDups := by
  have nothing : copies.removeAll popped = [] := by
    refine List.filter_eq_nil_iff.mpr fun word member => ?_
    simpa using known word member
  rw [List.eraseDups_append, nothing, List.eraseDups_nil, List.append_nil]

theorem eraseDups_append_new {popped : List Bytes} {word : Bytes} (new : word ∉ popped) :
    (popped ++ [word]).eraseDups = popped.eraseDups ++ [word] := by
  have kept : [word].removeAll popped = [word] := by
    simpa [List.removeAll] using new
  rw [List.eraseDups_append, kept]
  rfl

/-- Nothing but copies is taken off when a new word comes up behind them. -/
theorem takeWhile_copies {known copies rest : List Bytes} {word : Bytes}
    (among : ∀ copy ∈ copies, copy ∈ known) (new : word ∉ known) :
    (copies ++ word :: rest).takeWhile (· ∈ known) = copies := by
  rw [List.takeWhile_append_of_pos (by simpa using among),
    List.takeWhile_cons_of_neg (by simpa using new), List.append_nil]

/-- Copies that were taken off settle, and what settles behind the new word decides. -/
theorem settled_behind_iff {popped copies rest : List Bytes} {word : Bytes}
    (within : copies.Sublist popped.eraseDups) (new : word ∉ popped) :
    (∀ front back, copies ++ word :: rest = front ++ back →
        (popped ++ front).eraseDups.length ≤ 4 → Settled (popped ++ front) back) ↔
      ∀ front back, rest = front ++ back →
        (popped ++ (copies ++ [word]) ++ front).eraseDups.length ≤ 4 →
          Settled (popped ++ (copies ++ [word]) ++ front) back := by
  have known : ∀ copy ∈ copies, copy ∈ popped := fun copy member =>
    List.mem_eraseDups.mp (within.subset member)
  have join (front : List Bytes) :
      popped ++ (copies ++ word :: front) = popped ++ (copies ++ [word]) ++ front := by simp
  constructor
  · intro settle front back split few
    rw [← join] at few ⊢
    exact settle (copies ++ word :: front) back (by rw [split]; simp) few
  · intro settle front back split few
    rcases List.append_eq_append_iff.mp split with ⟨more, rfl, behind⟩ | ⟨later, rfl, rfl⟩
    · cases more with
      | nil =>
        rw [List.nil_append] at behind
        rw [← behind, Settled, List.append_nil,
          List.takeWhile_cons_of_neg (by simpa [new] using fun member => new (known word member))]
        exact List.nil_sublist _
      | cons first more =>
        obtain ⟨rfl, rfl⟩ := List.cons.inj behind
        rw [join] at few ⊢
        exact settle more back rfl few
    · have earlier : ∀ copy ∈ front, copy ∈ popped := fun copy member =>
        known copy (List.mem_append_left _ member)
      have fresh : word ∉ popped ++ front := by
        simpa [new] using fun member => new (earlier word member)
      have among : ∀ copy ∈ later, copy ∈ popped ++ front := fun copy member =>
        List.mem_append_left _ (known copy (List.mem_append_right _ member))
      rw [Settled, takeWhile_copies among fresh, eraseDups_append_of_subset earlier]
      exact (List.sublist_append_right front later).trans within

/-- A selection that has returned the words that came up so far, each once, and that completes,
repeats no word exactly when the copies settle from there on. -/
theorem nodup_pickWords_iff {cnt : Nat} {popped order result : List Bytes}
    (distinct : popped.eraseDups.Nodup) (rounds : cnt + popped.eraseDups.length = 5)
    (ended : pickWords cnt order popped.eraseDups = (result, none)) :
    result.Nodup ↔ ∀ front back, order = front ++ back →
      (popped ++ front).eraseDups.length ≤ 4 → Settled (popped ++ front) back := by
  induction cnt generalizing popped order with
  | zero =>
    obtain rfl := (Prod.mk.inj ended).1
    refine iff_of_true distinct fun front back _ few => ?_
    rw [List.eraseDups_append, List.length_append] at few
    omega
  | succ cnt inductionHypothesis =>
    by_cases empty : order = []
    · rw [pickWords, if_pos empty] at ended
      obtain rfl := (Prod.mk.inj ended).1
      refine iff_of_true distinct fun front back split _ => ?_
      obtain ⟨-, rfl⟩ := List.append_eq_nil_iff.mp (split.symm.trans empty)
      exact List.nil_sublist _
    cases left : takeOff popped.eraseDups order with
    | nil =>
      rw [pickWords_of_nil cnt empty left] at ended
      cases ended
    | cons word rest =>
      rw [pickWords_of_cons cnt left] at ended
      obtain ⟨copies, rfl, within, maximal⟩ := takeOff_eq_cons_iff.mp left
      have known : ∀ copy ∈ copies, copy ∈ popped := fun copy member =>
        List.mem_eraseDups.mp (within.subset member)
      by_cases new : word ∈ popped
      · -- the word is returned again, and its copy has not settled
        obtain ⟨_, _, more, -, result_eq, -⟩ := pickWords_completes ended
        refine iff_of_false (fun nodup => ?_) fun settle => maximal ?_
        · rw [result_eq, List.append_assoc] at nodup
          exact List.disjoint_of_nodup_append nodup (List.mem_eraseDups.mpr new)
            (List.mem_append_left _ (List.mem_singleton_self word))
        · have here := settle [] (copies ++ word :: rest) rfl (by rw [List.append_nil]; omega)
          rw [Settled, List.append_nil, List.takeWhile_append_of_pos (by simpa using known),
            List.takeWhile_cons_of_pos (by simpa using new)] at here
          exact ((List.cons_sublist_cons.mpr (List.nil_sublist _)).append_left copies).trans here
      · have further : (popped ++ (copies ++ [word])).eraseDups = popped.eraseDups ++ [word] := by
          rw [← List.append_assoc, eraseDups_append_new, eraseDups_append_of_subset known]
          simpa [new] using fun member => new (known word member)
        have rest_iff := @inductionHypothesis (popped ++ (copies ++ [word])) rest
        rw [further] at rest_iff
        rw [settled_behind_iff within new]
        refine rest_iff ?_ ?_ ended
        · refine distinct.append (List.nodup_singleton word) fun other early late => new ?_
          rw [← List.mem_singleton.mp late]
          exact List.mem_eraseDups.mp early
        · rw [List.length_append, List.length_singleton]
          omega

/-- The words of a completed query are pairwise distinct exactly when the copies settle in the
order in which the priority queue has the candidates at its top. -/
theorem doQuery_nodup_iff {que : PriorityQueue CandidateResult.less}
    {dictionary next : Dictionary} {sought : Bytes} {ret : List Bytes}
    (ended : dictionary.doQuery que sought = (next, .ok ret)) :
    ∃ pushed, (dictionary.candidates sought).2 = .ok pushed ∧
      (ret.Nodup ↔ CopiesSettle (wordOrder que (que.pushAll pushed))) := by
  obtain ⟨pushed, pushes, picked⟩ := doQuery_eq_ok ended
  exact ⟨pushed, pushes, @nodup_pickWords_iff 5 [] _ _ List.nodup_nil rfl picked⟩

theorem doQuery_nodup_sample :
    ∃ index pushed, DictProducer.createIndex (sampleWords.map encodeEntry) = .ok index ∧
      ((⟨sampleWords.map encodeEntry, index⟩ : Dictionary).candidates (encode ['b'])).2 =
        .ok pushed ∧
      (([[98], [97, 98]] : List Bytes).Nodup ↔
        CopiesSettle (wordOrder orderedQueue (orderedQueue.pushAll pushed))) := by
  obtain ⟨index, next, created, ended⟩ := sample_completes
  obtain ⟨pushed, pushes, nodup_iff⟩ := doQuery_nodup_iff ended
  exact ⟨index, pushed, created, pushes, nodup_iff⟩

/-- In the dictionary of the one word `abc`, the query `abc` returns this word twice. -/
theorem abc_repeated :
    ∃ index next ret,
      DictProducer.createIndex ([(['a', 'b', 'c'], 1)].map encodeEntry) = .ok index ∧
      (⟨[(['a', 'b', 'c'], 1)].map encodeEntry, index⟩ : Dictionary).doQuery orderedQueue
        (encode ['a', 'b', 'c']) = (next, .ok ret) ∧ ¬ ret.Nodup := by
  refine ⟨_, _, [[97, 98, 99], [97, 98, 99]], rfl, Prod.ext rfl ?_, by decide⟩
  decide +kernel

/-! ### Selections that run into the empty queue -/

/-- The words that are picked out of an order, and what is left behind them: each is picked
behind copies of the words picked before, where no longer beginning is a sublist of these. -/
inductive Picked (order : List Bytes) : List Bytes → List Bytes → Prop
  | start : Picked order [] order
  | next {picked copies rest : List Bytes} {word : Bytes} :
      Picked order picked (copies ++ word :: rest) → copies.Sublist picked →
        ¬ (copies ++ [word]).Sublist picked → Picked order (picked ++ [word]) rest

/-- What is left behind fewer than five words, unless it is nothing, is more than copies of these
words, at most one of each and in their order. -/
def StaysFilled (order : List Bytes) : Prop :=
  ∀ picked rest, Picked order picked rest → picked.length < 5 → rest.Sublist picked → rest = []

theorem pickWords_of_staysFilled {order picked rest : List Bytes} (filled : StaysFilled order)
    (reached : Picked order picked rest) {cnt : Nat} (rounds : cnt + picked.length = 5) :
    (pickWords cnt rest picked).2 = none := by
  induction cnt generalizing picked rest with
  | zero => rfl
  | succ cnt inductionHypothesis =>
    cases left : takeOff picked rest with
    | nil =>
      have empty := filled picked rest reached (by omega) (takeOff_eq_nil_iff.mp left)
      rw [pickWords, if_pos empty]
    | cons word later =>
      rw [pickWords_of_cons cnt left]
      obtain ⟨copies, rfl, within, maximal⟩ := takeOff_eq_cons_iff.mp left
      refine inductionHypothesis (reached.next within maximal) ?_
      rw [List.length_append, List.length_singleton]
      omega

/-- The selection picks these words. -/
theorem pickWords_of_picked {order picked rest : List Bytes} (reached : Picked order picked rest)
    (few : picked.length ≤ 5) :
    pickWords 5 order [] = pickWords (5 - picked.length) rest picked := by
  induction reached with
  | start => rfl
  | @next picked copies rest word reached within maximal inductionHypothesis =>
    rw [List.length_append, List.length_singleton] at few ⊢
    obtain ⟨cnt, left⟩ : ∃ cnt, 5 - picked.length = cnt + 1 := ⟨4 - picked.length, by omega⟩
    have taken : takeOff picked (copies ++ word :: rest) = word :: rest :=
      takeOff_eq_cons_iff.mpr ⟨copies, rfl, within, maximal⟩
    rw [inductionHypothesis (by omega), left, pickWords_of_cons cnt taken,
      show 5 - (picked.length + 1) = cnt by omega]

/-- The only fault of a selection is that it asks the empty queue. -/
theorem pickWords_fault (cnt : Nat) (order ret : List Bytes) {fault : Fault}
    (failed : (pickWords cnt order ret).2 = some fault) : fault = .emptyContainer := by
  induction cnt generalizing order ret with
  | zero => cases failed
  | succ cnt inductionHypothesis =>
    by_cases empty : order = []
    · rw [pickWords, if_pos empty] at failed
      cases failed
    cases left : takeOff ret order with
    | nil =>
      rw [pickWords_of_nil cnt empty left] at failed
      exact (Option.some.inj failed).symm
    | cons word rest =>
      rw [pickWords_of_cons cnt left] at failed
      exact inductionHypothesis _ _ failed

/-- The selection over an order does not ask the empty queue exactly when the order stays
filled. -/
theorem pickWords_completes_iff (order : List Bytes) :
    (pickWords 5 order []).2 = none ↔ StaysFilled order := by
  constructor
  · intro ended picked rest reached few within
    by_contra nonempty
    obtain ⟨cnt, left⟩ : ∃ cnt, 5 - picked.length = cnt + 1 := ⟨4 - picked.length, by omega⟩
    rw [pickWords_of_picked reached few.le, left,
      pickWords_of_nil cnt nonempty (takeOff_eq_nil_iff.mpr within)] at ended
    cases ended
  · intro filled
    exact pickWords_of_staysFilled filled Picked.start rfl

/-- A dictionary query never asks the empty queue for its top exactly when the order in which the
priority queue has the candidates at its top stays filled. -/
theorem never_empty_iff (que : PriorityQueue CandidateResult.less) (dictionary : Dictionary)
    (sought : Bytes) :
    (∀ next ret, dictionary.select que sought ≠ (next, .ok (ret, some .emptyContainer))) ↔
      ∀ pushed, (dictionary.candidates sought).2 = .ok pushed →
        StaysFilled (wordOrder que (que.pushAll pushed)) := by
  constructor
  · intro never pushed pushes
    rw [← pickWords_completes_iff, ← selectLoop_eq_pickWords]
    cases failed : (Dictionary.selectLoop que 5 (que.pushAll pushed) []).2 with
    | none => rfl
    | some fault =>
      have isEmpty : fault = .emptyContainer := by
        rw [selectLoop_eq_pickWords] at failed
        exact pickWords_fault _ _ _ failed
      have selected : (dictionary.select que sought).2 = .ok
          ((Dictionary.selectLoop que 5 (que.pushAll pushed) []).1, some .emptyContainer) := by
        rw [← isEmpty, ← failed]
        show (dictionary.candidates sought).2.map _ = _
        rw [pushes]
        rfl
      exact (never _ _ (Prod.ext rfl selected)).elim
  · intro filled next ret selected
    have result : (dictionary.select que sought).2 = .ok (ret, some .emptyContainer) := by
      rw [selected]
    obtain ⟨pushed, pushes, selected⟩ := map_eq_ok.mp result
    have completes := (pickWords_completes_iff _).mpr (filled pushed pushes)
    rw [← selectLoop_eq_pickWords, selected] at completes
    cases completes

/-- In the dictionary of the one word `ab`, the query `ab` asks the empty queue. -/
theorem ab_runs_dry :
    ∃ index next ret,
      DictProducer.createIndex ([(['a', 'b'], 1)].map encodeEntry) = .ok index ∧
      (⟨[(['a', 'b'], 1)].map encodeEntry, index⟩ : Dictionary).select orderedQueue
        (encode ['a', 'b']) = (next, .ok (ret, some .emptyContainer)) := by
  refine ⟨_, _, [[97, 98]], rfl, Prod.ext rfl ?_⟩
  decide +kernel

/-! ### Orders without copies, and orders of copies -/

theorem Picked.among {order picked rest : List Bytes} (reached : Picked order picked rest) :
    ∃ popped, order = popped ++ rest ∧ ∀ word ∈ picked, word ∈ popped := by
  induction reached with
  | start => exact ⟨[], rfl, List.forall_mem_nil _⟩
  | @next picked copies rest word _ _ _ inductionHypothesis =>
    obtain ⟨popped, split, among⟩ := inductionHypothesis
    refine ⟨popped ++ (copies ++ [word]), by rw [split]; simp, fun other member => ?_⟩
    rcases List.mem_append.mp member with early | last
    · exact List.mem_append_left _ (among other early)
    · exact List.mem_append_right _ (List.mem_append_right _ last)

/-- Where every word is queued once, none is repeated and the queue is never asked in vain. -/
theorem settles_of_nodup {order : List Bytes} (nodup : order.Nodup) :
    CopiesSettle order ∧ StaysFilled order := by
  constructor
  · rintro front back rfl -
    cases back with
    | nil => exact List.nil_sublist _
    | cons word back =>
      have new : word ∉ front := fun member =>
        List.disjoint_of_nodup_append nodup member List.mem_cons_self
      rw [Settled, List.takeWhile_cons_of_neg (by simpa using new)]
      exact List.nil_sublist _
  · intro picked rest reached _ within
    obtain ⟨popped, rfl, among⟩ := reached.among
    refine List.eq_nil_iff_forall_not_mem.mpr fun word member => ?_
    exact List.disjoint_of_nodup_append nodup (among word (within.subset member)) member

theorem takeOff_replicate (known count : Nat) (word : Bytes) :
    takeOff (List.replicate known word) (List.replicate count word) =
      List.replicate (count - known) word := by
  induction known generalizing count with
  | zero => rw [List.replicate_zero, takeOff, Nat.sub_zero]
  | succ known inductionHypothesis =>
    cases count with
    | zero => rw [Nat.zero_sub]; rfl
    | succ count =>
      rw [List.replicate_succ, List.replicate_succ, takeOff, if_pos rfl, inductionHypothesis,
        Nat.add_sub_add_right]

/-- A round over copies of one word. -/
theorem pickWords_replicate_succ (cnt count known : Nat) (word : Bytes) :
    (pickWords (cnt + 1) (List.replicate count word) (List.replicate known word)).2 = none ↔
      count = 0 ∨ known < count ∧
        (pickWords cnt (List.replicate (count - known - 1) word)
          (List.replicate (known + 1) word)).2 = none := by
  have taken := takeOff_replicate known count word
  rcases Nat.lt_or_ge known count with more | few
  · obtain ⟨left, same⟩ : ∃ left, count - known = left + 1 := ⟨count - known - 1, by omega⟩
    rw [same, List.replicate_succ] at taken
    rw [pickWords_of_cons cnt taken, same, Nat.add_sub_cancel, ← List.replicate_succ']
    exact ⟨fun ended => Or.inr ⟨more, ended⟩, fun ended => (ended.resolve_left (by omega)).2⟩
  · rw [Nat.sub_eq_zero_of_le few, List.replicate_zero] at taken
    rcases Nat.eq_zero_or_pos count with rfl | some
    · exact iff_of_true rfl (Or.inl rfl)
    · have nonempty : List.replicate count word ≠ [] := by
        rw [ne_eq, List.replicate_eq_nil_iff]
        omega
      rw [pickWords_of_nil cnt nonempty taken]
      exact iff_of_false nofun fun ended => by omega

/-- For copies of one word: the selection completes exactly when it is queued 0, 1, 3, 6 or 10
times, or at least 15 times. -/
theorem staysFilled_replicate_iff (count : Nat) (word : Bytes) :
    StaysFilled (List.replicate count word) ↔ count ∈ [0, 1, 3, 6, 10] ∨ 15 ≤ count := by
  rw [← pickWords_completes_iff]
  have rounds := fun cnt count known => pickWords_replicate_succ cnt count known word
  rw [show ([] : List Bytes) = List.replicate 0 word from rfl, rounds, rounds, rounds, rounds,
    rounds, pickWords]
  simp only [List.mem_cons, List.not_mem_nil, or_false, and_true]
  omega

end SearchEngine
