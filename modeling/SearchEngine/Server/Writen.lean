/-
This file determines when `SocketIO::writen` delivers its buffer.

The loop keeps a cursor and the number of bytes left, but asks `send` for the
whole size in every call, and goes on after every failure. A schedule fixes what
each call returns; the calls are recorded with the address and the size that were
asked for, so that a read behind the buffer is a fact about the record. The main
theorem says that the buffer is delivered exactly when the first call that does
not fail accepts all of it.
-/

import SearchEngine.Basic
import SearchEngine.Library.Fuel

namespace SearchEngine

open Fuel

/-! ### The loop -/

/-- How a `send` ends. -/
inductive SendOutcome where
  /-- it may accept this many bytes -/
  | accept (count : Nat)
  /-- it returns -1 -/
  | failed
  deriving DecidableEq

/-- What a call of `send` returns when it is asked for `size` bytes. It accepts one at least. -/
def SendOutcome.ret (size : Nat) : SendOutcome → Int
  | .accept count => (max 1 (min count size) : Nat)
  | .failed => -1

/-- One call `ret = send(_fd, buf + bufptr, size, 0)`. -/
structure SendCall where
  bufptr : Nat
  size : Nat
  ret : Int
  deriving DecidableEq

/-- The loop of `SocketIO::writen`; it returns the calls of `send` and the return value. -/
def writenLoop (size : Nat) :
    Nat → Stream' SendOutcome → Nat → Int → List SendCall × Except Fault Int
  | 0, _, _, _ => ([], .error .noReturn)
  | fuel + 1, outcomes, bufptr, left =>
    if left > 0 then
      let ret := outcomes.head.ret size
      let (calls, result) :=
        if ret = -1 then writenLoop size fuel outcomes.tail bufptr left
        else writenLoop size fuel outcomes.tail (bufptr + ret.toNat) (left - ret)
      (⟨bufptr, size, ret⟩ :: calls, result)
    else ([], .ok (size - left))

/-- `SocketIO::writen` -/
def writen (fuel : Nat) (outcomes : Stream' SendOutcome) (size : Nat) :
    List SendCall × Except Fault Int :=
  writenLoop size fuel outcomes 0 size

/-! ### What is delivered -/

/-- The bytes of the buffer, where the byte behind `buf` by `i` is `memory i`. -/
def bytesAt (memory : Nat → UInt8) (bufptr count : Nat) : Bytes :=
  (List.range count).map fun i => memory (bufptr + i)

/-- The bytes the socket has accepted in a list of calls. -/
def accepted (memory : Nat → UInt8) (calls : List SendCall) : Bytes :=
  calls.flatMap fun call => bytesAt memory call.bufptr call.ret.toNat

/-- `writen` delivers its buffer: it asks for no byte behind the buffer, what the socket accepts is
the start of the buffer, and it returns the size when all of it was accepted, and what was accepted
when all later calls fail. -/
structure Delivers (memory : Nat → UInt8) (size : Nat) (outcomes : Stream' SendOutcome) : Prop where
  inside : ∀ fuel, ∀ call ∈ (writen fuel outcomes size).1, call.bufptr + call.size ≤ size
  inOrder : ∀ fuel, accepted memory (writen fuel outcomes size).1 <+: bytesAt memory 0 size
  whole : ∀ fuel, accepted memory (writen fuel outcomes size).1 = bytesAt memory 0 size →
    Returns (fun fuel => (writen fuel outcomes size).2) size
  broken : ∀ fuel, (∀ later ≥ fuel, outcomes.get later = .failed) →
    Returns (fun fuel => (writen fuel outcomes size).2)
      (accepted memory (writen fuel outcomes size).1).length

/-- The first call that does not fail accepts the whole buffer. -/
def AcceptsWhole (size : Nat) (outcomes : Stream' SendOutcome) : Prop :=
  ∃ k, (∀ j < k, outcomes.get j = .failed) ∧ (outcomes.get k).ret size = size

section Runs

variable {size : Nat} {outcomes : Stream' SendOutcome}

@[simp] theorem ret_failed (size : Nat) : SendOutcome.failed.ret size = -1 := rfl

theorem ret_cases (positive : 0 < size) (outcome : SendOutcome) :
    outcome = .failed ∨ 0 < outcome.ret size ∧ outcome.ret size ≤ size := by
  cases outcome with
  | accept count =>
    refine Or.inr ?_
    rw [SendOutcome.ret]
    omega
  | failed => exact Or.inl rfl

/-- Calls that fail are made again with the same arguments. -/
theorem writenLoop_of_failed {k : Nat} (failed : ∀ j < k, outcomes.get j = .failed) {bufptr : Nat}
    {left : Int} (remaining : 0 < left) (fuel : Nat) :
    writenLoop size fuel outcomes bufptr left =
      (List.replicate (min fuel k) ⟨bufptr, size, -1⟩ ++
          (writenLoop size (fuel - k) (outcomes.drop k) bufptr left).1,
        (writenLoop size (fuel - k) (outcomes.drop k) bufptr left).2) := by
  induction k generalizing fuel outcomes with
  | zero => rw [Nat.min_zero]; rfl
  | succ k inductionHypothesis =>
    cases fuel with
    | zero => rw [Nat.zero_min, Nat.zero_sub]; rfl
    | succ fuel =>
      have first : outcomes.head = .failed := failed 0 (Nat.succ_pos k)
      have later : ∀ j < k, outcomes.tail.get j = .failed := fun j small =>
        failed (j + 1) (Nat.succ_lt_succ small)
      rw [writenLoop, if_pos remaining, first, Nat.succ_min_succ, Nat.succ_sub_succ,
        List.replicate_succ]
      simp only [ret_failed, if_pos]
      rw [inductionHypothesis later fuel]
      rfl

/-- A call that does not fail moves the cursor. -/
theorem writenLoop_of_accept (positive : 0 < size) (accepts : outcomes.head ≠ .failed)
    {bufptr : Nat} {left : Int} (remaining : 0 < left) (fuel : Nat) :
    writenLoop size (fuel + 1) outcomes bufptr left =
      (⟨bufptr, size, outcomes.head.ret size⟩ :: (writenLoop size fuel outcomes.tail
          (bufptr + (outcomes.head.ret size).toNat) (left - outcomes.head.ret size)).1,
        (writenLoop size fuel outcomes.tail
          (bufptr + (outcomes.head.ret size).toNat) (left - outcomes.head.ret size)).2) := by
  have moved := (ret_cases positive outcomes.head).resolve_left accepts
  rw [writenLoop, if_pos remaining]
  dsimp only
  rw [if_neg (by omega)]

/-- With nothing left the loop makes no call and returns. -/
theorem writenLoop_done (size fuel : Nat) (outcomes : Stream' SendOutcome) (bufptr : Nat) :
    (writenLoop size fuel outcomes bufptr 0).1 = [] ∧
      (0 < fuel → (writenLoop size fuel outcomes bufptr 0).2 = .ok size) := by
  cases fuel with
  | zero => exact ⟨rfl, fun enough => absurd enough (lt_irrefl 0)⟩
  | succ fuel =>
    rw [writenLoop, if_neg (lt_irrefl 0), sub_zero]
    exact ⟨rfl, fun _ => rfl⟩

theorem accepted_of_failed (memory : Nat → UInt8) (count bufptr : Nat) :
    accepted memory (List.replicate count ⟨bufptr, size, -1⟩) = [] := by
  rw [accepted, List.flatMap_eq_nil_iff]
  intro call member
  rw [List.eq_of_mem_replicate member]
  rfl

/-- As long as all calls fail, the loop does not end. -/
theorem writen_of_all_failed (positive : 0 < size) (failed : ∀ j, outcomes.get j = .failed)
    (fuel : Nat) : (writen fuel outcomes size).2 = .error .noReturn := by
  rw [writen, writenLoop_of_failed (fun j (_ : j < fuel) => failed j) (by omega) fuel, Nat.sub_self,
    writenLoop]

/-- The calls of a run in which the first call that does not fail accepts everything. -/
theorem writen_of_whole {k : Nat} (positive : 0 < size) (failed : ∀ j < k, outcomes.get j = .failed)
    (whole : (outcomes.get k).ret size = size) (fuel : Nat) :
    (writen fuel outcomes size).1 = List.replicate (min fuel k) ⟨0, size, -1⟩ ++
        (if k < fuel then [⟨0, size, size⟩] else []) ∧
      (k + 2 ≤ fuel → (writen fuel outcomes size).2 = .ok size) := by
  have remaining : (0 : Int) < size := by omega
  rw [writen, writenLoop_of_failed failed remaining fuel]
  obtain none | ⟨one, rfl⟩ : fuel ≤ k ∨ ∃ more, fuel = k + more + 1 :=
    (Nat.lt_or_ge k fuel).symm.imp_right fun more => ⟨fuel - k - 1, by omega⟩
  · rw [Nat.sub_eq_zero_of_le none, if_neg (by omega)]
    exact ⟨rfl, fun enough => by omega⟩
  · have head : (outcomes.drop k).head = outcomes.get k := by
      rw [Stream'.head_drop]
    have accepts : (outcomes.drop k).head ≠ .failed := by
      intro fails
      rw [← head, fails, ret_failed] at whole
      omega
    rw [show k + one + 1 - k = one + 1 by omega, writenLoop_of_accept positive accepts remaining,
      head, whole, if_pos (by omega), sub_self]
    obtain ⟨none, returns⟩ := writenLoop_done size one (outcomes.drop k).tail
      (0 + (size : Int).toNat)
    rw [none]
    exact ⟨rfl, fun enough => returns (by omega)⟩

/-- A first call that accepts a part of the buffer is followed by one for the size of the buffer. -/
theorem writen_of_short {k : Nat} (positive : 0 < size) (failed : ∀ j < k, outcomes.get j = .failed)
    (accepts : outcomes.get k ≠ .failed) (short : (outcomes.get k).ret size < size) :
    (⟨((outcomes.get k).ret size).toNat, size, (outcomes.get (k + 1)).ret size⟩ : SendCall) ∈
      (writen (k + 2) outcomes size).1 := by
  have head : (outcomes.drop k).head = outcomes.get k := Stream'.head_drop ..
  have next : (outcomes.drop k).tail.head = outcomes.get (k + 1) := by
    rw [Stream'.tail_drop', Stream'.head_drop]
  rw [writen, writenLoop_of_failed failed (by omega), Nat.add_sub_cancel_left,
    writenLoop_of_accept positive (head ▸ accepts) (by omega), head, Nat.zero_add, writenLoop,
    if_pos (by omega), next]
  exact List.mem_append_right _ (List.mem_cons_of_mem _ List.mem_cons_self)

theorem delivers_nothing (memory : Nat → UInt8) (outcomes : Stream' SendOutcome) :
    Delivers memory 0 outcomes := by
  have calls (fuel : Nat) := (writenLoop_done 0 fuel outcomes 0).1
  have returns : Returns (fun fuel => (writen fuel outcomes 0).2) 0 :=
    ⟨1, fun fuel enough => (writenLoop_done 0 fuel outcomes 0).2 enough⟩
  refine ⟨fun fuel call member => ?_, fun fuel => ?_, fun _ _ => returns, fun fuel _ => ?_⟩
  · exact absurd (calls fuel ▸ member) List.not_mem_nil
  · rw [show (writen fuel outcomes 0).1 = [] from calls fuel]
    exact List.prefix_rfl
  · rw [show (writen fuel outcomes 0).1 = [] from calls fuel]
    exact returns

theorem delivers_of_whole (memory : Nat → UInt8) (positive : 0 < size)
    (whole : AcceptsWhole size outcomes) : Delivers memory size outcomes := by
  obtain ⟨k, failed, whole⟩ := whole
  have calls (fuel : Nat) := (writen_of_whole positive failed whole fuel).1
  have returns : Returns (fun fuel => (writen fuel outcomes size).2) size :=
    ⟨k + 2, fun fuel enough => (writen_of_whole positive failed whole fuel).2 enough⟩
  have all (fuel : Nat) : accepted memory (writen fuel outcomes size).1 =
      if k < fuel then bytesAt memory 0 size else [] := by
    rw [calls, accepted, List.flatMap_append, ← accepted, accepted_of_failed, List.nil_append]
    split_ifs
    · rw [List.flatMap_singleton]
      rfl
    · rfl
  refine ⟨fun fuel call member => ?_, fun fuel => ?_, fun fuel _ => returns, fun fuel broken => ?_⟩
  · rw [calls, List.mem_append] at member
    rcases member with early | last
    · rw [List.eq_of_mem_replicate early, Nat.zero_add]
    · split_ifs at last
      · rw [List.mem_singleton.mp last, Nat.zero_add]
      · cases last
  · rw [all]
    split_ifs
    · exact List.prefix_rfl
    · exact List.nil_prefix
  · have behind : k < fuel := by
      by_contra early
      rw [broken k (not_lt.mp early), ret_failed] at whole
      omega
    rw [all, if_pos behind, bytesAt, List.length_map, List.length_range]
    exact returns

end Runs

/-- `writen` delivers its buffer exactly when the buffer is empty or the first call that does not
fail accepts all of it: a shorter write is followed by a read behind the buffer, and failures by
further calls. -/
theorem writen_delivers_iff (memory : Nat → UInt8) (size : Nat) (outcomes : Stream' SendOutcome) :
    Delivers memory size outcomes ↔ size = 0 ∨ AcceptsWhole size outcomes := by
  rcases Nat.eq_zero_or_pos size with rfl | positive
  · exact iff_of_true (delivers_nothing memory outcomes) (Or.inl rfl)
  · rw [or_iff_right positive.ne']
    refine ⟨fun delivers => ?_, delivers_of_whole memory positive⟩
    have ends : ∃ k, outcomes.get k ≠ .failed := by
      by_contra never
      push Not at never
      obtain ⟨bound, returns⟩ := delivers.broken 0 fun later _ => never later
      exact absurd ((writen_of_all_failed positive never bound).symm.trans (returns bound le_rfl))
        nofun
    classical
    have failed : ∀ j < Nat.find ends, outcomes.get j = .failed := fun j early =>
      not_not.mp (Nat.find_min ends early)
    refine ⟨Nat.find ends, failed, ?_⟩
    obtain ⟨one, most⟩ := (ret_cases positive _).resolve_left (Nat.find_spec ends)
    by_contra short
    -- the call behind a short write asks for the whole size again
    have again := delivers.inside _ _
      (writen_of_short positive failed (Nat.find_spec ends) (by omega))
    dsimp only at again
    omega

/-- The socket accepts one byte, and then two. -/
def oneThenTwo : Stream' SendOutcome := .cons (.accept 1) (Stream'.const (.accept 2))

/-- A buffer of two bytes is not delivered; three bytes are sent, and three is returned. -/
theorem shortWrite_not_delivered :
    ¬ Delivers (fun _ => 97) 2 oneThenTwo ∧
      writen 3 oneThenTwo 2 = ([⟨0, 2, 1⟩, ⟨1, 2, 2⟩], .ok 3) := by
  have calls : writen 3 oneThenTwo 2 = ([⟨0, 2, 1⟩, ⟨1, 2, 2⟩], .ok 3) := rfl
  refine ⟨fun delivers => ?_, calls⟩
  have inside := delivers.inside 3 ⟨1, 2, 2⟩
  rw [calls] at inside
  exact absurd (inside (List.mem_cons_of_mem _ List.mem_cons_self)) (by decide)

end SearchEngine
