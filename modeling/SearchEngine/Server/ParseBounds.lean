/-
This file determines for which requests `MyTask::process` and `MyTask::parse` stay
inside their arrays.

Three sizes are in play: that of the received request, which may have up to 65535
bytes, that of the two fields of the header, and the message length, which is
whatever the first four bytes say. Neither the first nor the last is compared
with the size of the arrays. A run without a fault is one whose accesses are all
inside, since every access of the model is checked.
-/

import SearchEngine.Server.WireRoundTrip

namespace SearchEngine

open Fuel

/-- The message length a request carries: its first four bytes once the last byte is taken off,
with zeros for those it does not have. -/
def lengthField (request : Bytes) : Int :=
  toInt (leValue ((request.dropLast ++ List.replicate 4 0).take 4))

/-- A request that the arrays have room for. -/
structure Fits (request : Bytes) : Prop where
  /-- there is a byte to take off -/
  nonempty : request ≠ []
  /-- the rest is no longer than the first array -/
  received : request.length ≤ 4097
  /-- the message is no longer than what the first array holds behind the header -/
  message : lengthField request ≤ 4088

/-! ### The copies -/

/-- A loop that ends has read inside the request. -/
theorem copyBytes_inside {request : Bytes} {count : Nat} {buf : Bytes} {i idx : Nat}
    {copied : Bytes × Nat} (ended : copyBytes request count buf i idx = .ok copied) :
    count = 0 ∨ idx + count ≤ request.length := by
  induction count generalizing buf i idx with
  | zero => exact Or.inl rfl
  | succ count inductionHypothesis =>
    rw [copyBytes] at ended
    obtain ⟨byte, read, ended⟩ := bind_eq_ok.mp ended
    obtain ⟨stored, -, ended⟩ := bind_eq_ok.mp ended
    have inside : idx < request.length := by
      by_contra outside
      rw [List.getElem?_eq_none (not_lt.mp outside)] at read
      cases read
    rcases inductionHypothesis ended with none | rest
    · exact Or.inr (by omega)
    · exact Or.inr (by omega)

/-- A string in an array that ends with NUL. -/
theorem cString_isOk {text : Bytes} (ends : 0 ∈ text) : ∃ content, cString text = .ok content := by
  cases found : text.findIdx? (· = 0) with
  | none => exact absurd (List.findIdx?_eq_none_iff.mp found 0 ends) (by simp)
  | some length => exact ⟨text.take length, by rw [cString, found]⟩

/-- The first field of the array is the length field. -/
theorem take_held (body : Bytes) (fits : body.length ≤ 4096) :
    (body ++ List.replicate (4096 - body.length) 0).take 4 =
      (body ++ List.replicate 4 0).take 4 := by
  rw [List.take_append, List.take_append, List.take_replicate, List.take_replicate]
  congr 2
  omega

/-! ### The bounds -/

/-- `parse` stays inside its arrays exactly when the request fits into the first one, and the
message behind its header too. -/
theorem parse_inBounds_iff (body : Bytes) :
    (∃ message, parse body = .ok message) ↔
      body.length ≤ 4096 ∧ toInt (leValue ((body ++ List.replicate 4 0).take 4)) ≤ 4088 := by
  constructor
  · rintro ⟨message, parsed⟩
    have fits : body.length ≤ 4096 := by
      rw [parse] at parsed
      obtain ⟨held, stored, -⟩ := bind_eq_ok.mp parsed
      rw [writeAt, length_cleared] at stored
      split_ifs at stored with room
      omega
    rw [parse_eq_bind fits] at parsed
    dsimp only at parsed
    rw [take_held body fits] at parsed
    obtain ⟨copied, ended, -⟩ := bind_eq_ok.mp parsed
    have size : (body ++ List.replicate (4096 - body.length) (0 : UInt8)).length = 4096 := by
      rw [List.length_append, List.length_replicate]
      omega
    refine ⟨fits, ?_⟩
    rcases copyBytes_inside ended with none | inside <;> omega
  · rintro ⟨fits, short⟩
    rw [parse_eq_bind fits]
    dsimp only
    rw [take_held body fits]
    have size : (body ++ List.replicate (4096 - body.length) (0 : UInt8)).length = 4096 := by
      rw [List.length_append, List.length_replicate]
      omega
    rw [copyBytes_cleared size (by omega), ok_bind]
    dsimp only
    obtain ⟨content, read⟩ := cString_isOk (List.mem_append_right
      (((body ++ List.replicate (4096 - body.length) 0).drop 8).take
        (toInt (leValue ((body ++ List.replicate 4 0).take 4))).toNat)
      (List.mem_replicate.mpr ⟨show 4096 -
        (toInt (leValue ((body ++ List.replicate 4 0).take 4))).toNat ≠ 0 by omega, rfl⟩))
    exact ⟨_, by rw [read, ok_bind]⟩

/-- A request that is processed fits. -/
theorem fits_of_process {request : Bytes} {processed : Message × Option Handler}
    (ended : process request = .ok processed) : Fits request := by
  rw [process] at ended
  obtain ⟨body, popped, ended⟩ := bind_eq_ok.mp ended
  obtain ⟨message, ended, -⟩ := bind_eq_ok.mp ended
  rw [popBack] at popped
  split_ifs at popped with empty
  obtain rfl := Except.ok.inj popped
  obtain ⟨received, short⟩ := (parse_inBounds_iff request.dropLast).mp ⟨message, ended⟩
  rw [List.length_dropLast] at received
  exact ⟨empty, by omega, short⟩

/-- A request is processed with every access inside the arrays exactly when they have room for
it. -/
theorem process_inBounds_iff (request : Bytes) :
    (∃ processed, process request = .ok processed) ↔ Fits request := by
  constructor
  · rintro ⟨processed, ended⟩
    exact fits_of_process ended
  · intro fits
    have received : request.dropLast.length ≤ 4096 := by
      have received := fits.received
      rw [List.length_dropLast]
      omega
    obtain ⟨message, ended⟩ :=
      (parse_inBounds_iff request.dropLast).mpr ⟨received, fits.message⟩
    refine ⟨(message, dispatch message.operatorId), ?_⟩
    rw [process, popBack, if_neg fits.nonempty, ok_bind, ended, ok_bind]
    rfl

/-! ### The fields -/

/-- The operator id a request carries: the four bytes behind its message length, with zeros for those
it does not have. -/
def operatorField (request : Bytes) : UInt32 :=
  UInt32.ofNat (leValue (((request.dropLast ++ List.replicate 8 0).drop 4).take 4))

/-- The content a request carries: the bytes behind its header, as far as the message length says and
in front of the first NUL. -/
def contentField (request : Bytes) : Bytes :=
  ((request.dropLast.drop 8).take (lengthField request).toNat).takeWhile (· ≠ 0)

theorem cString_eq_takeWhile {text : Bytes} (ends : 0 ∈ text) :
    cString text = .ok (text.takeWhile (· ≠ 0)) := by
  have found : text.findIdx? (· = 0) = some (text.findIdx (· = 0)) :=
    List.findIdx?_eq_some_of_exists ⟨0, ends, rfl⟩
  rw [cString, found, List.takeWhile_eq_take_findIdx_not]
  simp

/-- The zeros behind a string end it. -/
theorem takeWhile_append_zeros (text : Bytes) (count : Nat) :
    (text ++ List.replicate count 0).takeWhile (· ≠ 0) = text.takeWhile (· ≠ 0) := by
  induction text with
  | nil => cases count <;> simp [List.replicate_succ]
  | cons byte text inductionHypothesis =>
    rw [List.cons_append, List.takeWhile_cons, List.takeWhile_cons, inductionHypothesis]

theorem takeWhile_padded (text : Bytes) (padding length : Nat) :
    (((text ++ List.replicate padding 0).drop 8).take length).takeWhile (· ≠ 0) =
      ((text.drop 8).take length).takeWhile (· ≠ 0) := by
  rw [List.drop_append, List.take_append, List.drop_replicate, List.take_replicate,
    takeWhile_append_zeros]

/-- A request that fits is processed with the fields it carries. -/
theorem process_eq_of_fits {request : Bytes} (fits : Fits request) :
    process request =
      .ok (⟨lengthField request, operatorField request, contentField request⟩,
        dispatch (operatorField request)) := by
  obtain ⟨nonempty, received, short⟩ := fits
  have held : request.dropLast.length ≤ 4096 := by
    rw [List.length_dropLast]
    omega
  have size : (request.dropLast ++
      List.replicate (4096 - request.dropLast.length) (0 : UInt8)).length = 4096 := by
    rw [List.length_append, List.length_replicate]
    omega
  have operator : ((request.dropLast ++
      List.replicate (4096 - request.dropLast.length) (0 : UInt8)).drop 4).take 4 =
        ((request.dropLast ++ List.replicate 8 0).drop 4).take 4 := by
    rw [List.take_drop, List.take_drop, List.take_append, List.take_append, List.take_replicate,
      List.take_replicate]
    refine congrArg (fun count => List.drop 4 (_ ++ List.replicate count 0)) ?_
    omega
  rw [process, popBack, if_neg nonempty, ok_bind, parse_eq_bind held]
  dsimp only
  rw [take_held _ held, ← lengthField, copyBytes_cleared size (by omega), ok_bind]
  dsimp only
  rw [operator, cString_eq_takeWhile (List.mem_append_right _ (List.mem_replicate.mpr ?_)),
    takeWhile_append_zeros, takeWhile_padded]
  · rfl
  · exact ⟨by omega, rfl⟩

/-- A header that asks for one byte more than the array has behind it, and a newline. -/
def oneTooLong : Bytes := [249, 15, 0, 0, 1, 0, 0, 0, newline]

/-- The request is received from a socket that delivers it, and its message is read outside the
array. -/
theorem oneTooLong_outOfBounds :
    (∃ next, Returns (fun fuel => receive fuel (Socket.trickle oneTooLong 0)) (next, oneTooLong)) ∧
      oneTooLong.length ≤ 65535 ∧ ¬ ∃ processed, process oneTooLong = .ok processed := by
  refine ⟨?_, by decide, fun ⟨processed, ended⟩ => ?_⟩
  · exact @receive_returns [249, 15, 0, 0, 1, 0, 0, 0] [] (by decide) (by decide)
      (Socket.trickle oneTooLong 0) (Socket.noFailure_trickle oneTooLong 0) rfl
  · have short := (fits_of_process ended).message
    exact absurd short (by decide)

end SearchEngine
