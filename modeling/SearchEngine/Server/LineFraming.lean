/-
This file proves that line framing does not depend on how the network splits
the stream.

`readline` peeks until it sees a newline and consumes what it has peeked. Its
loop invariant is that the array starts with the bytes the socket has lost since
the call began, and that the rest of the line is in front of the socket. A line
that fits the array is therefore returned whole, and the next call starts at the
next line.
-/

import SearchEngine.Server.SocketIO

namespace SearchEngine

open Fuel

/-! ### One line -/

/-- What `readline` returns: the socket and the array after the call, and the return value. -/
structure LineRead where
  socket : Socket
  buf : Bytes
  ret : Nat

/-- The call returned the line whole: its length is the return value, the array starts with it
and has a NUL behind it, and the socket has lost exactly its bytes. -/
structure Delivered (line : Bytes) (before : Socket) (read : LineRead) : Prop where
  ret : read.ret = line.length
  holds : read.buf.take line.length = line
  terminated : read.buf[line.length]? = some 0
  consumed : before.incoming = line ++ read.socket.incoming

theorem findIdx?_newline {remaining rest : Bytes} (unbroken : newline ∉ remaining) :
    (remaining ++ newline :: rest).findIdx? (· = newline) = some remaining.length := by
  have misses : remaining.findIdx? (· = newline) = none := by
    rw [List.findIdx?_eq_none_iff]
    intro byte member
    simpa using fun same : byte = newline => unbroken (same ▸ member)
  rw [List.findIdx?_append, misses, List.findIdx?_cons]
  simp

/-- A peek that sees part of the line sees no newline. -/
theorem findIdx?_take_of_le {remaining rest : Bytes} (unbroken : newline ∉ remaining)
    {count : Nat} (short : count ≤ remaining.length) :
    ((remaining ++ newline :: rest).take count).findIdx? (· = newline) = none := by
  rw [List.take_append_of_le_length short, List.findIdx?_eq_none_iff]
  intro byte member
  simpa using fun same : byte = newline => unbroken (same ▸ List.mem_of_mem_take member)

/-- A peek that sees the end of the line finds its newline. -/
theorem findIdx?_take_of_lt {remaining rest : Bytes} (unbroken : newline ∉ remaining)
    {count : Nat} (long : remaining.length < count) :
    ((remaining ++ newline :: rest).take count).findIdx? (· = newline) =
      some remaining.length := by
  obtain ⟨more, rfl⟩ : ∃ more, count = remaining.length + (more + 1) :=
    ⟨count - remaining.length - 1, by omega⟩
  rw [List.take_length_add_append, List.take_succ_cons, findIdx?_newline unbroken]

/-- The loop invariant of `readline`: the array starts with the bytes `seen` of the line that were
read, and the bytes `remaining` of the line are in front of the socket. -/
structure Entered (maxSz : Nat) (rest remaining seen : Bytes) (socket : Socket) (buf : Bytes) :
    Prop where
  unbroken : newline ∉ remaining
  noFailure : socket.NoFailure
  incoming : socket.incoming = remaining ++ newline :: rest
  fits : seen.length + remaining.length + 1 ≤ maxSz - 1
  length : buf.length = maxSz
  holds : buf.take seen.length = seen

/-- What the loop has done when it has read the line. -/
structure ReadLine (maxSz : Nat) (rest line : Bytes) (next : Socket) (final : Bytes) : Prop where
  incoming : next.incoming = rest
  noFailure : next.NoFailure
  length : final.length = maxSz
  holds : final.take (line.length + 1) = line ++ [newline]
  terminated : final[line.length + 1]? = some 0

/-- The loop reads the line. -/
def LoopReads (maxSz : Nat) (rest line seen : Bytes) (socket : Socket) (buf : Bytes) : Prop :=
  ∃ next final, Returns (fun fuel => readlineLoop maxSz fuel socket buf seen.length
      (maxSz - 1 - seen.length) seen.length) (next, final, line.length + 1) ∧
    ReadLine maxSz rest line next final

section Round

variable {maxSz : Nat} {rest remaining seen : Bytes} {socket next : Socket} {buf : Bytes}
  {count : Nat}

theorem Entered.positive (entered : Entered maxSz rest remaining seen socket buf) :
    0 < maxSz - 1 - seen.length := by
  have fits := entered.fits
  omega

theorem Entered.nonempty (entered : Entered maxSz rest remaining seen socket buf) :
    socket.incoming ≠ [] := by
  rw [entered.incoming]
  simp

theorem length_peeked (there : count ≤ socket.incoming.length) :
    (socket.incoming.take count).length = count := by
  rw [List.length_take, Nat.min_eq_left there]

/-- A peek leaves what the array held. -/
theorem Entered.take_overwrite (entered : Entered maxSz rest remaining seen socket buf)
    (data : Bytes) : (overwrite buf seen.length data).take seen.length = seen := by
  have fits := entered.fits
  have length := entered.length
  rw [SearchEngine.take_overwrite (le_refl seen.length) (by omega), entered.holds]

/-- A round whose peek sees the newline reads the rest of the line. -/
theorem Entered.newline_round (entered : Entered maxSz rest remaining seen socket buf)
    (asked : count ≤ maxSz - 1 - seen.length) (there : count ≤ socket.incoming.length)
    (received : socket.recv (maxSz - 1 - seen.length) true =
      .ok (.bytes (socket.incoming.take count), next))
    (same : next.incoming = socket.incoming) (kept : next.NoFailure)
    (long : remaining.length < count) :
    LoopReads maxSz rest (seen ++ remaining) seen socket buf := by
  have ⟨unbroken, _, incoming, fits, size, _⟩ := entered
  have positive := entered.positive
  have peeked := length_peeked there
  have room : seen.length + (socket.incoming.take count).length ≤ buf.length := by omega
  have below : ¬ (socket.incoming.take count).length + seen.length > maxSz - 1 := by omega
  have found : (socket.incoming.take count).findIdx? (· = newline) = some remaining.length := by
    rw [incoming, findIdx?_take_of_lt unbroken long]
  have space : seen.length + (remaining.length + 1) ≤
      (overwrite buf seen.length (socket.incoming.take count)).length := by
    rw [length_overwrite room]
    omega
  obtain ⟨last, final, returns, consumed, lastKept, finalSize, holds⟩ :=
    readn_returns (remaining.length + 1) kept (by rw [same, incoming]; simp) space
  rw [length_overwrite room, size] at finalSize
  have line : socket.incoming.take (remaining.length + 1) = remaining ++ [newline] := by
    rw [incoming, List.take_length_add_append]
    rfl
  rw [entered.take_overwrite, same, line, ← List.append_assoc] at holds
  have end_le : seen.length + (remaining.length + 1) + [(0 : UInt8)].length ≤ final.length := by
    rw [List.length_singleton]
    omega
  have total : (seen ++ remaining).length + 1 = seen.length + (remaining.length + 1) := by
    rw [List.length_append, Nat.add_assoc]
  refine ⟨last, overwrite final (seen.length + (remaining.length + 1)) [0],
    Returns.of_round (fun fuel => rfl) (returns.after (fun fuel ended => ?_)
      (Returns.of_eq fun _ => rfl)), ?_, lastKept, ?_, ?_, ?_⟩
  · rw [readlineLoop, if_neg (Nat.ne_of_gt positive), received, total]
    simp only [ok_bind, writeAt_eq_ok room, found, ended, writeAt_eq_ok end_le, if_neg below,
      pure_eq_ok]
  · rw [consumed, same, incoming, ← List.drop_drop, List.drop_left]
    rfl
  · rw [length_overwrite end_le, finalSize]
  · rw [total, SearchEngine.take_overwrite (le_refl _) (by omega), holds]
  · rw [total]
    exact getElem?_overwrite 0 (by omega)

/-- A round whose peek stops inside the line consumes what it saw, and the loop goes on. -/
theorem Entered.part_round (entered : Entered maxSz rest remaining seen socket buf)
    (there : count ≤ socket.incoming.length)
    (received : socket.recv (maxSz - 1 - seen.length) true =
      .ok (.bytes (socket.incoming.take count), next))
    (same : next.incoming = socket.incoming) (kept : next.NoFailure)
    (short : count ≤ remaining.length) :
    ∃ last final,
      Entered maxSz rest (remaining.drop count) (seen ++ remaining.take count) last final ∧
      (LoopReads maxSz rest (seen ++ remaining) (seen ++ remaining.take count) last final →
        LoopReads maxSz rest (seen ++ remaining) seen socket buf) := by
  have ⟨unbroken, _, incoming, fits, size, _⟩ := entered
  have positive := entered.positive
  have peeked := length_peeked there
  have room : seen.length + (socket.incoming.take count).length ≤ buf.length := by omega
  have below : ¬ count + seen.length > maxSz - 1 := by omega
  have missed : (socket.incoming.take count).findIdx? (· = newline) = none := by
    rw [incoming, findIdx?_take_of_le unbroken short]
  have space : seen.length + count ≤
      (overwrite buf seen.length (socket.incoming.take count)).length := by
    rw [length_overwrite room]
    omega
  obtain ⟨last, final, returns, consumed, lastKept, finalSize, holds⟩ :=
    readn_returns count kept (by rw [same]; exact there) space
  have part : socket.incoming.take count = remaining.take count := by
    rw [incoming, List.take_append_of_le_length short]
  have seenLength : (seen ++ remaining.take count).length = seen.length + count := by
    rw [List.length_append, List.length_take, Nat.min_eq_left short]
  have restLength : (remaining.drop count).length = remaining.length - count := List.length_drop
  rw [length_overwrite room, size] at finalSize
  rw [entered.take_overwrite, same, part, ← seenLength] at holds
  have lastIncoming : last.incoming = remaining.drop count ++ newline :: rest := by
    rw [consumed, same, incoming, List.drop_append_of_le_length short]
  refine ⟨last, final, ⟨fun member => unbroken (List.mem_of_mem_drop member), lastKept,
    lastIncoming, by omega, finalSize, holds⟩, ?_⟩
  rintro ⟨further, complete, later, read⟩
  rw [seenLength, Nat.sub_add_eq] at later
  refine ⟨further, complete, Returns.of_round (fun fuel => rfl)
    (returns.after (fun fuel ended => ?_) later), read⟩
  rw [readlineLoop, if_neg (Nat.ne_of_gt positive), received]
  simp only [ok_bind, writeAt_eq_ok room, missed, peeked, ended]
  rw [if_neg below]

end Round

/-- From its invariant the loop reads the line. The induction is on the part of the line that is in
front of the socket; every round that is not interrupted makes it shorter. -/
theorem readlineLoop_returns {maxSz : Nat} {rest remaining seen : Bytes} {socket : Socket}
    {buf : Bytes} (entered : Entered maxSz rest remaining seen socket buf) :
    LoopReads maxSz rest (seen ++ remaining) seen socket buf := by
  induction measure : remaining.length using Nat.strongRecOn
    generalizing remaining seen socket buf with
  | ind length inductionHypothesis =>
    have positive := entered.positive
    have noFailure := entered.noFailure
    have nonempty := entered.nonempty
    revert entered
    refine recv_induction positive true (fun socket next received same kept again entered => ?_)
      (fun socket count next one asked there received same kept entered => ?_) noFailure nonempty
    · obtain ⟨last, final, returns, read⟩ :=
        again { entered with noFailure := kept, incoming := same.trans entered.incoming }
      refine ⟨last, final, Returns.of_round (fun fuel => ?_) returns, read⟩
      rw [readlineLoop, if_neg (Nat.ne_of_gt positive), received]
      rfl
    · rw [if_pos rfl] at same
      rcases Nat.lt_or_ge remaining.length count with long | short
      · exact entered.newline_round asked there received same kept long
      · obtain ⟨last, final, goesOn, reads⟩ := entered.part_round there received same kept short
        have shorter : (remaining.drop count).length < length := by
          rw [List.length_drop]
          omega
        have later := inductionHypothesis _ shorter goesOn rfl
        rw [List.append_assoc, List.take_append_drop] at later
        exact reads later

/-- A line that fits the array is read whole, and nothing else is consumed. -/
theorem readline_returns {maxSz : Nat} {body rest : Bytes} (unbroken : newline ∉ body)
    (fits : body.length + 1 ≤ maxSz - 1) {socket : Socket} (noFailure : socket.NoFailure)
    (incoming : socket.incoming = body ++ newline :: rest) {buf : Bytes}
    (size : buf.length = maxSz) :
    ∃ read : LineRead,
      Returns (fun fuel => readline fuel socket buf maxSz) (read.socket, read.buf, read.ret) ∧
      Delivered (body ++ [newline]) socket read ∧ read.socket.incoming = rest ∧
      read.socket.NoFailure ∧ read.buf.length = maxSz := by
  have entered : Entered maxSz rest body [] socket buf :=
    ⟨unbroken, noFailure, incoming, by simpa using fits, size, rfl⟩
  obtain ⟨next, final, returns, read⟩ := readlineLoop_returns entered
  have length : (body ++ [newline]).length = ([] ++ body).length + 1 := by simp
  refine ⟨⟨next, final, (body ++ [newline]).length⟩, ?_, ⟨rfl, ?_, ?_, ?_⟩, read.incoming,
    read.noFailure, read.length⟩
  · rw [length]
    exact returns
  · rw [length]
    exact read.holds
  · rw [length]
    exact read.terminated
  · rw [incoming, read.incoming, List.append_assoc, List.singleton_append]

/-! ### Successive lines -/

/-- Successive calls of `readline` into one array. -/
def readlines (fuel : Nat) (maxSz : Nat) : Nat → Socket → Bytes → Except Fault (List LineRead)
  | 0, _, _ => .ok []
  | count + 1, socket, buf => do
    let (socket, buf, ret) ← readline fuel socket buf maxSz
    let reads ← readlines fuel maxSz count socket buf
    return ⟨socket, buf, ret⟩ :: reads

/-- Every call delivers its line from the socket its predecessor left. -/
def DeliveredInOrder (rest : Bytes) : List Bytes → Socket → List LineRead → Prop
  | [], socket, reads => reads = [] ∧ socket.incoming = rest
  | line :: lines, socket, reads =>
    ∃ read later, reads = read :: later ∧ Delivered line socket read ∧
      DeliveredInOrder rest lines read.socket later

/-- A line: its only newline ends it, and it fits an array of `maxSz` bytes with the NUL. -/
def FitsLine (maxSz : Nat) (line : Bytes) : Prop :=
  (∃ body, line = body ++ [newline] ∧ newline ∉ body) ∧ line.length ≤ maxSz - 1

/-- Under every schedule of `recv` results, successive calls of `readline` return exactly the
lines that were sent, in order, and consume exactly their bytes. -/
theorem readlines_deliver {maxSz : Nat} (lines : List Bytes)
    (fit : ∀ line ∈ lines, FitsLine maxSz line) {socket : Socket} (noFailure : socket.NoFailure)
    {rest : Bytes} (incoming : socket.incoming = lines.flatten ++ rest) {buf : Bytes}
    (size : buf.length = maxSz) :
    ∃ reads, Returns (fun fuel => readlines fuel maxSz lines.length socket buf) reads ∧
      DeliveredInOrder rest lines socket reads := by
  induction lines generalizing socket buf with
  | nil => exact ⟨[], Returns.of_eq fun _ => rfl, rfl, by simpa using incoming⟩
  | cons line lines inductionHypothesis =>
    obtain ⟨⟨body, rfl, unbroken⟩, short⟩ := fit line List.mem_cons_self
    rw [List.flatten_cons, List.append_assoc, List.append_assoc, List.singleton_append] at incoming
    have bodyShort : body.length + 1 ≤ maxSz - 1 := by simpa using short
    obtain ⟨read, returns, delivered, left, kept, readSize⟩ :=
      readline_returns unbroken bodyShort noFailure incoming size
    obtain ⟨reads, laterReturn, laterDelivered⟩ :=
      inductionHypothesis (fun other member => fit other (List.mem_cons_of_mem _ member)) kept left
        readSize
    have laterReturns : Returns (fun fuel =>
        (readlines fuel maxSz lines.length read.socket read.buf).map (read :: ·))
        (read :: reads) :=
      laterReturn.after (fun fuel ended => by rw [ended]; rfl) (Returns.of_eq fun _ => rfl)
    refine ⟨read :: reads, returns.after (fun fuel ended => ?_) laterReturns, read, reads, rfl,
      delivered, laterDelivered⟩
    rw [List.length_cons, readlines, ended, ok_bind]
    dsimp only
    cases readlines fuel maxSz lines.length read.socket read.buf <;> rfl

/-- Two lines arrive byte by byte, every call after one interruption. -/
theorem readlines_deliver_trickle :
    ∃ reads, Returns (fun fuel => readlines fuel 4 2 (.trickle [97, 10, 10] 1) [0, 0, 0, 0]) reads ∧
      DeliveredInOrder [] [[97, 10], [10]] (.trickle [97, 10, 10] 1) reads := by
  refine readlines_deliver [[97, 10], [10]] (fun line member => ?_)
    (Socket.noFailure_trickle _ 1) rfl rfl
  rcases List.mem_pair.mp member with rfl | rfl
  · exact ⟨⟨[97], rfl, by decide⟩, by decide⟩
  · exact ⟨⟨[], rfl, by decide⟩, by decide⟩

end SearchEngine
