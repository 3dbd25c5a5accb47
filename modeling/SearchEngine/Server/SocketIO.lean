/-
This file models `SocketIO::readn` and `SocketIO::readline` over a socket whose
every `recv` is decided by a schedule.

A schedule fixes, call by call, how often the call is interrupted before it
succeeds and how many bytes it then delivers; the number is cut to what was
asked for and what is there, so every split of the stream is some schedule. The
caller's array is explicit, and a store outside it is a fault. The result is
that a line is read whole under every schedule: a peek loop and a consuming loop
run over the same stream, and the invariant says that the array holds what the
socket has lost.
-/

import SearchEngine.Basic
import SearchEngine.Library.Fuel

namespace SearchEngine

open Fuel

/-! ### Sockets -/

/-- How a `recv` ends once it is no longer interrupted. -/
inductive RecvOutcome where
  /-- it may deliver this many bytes -/
  | deliver (count : Nat)
  /-- it returns -1 with an `errno` other than `EINTR` -/
  | failed
  deriving DecidableEq

/-- One call of `recv`: it returns -1 with `EINTR` a number of times before its outcome. -/
structure RecvAttempt where
  interruptions : Nat
  outcome : RecvOutcome

/-- A connected socket: the bytes the peer has sent and `recv` has not consumed, whether the
peer closes behind them, and the coming calls of `recv`. -/
structure Socket where
  incoming : Bytes
  peerClosed : Bool
  attempts : Stream' RecvAttempt

/-- What a call of `recv` returns. -/
inductive Received where
  | bytes (data : Bytes)
  | closed
  | interrupted
  | failed

/-- `recv(_fd, ptr, size, peek ? MSG_PEEK : 0)`. -/
def Socket.recv (socket : Socket) (size : Nat) (peek : Bool) :
    Except Fault (Received × Socket) :=
  match socket.attempts.head with
  | ⟨count + 1, outcome⟩ =>
    .ok (.interrupted, { socket with attempts := .cons ⟨count, outcome⟩ socket.attempts.tail })
  | ⟨0, .failed⟩ => .ok (.failed, { socket with attempts := socket.attempts.tail })
  | ⟨0, .deliver count⟩ =>
    if socket.incoming = [] then
      if socket.peerClosed then .ok (.closed, { socket with attempts := socket.attempts.tail })
      else .error .noReturn
    else
      let data := socket.incoming.take (max 1 (min count size))
      .ok (.bytes data,
        { socket with
          incoming := if peek then socket.incoming else socket.incoming.drop data.length
          attempts := socket.attempts.tail })

/-- An array with the bytes from a position on replaced. -/
def overwrite (buf : Bytes) (position : Nat) (data : Bytes) : Bytes :=
  buf.take position ++ data ++ buf.drop (position + data.length)

/-- Store bytes in an array. -/
def writeAt (buf : Bytes) (position : Nat) (data : Bytes) : Except Fault Bytes :=
  if position + data.length ≤ buf.length then .ok (overwrite buf position data)
  else .error .outOfBounds

/-! ### The two loops -/

/-- The loop of `SocketIO::readn`; it returns the socket, the array and `left`. -/
def readnLoop : Nat → Socket → Bytes → Nat → Nat → Except Fault (Socket × Bytes × Nat)
  | 0, _, _, _, _ => .error .noReturn
  | fuel + 1, socket, buf, bufptr, left =>
    if left = 0 then .ok (socket, buf, left)
    else do
      let (ret, socket) ← socket.recv left false
      match ret with
      | .closed => return (socket, buf, left)
      | .interrupted => readnLoop fuel socket buf bufptr left
      | .failed => return (socket, buf, left)
      | .bytes data =>
        let buf ← writeAt buf bufptr data
        readnLoop fuel socket buf (bufptr + data.length) (left - data.length)

/-- `SocketIO::readn` into `buf + bufptr`. -/
def readn (fuel : Nat) (socket : Socket) (buf : Bytes) (bufptr size : Nat) :
    Except Fault (Socket × Bytes × Nat) := do
  let (socket, buf, left) ← readnLoop fuel socket buf bufptr size
  return (socket, buf, size - left)

/-- `buf[maxSz - 1] = '\0'; return maxSz - 1;` -/
def readlineEnd (socket : Socket) (buf : Bytes) (maxSz : Nat) :
    Except Fault (Socket × Bytes × Nat) := do
  let buf ← writeAt buf (maxSz - 1) [0]
  return (socket, buf, maxSz - 1)

/-- The loop of `SocketIO::readline`; it returns the socket, the array and the return value. -/
def readlineLoop (maxSz : Nat) :
    Nat → Socket → Bytes → Nat → Nat → Nat → Except Fault (Socket × Bytes × Nat)
  | 0, _, _, _, _, _ => .error .noReturn
  | fuel + 1, socket, buf, bufptr, left, total =>
    if left = 0 then readlineEnd socket buf maxSz
    else do
      let (ret, socket) ← socket.recv left true
      match ret with
      | .closed => readlineEnd socket buf maxSz
      | .interrupted => readlineLoop maxSz fuel socket buf bufptr left total
      | .failed => readlineEnd socket buf maxSz
      | .bytes data =>
        let buf ← writeAt buf bufptr data
        let total := if data.length + total > maxSz - 1 then maxSz - 1 - data.length else total
        match data.findIdx? (· = newline) with
        | some i =>
          let sz := i + 1
          let (socket, buf, _) ← readn fuel socket buf bufptr sz
          let buf ← writeAt buf (bufptr + sz) [0]
          return (socket, buf, total + sz)
        | none =>
          let (socket, buf, _) ← readn fuel socket buf bufptr data.length
          readlineLoop maxSz fuel socket buf (bufptr + data.length) (left - data.length)
            (total + data.length)

/-- `SocketIO::readline` -/
def readline (fuel : Nat) (socket : Socket) (buf : Bytes) (maxSz : Nat) :
    Except Fault (Socket × Bytes × Nat) :=
  readlineLoop maxSz fuel socket buf 0 (maxSz - 1) 0

/-- `TcpConnection::receive` -/
def receive (fuel : Nat) (socket : Socket) : Except Fault (Socket × Bytes) := do
  let buf := List.replicate 65536 0
  let (socket, buf, ret) ← readline fuel socket buf buf.length
  return (socket, buf.take ret)

/-! ### Stores -/

theorem writeAt_eq_ok {buf data : Bytes} {position : Nat}
    (fits : position + data.length ≤ buf.length) :
    writeAt buf position data = .ok (overwrite buf position data) := by
  rw [writeAt, if_pos fits]

theorem length_overwrite {buf data : Bytes} {position : Nat}
    (fits : position + data.length ≤ buf.length) :
    (overwrite buf position data).length = buf.length := by
  simp only [overwrite, List.length_append, List.length_take, List.length_drop]
  omega

/-- A store leaves what is in front of it. -/
theorem take_overwrite {buf data : Bytes} {position count : Nat} (before : count ≤ position)
    (fits : position ≤ buf.length) :
    (overwrite buf position data).take count = buf.take count := by
  have length : count ≤ (buf.take position).length := by
    rw [List.length_take]
    omega
  rw [overwrite, List.append_assoc, List.take_append_of_le_length length, List.take_take,
    Nat.min_eq_left before]

/-- What an array holds up to the end of a store. -/
theorem take_overwrite_end {buf data : Bytes} {position : Nat} (fits : position ≤ buf.length) :
    (overwrite buf position data).take (position + data.length) =
      buf.take position ++ data := by
  have length : (buf.take position ++ data).length = position + data.length := by
    rw [List.length_append, List.length_take, Nat.min_eq_left fits]
  rw [overwrite, ← length, List.take_left]

/-- What an array holds behind a store. -/
theorem drop_overwrite {buf data : Bytes} {position count : Nat} (fits : position ≤ buf.length) :
    (overwrite buf position data).drop (position + data.length + count) =
      buf.drop (position + data.length + count) := by
  have length : (buf.take position ++ data).length = position + data.length := by
    rw [List.length_append, List.length_take, Nat.min_eq_left fits]
  rw [overwrite, ← List.drop_drop, ← length, List.drop_left, List.drop_drop, length]

/-- Two stores in a row are one. -/
theorem overwrite_append {buf first second : Bytes} {position : Nat}
    (fits : position ≤ buf.length) :
    overwrite (overwrite buf position first) (position + first.length) second =
      overwrite buf position (first ++ second) := by
  conv_lhs => rw [overwrite, take_overwrite_end fits, drop_overwrite fits]
  rw [overwrite, List.length_append, ← Nat.add_assoc, List.append_assoc (buf.take position)]

theorem getElem?_overwrite {buf : Bytes} {position : Nat} (byte : UInt8)
    (fits : position ≤ buf.length) : (overwrite buf position [byte])[position]? = some byte := by
  have length : (buf.take position).length = position := by
    rw [List.length_take, Nat.min_eq_left fits]
  rw [overwrite, List.append_assoc, List.getElem?_append_right (Nat.le_of_eq length), length,
    Nat.sub_self]
  rfl

/-! ### One call of `recv` -/

/-- No call of `recv` on the socket fails. -/
def Socket.NoFailure (socket : Socket) : Prop :=
  ∀ index, (socket.attempts.get index).outcome ≠ .failed

theorem Socket.NoFailure.tail {socket : Socket} (noFailure : socket.NoFailure)
    (incoming : Bytes) :
    ({ socket with incoming, attempts := socket.attempts.tail } : Socket).NoFailure :=
  fun index => noFailure (index + 1)

theorem Socket.NoFailure.interrupt {socket : Socket} (noFailure : socket.NoFailure)
    (count : Nat) :
    ({ socket with
      attempts := .cons ⟨count, socket.attempts.head.outcome⟩ socket.attempts.tail } :
        Socket).NoFailure := by
  intro index
  cases index with
  | zero => exact noFailure 0
  | succ index => exact noFailure (index + 1)

/-- A socket whose calls of `recv` deliver one byte each, after a number of interruptions. -/
def Socket.trickle (incoming : Bytes) (interruptions : Nat) : Socket :=
  ⟨incoming, false, Stream'.const ⟨interruptions, .deliver 1⟩⟩

theorem Socket.noFailure_trickle (incoming : Bytes) (interruptions : Nat) :
    (Socket.trickle incoming interruptions).NoFailure := by
  intro index
  simp [Socket.trickle, Stream'.get, Stream'.const]

/-- While bytes are left, a call is interrupted, which uses up one of its interruptions, or
delivers between one byte and what was asked for. -/
theorem recv_cases {socket : Socket} (noFailure : socket.NoFailure)
    (nonempty : socket.incoming ≠ []) {size : Nat} (positive : 0 < size) (peek : Bool) :
    (∃ next, socket.recv size peek = .ok (.interrupted, next) ∧
      next.incoming = socket.incoming ∧ next.NoFailure ∧
      next.attempts.head.interruptions + 1 = socket.attempts.head.interruptions) ∨
    (∃ count next, 0 < count ∧ count ≤ size ∧ count ≤ socket.incoming.length ∧
      socket.recv size peek = .ok (.bytes (socket.incoming.take count), next) ∧
      next.incoming = (if peek then socket.incoming else socket.incoming.drop count) ∧
      next.NoFailure) := by
  cases head : socket.attempts.head with
  | mk interruptions outcome =>
    cases interruptions with
    | succ count =>
      have kept := noFailure.interrupt count
      rw [head] at kept
      refine Or.inl ⟨{ socket with attempts := .cons ⟨count, outcome⟩ socket.attempts.tail },
        ?_, rfl, kept, rfl⟩
      simp only [Socket.recv, head]
    | zero =>
      cases outcome with
      | failed => exact absurd (congrArg RecvAttempt.outcome head) (noFailure 0)
      | deliver count =>
        have available : 0 < socket.incoming.length := List.length_pos_iff.mpr nonempty
        have length : (socket.incoming.take (max 1 (min count size))).length =
            min (max 1 (min count size)) socket.incoming.length := List.length_take
        refine Or.inr ⟨min (max 1 (min count size)) socket.incoming.length,
          { socket with
            incoming := if peek then socket.incoming else
              socket.incoming.drop (min (max 1 (min count size)) socket.incoming.length)
            attempts := socket.attempts.tail },
          by omega, by omega, Nat.min_le_right _ _, ?_, rfl, noFailure.tail _⟩
        simp only [Socket.recv, head, if_neg nonempty, length]
        rw [← List.take_eq_take_min]

/-- The rule for loops around `recv`: a call that is interrupted leaves the same bytes, and after
finitely many interruptions a call delivers. -/
@[elab_as_elim]
theorem recv_induction {size : Nat} (positive : 0 < size) (peek : Bool) {motive : Socket → Prop}
    (interrupted : ∀ socket next, socket.recv size peek = .ok (.interrupted, next) →
      next.incoming = socket.incoming → next.NoFailure → motive next → motive socket)
    (delivered : ∀ socket count next, 0 < count → count ≤ size →
      count ≤ socket.incoming.length →
      socket.recv size peek = .ok (.bytes (socket.incoming.take count), next) →
      next.incoming = (if peek then socket.incoming else socket.incoming.drop count) →
      next.NoFailure → motive socket)
    {socket : Socket} (noFailure : socket.NoFailure) (nonempty : socket.incoming ≠ []) :
    motive socket := by
  induction waiting : socket.attempts.head.interruptions using Nat.strongRecOn
    generalizing socket with
  | ind left again =>
    rcases recv_cases noFailure nonempty positive peek with
      ⟨next, received, same, kept, used⟩ |
        ⟨count, next, one, asked, there, received, lost, kept⟩
    · have sooner : next.attempts.head.interruptions < left := by omega
      exact interrupted socket next received same kept
        (again _ sooner kept (by rw [same]; exact nonempty) rfl)
    · exact delivered socket count next one asked there received lost kept

/-! ### Reading a number of bytes -/

/-- What `readn` has done when it has read `size` bytes. -/
structure ReadAll (socket : Socket) (buf : Bytes) (bufptr size : Nat) (next : Socket)
    (final : Bytes) : Prop where
  incoming : next.incoming = socket.incoming.drop size
  noFailure : next.NoFailure
  length : final.length = buf.length
  holds : final.take (bufptr + size) = buf.take bufptr ++ socket.incoming.take size

/-- Reading some bytes and then the others is reading all of them. -/
theorem ReadAll.append {socket : Socket} {buf : Bytes} {bufptr count left : Nat} {next last : Socket}
    {final : Bytes} (asked : count ≤ left) (there : count ≤ socket.incoming.length)
    (fits : bufptr + (socket.incoming.take count).length ≤ buf.length)
    (lost : next.incoming = socket.incoming.drop count)
    (later : ReadAll next (overwrite buf bufptr (socket.incoming.take count)) (bufptr + count)
      (left - count) last final) :
    ReadAll socket buf bufptr left last final where
  incoming := by rw [later.incoming, lost, List.drop_drop, Nat.add_sub_cancel' asked]
  noFailure := later.noFailure
  length := by rw [later.length, length_overwrite fits]
  holds := by
    have length : (socket.incoming.take count).length = count := by
      rw [List.length_take, Nat.min_eq_left there]
    have stored : (overwrite buf bufptr (socket.incoming.take count)).take
        (bufptr + (socket.incoming.take count).length) = _ :=
      take_overwrite_end (by omega)
    rw [length] at stored
    have holds := later.holds
    rw [Nat.add_assoc, Nat.add_sub_cancel' asked] at holds
    rw [holds, stored, lost, List.append_assoc, ← List.take_add, Nat.add_sub_cancel' asked]

/-- `readn` reads what it is asked for when the bytes come and the array has room. -/
theorem readnLoop_returns (left : Nat) {socket : Socket} (noFailure : socket.NoFailure)
    (come : left ≤ socket.incoming.length) {buf : Bytes} {bufptr : Nat}
    (room : bufptr + left ≤ buf.length) :
    ∃ next final, Returns (fun fuel => readnLoop fuel socket buf bufptr left) (next, final, 0) ∧
      ReadAll socket buf bufptr left next final := by
  induction left using Nat.strongRecOn generalizing socket buf bufptr with
  | ind left inductionHypothesis =>
    rcases Nat.eq_zero_or_pos left with rfl | positive
    · refine ⟨socket, buf, Returns.of_round (fun fuel => ?_) (Returns.of_eq fun _ => rfl),
        rfl, noFailure, rfl, by simp⟩
      rw [readnLoop, if_pos rfl]
    · have nonempty : socket.incoming ≠ [] := by
        intro empty
        rw [empty] at come
        exact absurd positive (Nat.not_lt.mpr come)
      revert come
      refine recv_induction positive false (fun socket next received same kept rest come => ?_)
        (fun socket count next one asked there received lost kept come => ?_) noFailure nonempty
      · rw [← same] at come
        obtain ⟨last, final, returns, all⟩ := rest come
        have incoming := all.incoming
        have holds := all.holds
        rw [same] at incoming holds
        refine ⟨last, final, Returns.of_round (fun fuel => ?_) returns,
          incoming, all.noFailure, all.length, holds⟩
        rw [readnLoop, if_neg (Nat.ne_of_gt positive), received]
        rfl
      · rw [if_neg Bool.false_ne_true] at lost
        have length : (socket.incoming.take count).length = count := by
          rw [List.length_take, Nat.min_eq_left there]
        have fits : bufptr + (socket.incoming.take count).length ≤ buf.length := by omega
        have remaining : left - count ≤ next.incoming.length := by
          rw [lost, List.length_drop]
          omega
        have space : bufptr + count + (left - count) ≤
            (overwrite buf bufptr (socket.incoming.take count)).length := by
          rw [length_overwrite fits]
          omega
        obtain ⟨last, final, returns, later⟩ :=
          inductionHypothesis (left - count) (by omega) kept remaining space
        refine ⟨last, final, Returns.of_round (fun fuel => ?_) returns,
          later.append asked there fits lost⟩
        rw [readnLoop, if_neg (Nat.ne_of_gt positive), received]
        simp only [ok_bind, writeAt_eq_ok fits, length]

theorem readn_returns (size : Nat) {socket : Socket} (noFailure : socket.NoFailure)
    (come : size ≤ socket.incoming.length) {buf : Bytes} {bufptr : Nat}
    (room : bufptr + size ≤ buf.length) :
    ∃ next final, Returns (fun fuel => readn fuel socket buf bufptr size) (next, final, size) ∧
      ReadAll socket buf bufptr size next final := by
  obtain ⟨next, final, returns, result⟩ := readnLoop_returns size noFailure come room
  refine ⟨next, final, returns.after (fun fuel ended => ?_) (Returns.of_eq fun _ => rfl), result⟩
  rw [readn, ended]
  rfl

end SearchEngine
