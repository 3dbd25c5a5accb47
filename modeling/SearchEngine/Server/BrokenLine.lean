/-
This file determines what `readline` returns when the stream breaks in a line.

The end of the stream, an error and a full array leave the loop for one tail, which
terminates the array at its last byte and returns the largest length there is. A
relation says how many bytes a schedule delivers before the stream breaks, for
every way the network splits it and every interruption. The main theorem is that
the length of a broken line is then never returned: the caller is handed the rest
of the array with it.
-/

import SearchEngine.Server.LineFraming

namespace SearchEngine

open Fuel

/-! ### Broken streams -/

/-- A `recv` that ends the loops: the peer has closed, or the call has failed. -/
def Received.Stops (ret : Received) : Prop := ret = .closed ∨ ret = .failed

/-- `readn` is asked for a number of bytes and leaves the second socket. -/
inductive Consumes : Socket → Nat → Socket → Prop
  | done (socket : Socket) : Consumes socket 0 socket
  | stopped {socket next : Socket} {left : Nat} {ret : Received} (positive : 0 < left)
      (received : socket.recv left false = .ok (ret, next)) (stops : ret.Stops) :
      Consumes socket left next
  | interrupted {socket next last : Socket} {left : Nat} (positive : 0 < left)
      (received : socket.recv left false = .ok (.interrupted, next))
      (later : Consumes next left last) : Consumes socket left last
  | delivered {socket next last : Socket} {left : Nat} {data : Bytes} (positive : 0 < left)
      (received : socket.recv left false = .ok (.bytes data, next))
      (later : Consumes next (left - data.length) last) : Consumes socket left last

/-- The stream of a socket breaks after some bytes, while `readline` has room for `left` bytes. -/
inductive Breaks : Socket → Nat → Bytes → Prop
  | stopped {socket next : Socket} {left : Nat} {ret : Received} (positive : 0 < left)
      (received : socket.recv left true = .ok (ret, next)) (stops : ret.Stops) :
      Breaks socket left []
  | interrupted {socket next : Socket} {left : Nat} {bytes : Bytes} (positive : 0 < left)
      (received : socket.recv left true = .ok (.interrupted, next))
      (later : Breaks next left bytes) : Breaks socket left bytes
  | delivered {socket next last : Socket} {left : Nat} {data bytes : Bytes} (positive : 0 < left)
      (received : socket.recv left true = .ok (.bytes data, next))
      (consumes : Consumes next data.length last)
      (later : Breaks last (left - data.length) bytes) : Breaks socket left (data ++ bytes)

section Recv

variable {socket next : Socket} {size : Nat} {peek : Bool} {ret : Received}

/-- What a call of `recv` leaves, and what it delivers. -/
theorem recv_eq_ok (received : socket.recv size peek = .ok (ret, next)) :
    next.peerClosed = socket.peerClosed ∧
      ((∃ data, ret = .bytes data ∧ data = socket.incoming.take data.length ∧
          data.length ≤ max 1 size ∧
          next.incoming = if peek then socket.incoming else socket.incoming.drop data.length) ∨
        (∀ data, ret ≠ .bytes data) ∧ next.incoming = socket.incoming) := by
  rw [Socket.recv] at received
  split at received
  · cases received
    exact ⟨rfl, Or.inr ⟨fun _ same => (by cases same), rfl⟩⟩
  · cases received
    exact ⟨rfl, Or.inr ⟨fun _ same => (by cases same), rfl⟩⟩
  · split at received
    · split at received
      · cases received
        exact ⟨rfl, Or.inr ⟨fun _ same => (by cases same), rfl⟩⟩
      · cases received
    · cases received
      refine ⟨rfl, Or.inl ⟨_, rfl, ?_, ?_, rfl⟩⟩
      · rw [List.length_take, ← List.take_eq_take_min]
      · rw [List.length_take]
        omega

theorem recv_bytes {data : Bytes} (received : socket.recv size peek = .ok (.bytes data, next)) :
    data = socket.incoming.take data.length ∧ data.length ≤ max 1 size ∧
      next.incoming = if peek then socket.incoming else socket.incoming.drop data.length := by
  rcases (recv_eq_ok received).2 with ⟨delivered, same, result⟩ | ⟨quiet, -⟩
  · obtain rfl := Received.bytes.inj same
    exact result
  · exact absurd rfl (quiet data)

/-- A call that delivers nothing leaves the bytes in front of the socket. -/
theorem recv_quiet (received : socket.recv size peek = .ok (ret, next))
    (quiet : ∀ data, ret ≠ .bytes data) : next.incoming = socket.incoming := by
  rcases (recv_eq_ok received).2 with ⟨data, delivered, -⟩ | ⟨-, same⟩
  · exact absurd delivered (quiet data)
  · exact same

end Recv

theorem Received.Stops.quiet {ret : Received} (stops : ret.Stops) (data : Bytes) :
    ret ≠ .bytes data := by
  rintro rfl
  rcases stops with same | same <;> cases same

theorem Consumes.incoming {socket last : Socket} {left : Nat}
    (consumes : Consumes socket left last) :
    ∃ count ≤ left, last.incoming = socket.incoming.drop count := by
  induction consumes with
  | done socket => exact ⟨0, le_rfl, rfl⟩
  | stopped positive received stops =>
    exact ⟨0, Nat.zero_le _, recv_quiet received stops.quiet⟩
  | interrupted positive received later inductionHypothesis =>
    rw [← recv_quiet received (fun _ same => by cases same)]
    exact inductionHypothesis
  | delivered positive received later inductionHypothesis =>
    obtain ⟨count, few, same⟩ := inductionHypothesis
    obtain ⟨-, asked, lost⟩ := recv_bytes received
    rw [same, lost, if_neg Bool.false_ne_true, List.drop_drop]
    exact ⟨_, by omega, rfl⟩

/-- The bytes that arrive are among those in front of the socket that `readline` has room for, and
do not fill it. -/
theorem Breaks.arrived {socket : Socket} {left : Nat} {bytes : Bytes}
    (breaks : Breaks socket left bytes) :
    bytes.length < left ∧ ∀ byte ∈ bytes, byte ∈ socket.incoming.take left := by
  induction breaks with
  | stopped positive received stops => exact ⟨positive, List.forall_mem_nil _⟩
  | interrupted positive received later inductionHypothesis =>
    rw [← recv_quiet received (fun _ same => by cases same)]
    exact inductionHypothesis
  | delivered positive received consumes later inductionHypothesis =>
    obtain ⟨fewer, among⟩ := inductionHypothesis
    obtain ⟨front, asked, same⟩ := recv_bytes received
    obtain ⟨count, few, lost⟩ := consumes.incoming
    rw [if_pos rfl] at same
    refine ⟨by rw [List.length_append]; omega, fun byte member => ?_⟩
    rcases List.mem_append.mp member with seen | coming
    · rw [front] at seen
      exact List.take_subset_take_left _ (by omega) seen
    · have behind := among byte coming
      rw [lost, same, List.take_drop] at behind
      exact List.take_subset_take_left _ (by omega) (List.mem_of_mem_drop behind)

/-! ### The loops -/

/-- A store of what is there already changes nothing. -/
theorem overwrite_same {buf data : Bytes} {position : Nat}
    (holds : (buf.drop position).take data.length = data) : overwrite buf position data = buf := by
  have behind : data ++ buf.drop (position + data.length) = buf.drop position := by
    rw [← List.drop_drop]
    exact (congrArg (· ++ _) holds.symm).trans (List.take_append_drop _ _)
  rw [overwrite, List.append_assoc, behind, List.take_append_drop]

/-- Where the array already holds the bytes that were peeked, consuming them leaves the array. -/
theorem Consumes.returns {socket last : Socket} {left : Nat} (consumes : Consumes socket left last)
    {buf : Bytes} {bufptr : Nat} (room : bufptr + left ≤ buf.length)
    (holds : (buf.drop bufptr).take left = socket.incoming.take left) :
    ∃ remaining, Returns (fun fuel => readnLoop fuel socket buf bufptr left)
      (last, buf, remaining) := by
  induction consumes generalizing bufptr with
  | done socket => exact ⟨0, Returns.of_round (fun fuel => rfl) (Returns.of_eq fun _ => rfl)⟩
  | @stopped socket next left ret positive received stops =>
    refine ⟨left, Returns.of_round (fun fuel => ?_) (Returns.of_eq fun _ => rfl)⟩
    rw [readnLoop, if_neg positive.ne', received]
    rcases stops with rfl | rfl <;> rfl
  | interrupted positive received later inductionHypothesis =>
    rw [← recv_quiet received (fun _ same => by cases same)] at holds
    obtain ⟨remaining, returns⟩ := inductionHypothesis room holds
    refine ⟨remaining, Returns.of_round (fun fuel => ?_) returns⟩
    rw [readnLoop, if_neg positive.ne', received]
    rfl
  | @delivered socket next last left data positive received later inductionHypothesis =>
    obtain ⟨front, asked, lost⟩ := recv_bytes received
    rw [if_neg Bool.false_ne_true] at lost
    have fits : data.length ≤ left := by omega
    have here : (buf.drop bufptr).take data.length = data := by
      have both := congrArg (List.take data.length) holds
      rw [List.take_take, List.take_take, Nat.min_eq_left fits] at both
      exact both.trans front.symm
    have behind : (buf.drop (bufptr + data.length)).take (left - data.length) =
        next.incoming.take (left - data.length) := by
      have both := congrArg (List.drop data.length) holds
      rw [List.drop_take, List.drop_take, List.drop_drop] at both
      rw [both, lost]
    obtain ⟨remaining, returns⟩ := inductionHypothesis (by omega) behind
    refine ⟨remaining, Returns.of_round (fun fuel => ?_) returns⟩
    rw [readnLoop, if_neg positive.ne', received]
    simp only [ok_bind]
    rw [writeAt_eq_ok (by omega), overwrite_same here]
    rfl

/-- A loop whose stream breaks returns the largest length. The array holds the bytes that arrived,
and is terminated at its last byte. -/
theorem Breaks.returns {socket : Socket} {left : Nat} {bytes : Bytes}
    (breaks : Breaks socket left bytes) (unbroken : newline ∉ bytes) {maxSz bufptr : Nat}
    {buf : Bytes} (room : bufptr + left = maxSz - 1) (size : buf.length = maxSz) :
    ∃ next final, Returns (fun fuel => readlineLoop maxSz fuel socket buf bufptr left bufptr)
        (next, final, maxSz - 1) ∧
      final.length = maxSz ∧ final.take (bufptr + bytes.length) = buf.take bufptr ++ bytes ∧
      final[maxSz - 1]? = some 0 := by
  induction breaks generalizing bufptr buf with
  | @stopped socket next left ret positive received stops =>
    have fits : maxSz - 1 + [(0 : UInt8)].length ≤ buf.length := by
      rw [List.length_singleton]
      omega
    refine ⟨next, overwrite buf (maxSz - 1) [0], Returns.of_round (fun fuel => ?_)
      (Returns.of_eq fun _ => rfl), ?_, ?_, getElem?_overwrite 0 (by omega)⟩
    · have ended : readlineEnd next buf maxSz =
          .ok (next, overwrite buf (maxSz - 1) [0], maxSz - 1) := by
        rw [readlineEnd, writeAt_eq_ok fits]
        rfl
      rw [readlineLoop, if_neg positive.ne', received]
      rcases stops with rfl | rfl <;> exact ended
    · rw [length_overwrite fits, size]
    · rw [List.length_nil, List.append_nil, take_overwrite (by omega) (by omega), Nat.add_zero]
  | interrupted positive received later inductionHypothesis =>
    obtain ⟨last, final, returns, result⟩ := inductionHypothesis unbroken room size
    refine ⟨last, final, Returns.of_round (fun fuel => ?_) returns, result⟩
    rw [readlineLoop, if_neg positive.ne', received]
    rfl
  | @delivered socket next last left data bytes positive received consumes later
      inductionHypothesis =>
    obtain ⟨front, asked, same⟩ := recv_bytes received
    rw [if_pos rfl] at same
    have fits : bufptr + data.length ≤ buf.length := by omega
    have stored : (overwrite buf bufptr data).take (bufptr + data.length) =
        buf.take bufptr ++ data := take_overwrite_end (by omega)
    have holds : ((overwrite buf bufptr data).drop bufptr).take data.length =
        next.incoming.take data.length := by
      have start : (buf.take bufptr).length = bufptr := by
        rw [List.length_take, Nat.min_eq_left (by omega)]
      rw [same, ← front, List.take_drop, stored, List.drop_left' start]
    obtain ⟨remaining, consumed⟩ :=
      consumes.returns (by rw [length_overwrite fits]; exact fits) holds
    obtain ⟨further, final, returns, length, kept, terminated⟩ := inductionHypothesis
      (fun member => unbroken (List.mem_append_right _ member))
      (show bufptr + data.length + (left - data.length) = maxSz - 1 by omega)
      (show (overwrite buf bufptr data).length = maxSz by rw [length_overwrite fits, size])
    refine ⟨further, final, Returns.of_round (fun fuel => rfl)
      (consumed.after (fun fuel ended => ?_) returns), length, ?_, terminated⟩
    · have missed : data.findIdx? (· = newline) = none := by
        rw [List.findIdx?_eq_none_iff]
        intro byte member
        simpa using fun equal : byte = newline => unbroken (List.mem_append_left _ (equal ▸ member))
      rw [readlineLoop, if_neg positive.ne', received]
      simp only [ok_bind, writeAt_eq_ok fits, missed, readn, ended]
      rw [if_neg (by omega)]
      rfl
    · rw [List.length_append, ← Nat.add_assoc, kept, stored, List.append_assoc]

/-! ### The reported length -/

/-- The call reports the line at its true length: it returns the number of bytes that arrived, and
terminates the array behind them. -/
def ReportsLength (socket : Socket) (buf : Bytes) (maxSz : Nat) (bytes : Bytes) : Prop :=
  ∃ next final,
    Returns (fun fuel => readline fuel socket buf maxSz) (next, final, bytes.length) ∧
      final[bytes.length]? = some 0

/-- `TcpConnection::receive` returns the bytes. -/
def Receives (socket : Socket) (bytes : Bytes) : Prop :=
  ∃ next, Returns (fun fuel => receive fuel socket) (next, bytes)

section Broken

variable {socket : Socket} {maxSz : Nat} {bytes : Bytes}

/-- What `readline` returns when the stream breaks in a line. -/
theorem readline_of_breaks (breaks : Breaks socket (maxSz - 1) bytes)
    (unbroken : newline ∉ socket.incoming.take (maxSz - 1)) {buf : Bytes}
    (size : buf.length = maxSz) :
    ∃ next final, Returns (fun fuel => readline fuel socket buf maxSz) (next, final, maxSz - 1) ∧
      final.length = maxSz ∧ final.take bytes.length = bytes ∧ final[maxSz - 1]? = some 0 := by
  obtain ⟨next, final, returns, length, holds, terminated⟩ :=
    breaks.returns (fun member => unbroken (breaks.arrived.2 newline member)) (Nat.zero_add _) size
  rw [Nat.zero_add, List.take_zero, List.nil_append] at holds
  exact ⟨next, final, returns, length, holds, terminated⟩

/-- `receive` hands on the whole array but its last byte, with the bytes that arrived in front. -/
theorem receive_of_breaks (breaks : Breaks socket 65535 bytes)
    (unbroken : newline ∉ socket.incoming.take 65535) :
    ∃ next text, Returns (fun fuel => receive fuel socket) (next, text) ∧
      text.length = 65535 ∧ text.take bytes.length = bytes := by
  have short := breaks.arrived.1
  obtain ⟨next, final, returns, length, holds, -⟩ :=
    readline_of_breaks breaks unbroken (List.length_replicate (n := 65536) (a := 0))
  refine ⟨next, final.take 65535, returns.after (fun fuel ended => ?_) (Returns.of_eq fun _ => rfl),
    ?_, ?_⟩
  · rw [receive, List.length_replicate, ended]
    rfl
  · rw [List.length_take, length]
    rfl
  · rw [List.take_take, Nat.min_eq_left short.le, holds]

/-- A line in which the stream breaks is never reported at its true length, whatever arrives of it
and however the network splits it. -/
theorem readline_not_reportsLength (breaks : Breaks socket (maxSz - 1) bytes)
    (unbroken : newline ∉ socket.incoming.take (maxSz - 1)) {buf : Bytes}
    (size : buf.length = maxSz) :
    ¬ ReportsLength socket buf maxSz bytes ∧ (maxSz = 65536 → ¬ Receives socket bytes) := by
  have short := breaks.arrived.1
  refine ⟨?_, ?_⟩
  · rintro ⟨other, line, reported, -⟩
    obtain ⟨next, final, returns, -⟩ := readline_of_breaks breaks unbroken size
    have same := congrArg (fun result => result.2.2) (returns.unique reported)
    dsimp only at same
    omega
  · rintro rfl ⟨other, received⟩
    obtain ⟨next, text, returns, length, -⟩ := receive_of_breaks breaks unbroken
    have same := congrArg (fun result => result.2.length) (returns.unique received)
    dsimp only at same
    omega

end Broken

/-! ### Peers that close -/

/-- Without failures `readn` consumes what it is asked for. -/
theorem consumes_of_noFailure (count : Nat) {socket : Socket} (noFailure : socket.NoFailure)
    (come : count ≤ socket.incoming.length) :
    ∃ last, Consumes socket count last ∧ last.incoming = socket.incoming.drop count ∧
      last.NoFailure ∧ last.peerClosed = socket.peerClosed := by
  induction count using Nat.strongRecOn generalizing socket with
  | ind count inductionHypothesis =>
    rcases Nat.eq_zero_or_pos count with rfl | positive
    · exact ⟨socket, .done socket, rfl, noFailure, rfl⟩
    have nonempty : socket.incoming ≠ [] := List.length_pos_iff.mp (positive.trans_le come)
    revert come
    refine recv_induction positive false (fun socket next received same kept rest come => ?_)
      (fun socket part next one asked there received lost kept come => ?_) noFailure nonempty
    · rw [← same] at come
      obtain ⟨last, consumes, incoming, quiet, closed⟩ := rest come
      rw [same] at incoming
      exact ⟨last, .interrupted positive received consumes, incoming, quiet,
        closed.trans (recv_eq_ok received).1⟩
    · rw [if_neg Bool.false_ne_true] at lost
      have length := length_peeked there
      obtain ⟨last, consumes, incoming, quiet, closed⟩ := inductionHypothesis (count - part)
        (by omega) kept (by rw [lost, List.length_drop]; omega)
      refine ⟨last, .delivered positive received ?_, ?_, quiet,
        closed.trans (recv_eq_ok received).1⟩
      · rw [length]
        exact consumes
      · rw [incoming, lost, List.drop_drop, Nat.add_sub_cancel' asked]

/-- Behind the last byte of a closed stream a call is interrupted a number of times, and stops. -/
theorem breaks_of_empty {socket : Socket} (noFailure : socket.NoFailure)
    (closed : socket.peerClosed = true) (empty : socket.incoming = []) {left : Nat}
    (positive : 0 < left) : Breaks socket left [] := by
  induction waiting : socket.attempts.head.interruptions generalizing socket with
  | zero =>
    have received : socket.recv left true =
        .ok (.closed, { socket with attempts := socket.attempts.tail }) := by
      have delivers := noFailure 0
      rw [Socket.recv]
      cases head : socket.attempts.head with
      | mk interruptions outcome =>
        obtain rfl : interruptions = 0 := by rw [← waiting, head]
        cases outcome with
        | failed => exact absurd (congrArg RecvAttempt.outcome head) delivers
        | deliver count => simp only [if_pos empty, if_pos closed]
    exact .stopped positive received (Or.inl rfl)
  | succ count inductionHypothesis =>
    have received : socket.recv left true = .ok (.interrupted, { socket with
        attempts := .cons ⟨count, socket.attempts.head.outcome⟩ socket.attempts.tail }) := by
      rw [Socket.recv]
      cases head : socket.attempts.head with
      | mk interruptions outcome =>
        obtain rfl : interruptions = count + 1 := by rw [← waiting, head]
        rfl
    exact .interrupted positive received
      (inductionHypothesis (noFailure.interrupt count) closed empty rfl)

/-- When the peer has closed, the stream breaks behind the bytes it has sent, for every way the
network splits them. -/
theorem breaks_of_peerClosed {socket : Socket} (noFailure : socket.NoFailure)
    (closed : socket.peerClosed = true) {left : Nat} (short : socket.incoming.length < left) :
    Breaks socket left socket.incoming := by
  induction measure : socket.incoming.length using Nat.strongRecOn
    generalizing socket left with
  | ind length inductionHypothesis =>
    by_cases empty : socket.incoming = []
    · rw [empty]
      exact breaks_of_empty noFailure closed empty (by omega)
    have positive : 0 < left := by omega
    revert closed short measure
    refine recv_induction positive true
      (fun socket next received same kept again closed short measure => ?_)
      (fun socket count next one asked there received same kept closed short measure => ?_)
      noFailure empty
    · rw [← same] at short measure ⊢
      exact .interrupted positive received
        (again ((recv_eq_ok received).1.trans closed) short measure)
    · rw [if_pos rfl] at same
      obtain ⟨last, consumes, incoming, quiet, still⟩ :=
        consumes_of_noFailure count kept (by rw [same]; exact there)
      rw [same] at incoming
      have rest : last.incoming.length = socket.incoming.length - count := by
        rw [incoming, List.length_drop]
      have later := inductionHypothesis _ (by omega) quiet
        ((still.trans (recv_eq_ok received).1).trans closed)
        (show last.incoming.length < left - count by omega) rfl
      have split := Breaks.delivered positive received (by rw [length_peeked there]; exact consumes)
        (by rw [length_peeked there]; exact later)
      rw [incoming, List.take_append_drop] at split
      exact split

/-- The peer sends two bytes and closes; they arrive one by one, each after an interruption. -/
def twoBytesAndClosed : Socket := ⟨[97, 98], true, (Socket.trickle [97, 98] 1).attempts⟩

theorem twoBytesAndClosed_breaks {left : Nat} (room : 2 < left) :
    Breaks twoBytesAndClosed left [97, 98] := by
  have quiet : twoBytesAndClosed.NoFailure := Socket.noFailure_trickle [97, 98] 1
  exact breaks_of_peerClosed quiet rfl room

theorem readline_not_reportsLength_twoBytes :
    ¬ ReportsLength twoBytesAndClosed (List.replicate 8 0) 8 [97, 98] ∧
      (8 = 65536 → ¬ Receives twoBytesAndClosed [97, 98]) :=
  readline_not_reportsLength (twoBytesAndClosed_breaks (by decide)) (by decide) rfl

/-- `receive` returns 65535 bytes for the two. -/
theorem twoBytesAndClosed_padded :
    ¬ Receives twoBytesAndClosed [97, 98] ∧
      ∃ next text, Returns (fun fuel => receive fuel twoBytesAndClosed) (next, text) ∧
        text.length = 65535 := by
  have unbroken : newline ∉ twoBytesAndClosed.incoming.take 65535 := by
    intro member
    exact absurd (List.mem_of_mem_take member) (by decide)
  obtain ⟨next, text, returns, length, -⟩ :=
    receive_of_breaks (twoBytesAndClosed_breaks (by decide)) unbroken
  refine ⟨?_, next, text, returns, length⟩
  rintro ⟨other, received⟩
  have same : text.length = [(97 : UInt8), 98].length :=
    congrArg (fun result => result.2.length) (returns.unique received)
  rw [length] at same
  exact absurd same (by decide)

end SearchEngine
