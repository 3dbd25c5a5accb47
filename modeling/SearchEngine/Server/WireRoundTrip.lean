/-
This file determines which requests survive the way from the client to the
server.

The binary header travels inside newline-delimited framing, so a newline among
the bytes of the length field ends the request early. The server then reads an
operator id of zero out of its cleared array. The last branch of the dispatch
assigns instead of comparing, so an id without a handler runs the last one. The
main theorem says that these are the only failures.
-/

import SearchEngine.Server.LineFraming
import SearchEngine.Server.MyTask

namespace SearchEngine

open Fuel

/-! ### What the client sends -/

/-- The header `pack` puts in front of the query. -/
def header (line : Bytes) (op : UInt32) : Bytes := leBytes 4 line.length ++ leBytes 4 op.toNat

@[simp] theorem length_header (line : Bytes) (op : UInt32) : (header line op).length = 8 := by
  simp [header]

/-- The client sends the header, the query and a newline. -/
theorem pack_eq_ok {line : Bytes} (short : line.length ≤ 4088) (op : UInt32) :
    pack line op [] = .ok (header line op ++ line ++ [newline]) := by
  have lengthFits : 0 + (leBytes 4 line.length).length ≤ cleared.length := by simp
  have idFits : 4 + (leBytes 4 op.toNat).length ≤
      (overwrite cleared 0 (leBytes 4 line.length)).length := by
    rw [length_overwrite lengthFits]
    simp
  have lineFits : 8 + line.length ≤ (overwrite cleared 0 (header line op)).length := by
    rw [length_overwrite (by simp), length_cleared]
    omega
  have fields : overwrite (overwrite cleared 0 (leBytes 4 line.length))
      (0 + (leBytes 4 line.length).length) (leBytes 4 op.toNat) =
        overwrite cleared 0 (header line op) := overwrite_append (Nat.zero_le _)
  rw [length_leBytes] at fields
  have request : overwrite (overwrite cleared 0 (header line op))
      (0 + (header line op).length) line = overwrite cleared 0 (header line op ++ line) :=
    overwrite_append (Nat.zero_le _)
  rw [length_header] at request
  have sent : (overwrite cleared 0 (header line op ++ line)).take
      (0 + (header line op ++ line).length) = [] ++ (header line op ++ line) :=
    take_overwrite_end (Nat.zero_le _)
  rw [List.length_append, length_header, Nat.zero_add, List.nil_append] at sent
  rw [pack, writeAt_eq_ok lengthFits, ok_bind, writeAt_eq_ok idFits, ok_bind, fields,
    writeAt_eq_ok lineFits, ok_bind, request, sent]
  rfl

/-! ### What the server parses -/

theorem toInt_leValue_length {line : Bytes} (short : line.length ≤ 4088) :
    toInt (leValue (leBytes 4 line.length)) = line.length := by
  rw [leValue_leBytes 4 (by omega), toInt_of_lt (by omega)]

theorem ofNat_leValue_operator (op : UInt32) : UInt32.ofNat (leValue (leBytes 4 op.toNat)) = op := by
  rw [leValue_leBytes 4 op.toNat_lt, UInt32.ofNat_toNat]

/-- Copying into a cleared array, which has room for what is left of the request. -/
theorem copyBytes_cleared {request : Bytes} {count idx : Nat} (size : request.length = 4096)
    (inside : idx + count ≤ 4096) :
    copyBytes request count cleared 0 idx =
      .ok ((request.drop idx).take count ++ List.replicate (4096 - count) 0, idx + count) := by
  have length : ((request.drop idx).take count).length = count := by
    rw [List.length_take, List.length_drop]
    omega
  rw [copyBytes_eq_ok count (by omega) (by rw [length_cleared]; omega), overwrite_cleared,
    length]

/-- The first two fields of a request that the array holds. -/
theorem parse_eq_bind {request : Bytes} (fits : request.length ≤ 4096) :
    parse request =
      (let held := request ++ List.replicate (4096 - request.length) 0
      let msgLen := toInt (leValue (held.take 4))
      let operatorId := UInt32.ofNat (leValue ((held.drop 4).take 4))
      copyBytes held msgLen.toNat cleared 0 8 >>= fun copied =>
        cString copied.1 >>= fun msgContent => .ok ⟨msgLen, operatorId, msgContent⟩) := by
  have size : (request ++ List.replicate (4096 - request.length) (0 : UInt8)).length = 4096 := by
    rw [List.length_append, List.length_replicate]
    omega
  have field (idx : Nat) (inside : idx + 4 ≤ 4096) :
      ((((request ++ List.replicate (4096 - request.length) (0 : UInt8)).drop idx).take 4) ++
        List.replicate (4096 - 4) 0).take 4 =
        ((request ++ List.replicate (4096 - request.length) 0).drop idx).take 4 := by
    rw [List.take_append_of_le_length, List.take_take]
    · rfl
    · rw [List.length_take, List.length_drop]
      omega
  rw [parse, writeAt_eq_ok (by rw [length_cleared]; omega), ok_bind, overwrite_cleared,
    copyBytes_cleared size (by norm_num), ok_bind]
  dsimp only
  rw [copyBytes_cleared size (by norm_num), ok_bind]
  dsimp only
  rw [field 0 (by norm_num), field 4 (by norm_num)]
  rfl

/-- A request that arrives whole is parsed into what the client packed. -/
theorem parse_header_append {line : Bytes} (noNul : 0 ∉ line) (short : line.length ≤ 4088)
    (op : UInt32) : parse (header line op ++ line) = .ok ⟨line.length, op, line⟩ := by
  have length : (header line op ++ line).length = 8 + line.length := by
    rw [List.length_append, length_header]
  have lengthField : ((header line op ++ line) ++
      List.replicate (4096 - (header line op ++ line).length) 0).take 4 =
        leBytes 4 line.length := by
    rw [header, List.append_assoc, List.append_assoc]
    exact List.take_left' (length_leBytes 4 _)
  have idField : (((header line op ++ line) ++
      List.replicate (4096 - (header line op ++ line).length) 0).drop 4).take 4 =
        leBytes 4 op.toNat := by
    rw [header, List.append_assoc, List.append_assoc, List.drop_left' (length_leBytes 4 _),
      List.append_assoc]
    exact List.take_left' (length_leBytes 4 _)
  have content : (((header line op ++ line) ++
      List.replicate (4096 - (header line op ++ line).length) 0).drop 8).take line.length =
        line := by
    rw [List.append_assoc, List.drop_left' (length_header line op)]
    exact List.take_left
  have size : ((header line op ++ line) ++
      List.replicate (4096 - (header line op ++ line).length) (0 : UInt8)).length = 4096 := by
    rw [List.length_append, List.length_replicate, length]
    omega
  rw [parse_eq_bind (by rw [length]; omega)]
  dsimp only
  rw [lengthField, idField, toInt_leValue_length short, ofNat_leValue_operator, Int.toNat_natCast,
    copyBytes_cleared size (by omega), ok_bind, content, cString_eq_ok noNul (by omega), ok_bind]

/-- A request that ends inside the length field has the operator id zero. -/
theorem operatorId_of_parse_short {request : Bytes} (short : request.length ≤ 4)
    {message : Message} (parsed : parse request = .ok message) : message.operatorId = 0 := by
  have idField : ((request ++ List.replicate (4096 - request.length) (0 : UInt8)).drop 4).take 4 =
      List.replicate 4 0 := by
    rw [List.drop_append, List.drop_eq_nil_of_le short, List.nil_append, List.drop_replicate,
      List.take_replicate]
    congr 1
    omega
  rw [parse_eq_bind (by omega)] at parsed
  dsimp only at parsed
  rw [idField, leValue_replicate_zero] at parsed
  obtain ⟨copied, -, parsed⟩ := bind_eq_ok.mp parsed
  obtain ⟨content, -, parsed⟩ := bind_eq_ok.mp parsed
  rw [← Except.ok.inj parsed]
  rfl

/-! ### From the socket to the handler -/

theorem receive_returns {body rest : Bytes} (unbroken : newline ∉ body)
    (fits : body.length + 1 ≤ 65535) {socket : Socket} (noFailure : socket.NoFailure)
    (incoming : socket.incoming = body ++ newline :: rest) :
    ∃ next, Returns (fun fuel => receive fuel socket) (next, body ++ [newline]) := by
  obtain ⟨read, returns, delivered, -⟩ :=
    readline_returns unbroken (by simpa using fits) noFailure incoming
      (List.length_replicate : (List.replicate 65536 (0 : UInt8)).length = 65536)
  refine ⟨read.socket, returns.after (fun fuel ended => ?_) (Returns.of_eq fun _ => rfl)⟩
  rw [receive]
  dsimp only
  rw [List.length_replicate, ended, ok_bind]
  dsimp only
  rw [delivered.ret, delivered.holds]
  rfl

/-- A request is served with what its first line is parsed into. -/
theorem serve_returns_iff {body rest : Bytes} (unbroken : newline ∉ body)
    (fits : body.length + 1 ≤ 65535) {socket : Socket} (noFailure : socket.NoFailure)
    (incoming : socket.incoming = body ++ newline :: rest) (served : Served) :
    (∃ next, Returns (fun fuel => serve fuel socket) (next, served)) ↔
      ∃ message, parse body = .ok message ∧
        served = ⟨message.operatorId, message.msgContent, dispatch message.operatorId⟩ := by
  obtain ⟨next, returns⟩ := receive_returns unbroken fits noFailure incoming
  have popped : popBack (body ++ [newline]) = .ok body := by simp [popBack]
  have serve_eq (fuel : Nat) (ended : receive fuel socket = .ok (next, body ++ [newline])) :
      serve fuel socket = (parse body >>= fun message =>
        .ok (next, ⟨message.operatorId, message.msgContent, dispatch message.operatorId⟩)) := by
    rw [serve, ended, ok_bind]
    dsimp only
    rw [process, popped, ok_bind]
    cases parse body with
    | error fault => rfl
    | ok message => rfl
  constructor
  · rintro ⟨last, serveReturns⟩
    obtain ⟨bound, ends⟩ := returns
    obtain ⟨serveBound, serveEnds⟩ := serveReturns
    have both : serve (max bound serveBound) socket = .ok (last, served) :=
      serveEnds _ (le_max_right _ _)
    rw [serve_eq _ (ends _ (le_max_left _ _))] at both
    obtain ⟨message, parsed, result⟩ := bind_eq_ok.mp both
    exact ⟨message, parsed, (Prod.mk.inj (Except.ok.inj result)).2.symm⟩
  · rintro ⟨message, parsed, rfl⟩
    refine ⟨next, returns.after (fun fuel ended => ?_) (Returns.of_eq fun _ => rfl)⟩
    rw [serve_eq fuel ended, parsed, ok_bind]

/-! ### The round trip -/

/-- The handler an operator id stands for. -/
def handlerOf (op : UInt32) : Option Handler :=
  if op = 1 then some .recommend
  else if op = 2 then some .search
  else if op = 3 then some .randDict
  else if op = 4 then some .solitaire
  else none

/-- The operator id has a handler. -/
def HasHandler (op : UInt32) : Prop := op = 1 ∨ op = 2 ∨ op = 3 ∨ op = 4

instance (op : UInt32) : Decidable (HasHandler op) := inferInstanceAs (Decidable (_ ∨ _))

/-- The length field has no newline among its bytes. -/
def LengthUnbroken (line : Bytes) : Prop := line.length % 256 ≠ 10 ∧ line.length / 256 ≠ 10

instance (line : Bytes) : Decidable (LengthUnbroken line) := inferInstanceAs (Decidable (_ ∧ _))

theorem dispatch_isSome (op : UInt32) : (dispatch op).isSome := by
  simp only [dispatch]
  split_ifs <;> first | rfl | contradiction

theorem handlerOf_isSome_iff (op : UInt32) : (handlerOf op).isSome ↔ HasHandler op := by
  simp only [handlerOf, HasHandler]
  split_ifs <;> simp_all

theorem dispatch_eq_handlerOf {op : UInt32} (known : HasHandler op) :
    dispatch op = handlerOf op := by
  rcases known with rfl | rfl | rfl | rfl <;> rfl

theorem newline_notMem_operator {op : UInt32} (known : HasHandler op) :
    newline ∉ leBytes 4 op.toNat := by
  rcases known with rfl | rfl | rfl | rfl <;> decide

theorem newline_mem_length_iff {line : Bytes} (short : line.length ≤ 4088) :
    newline ∈ leBytes 4 line.length ↔ ¬ LengthUnbroken line := by
  have byte_eq (number : Nat) : newline = UInt8.ofNat number ↔ number % 256 = 10 := by
    rw [← UInt8.toNat_inj, UInt8.toNat_ofNat', eq_comm]
    rfl
  simp only [leBytes, List.mem_cons, List.not_mem_nil, or_false, byte_eq, LengthUnbroken]
  omega

/-- A request whose length field holds a newline loses its operator id. -/
theorem operatorId_of_broken {line : Bytes} {op : UInt32} (short : line.length ≤ 4088)
    (broken : ¬ LengthUnbroken line) {socket : Socket} (noFailure : socket.NoFailure)
    {rest : Bytes} (incoming : socket.incoming = header line op ++ line ++ [newline] ++ rest)
    {next : Socket} {served : Served}
    (returns : Returns (fun fuel => serve fuel socket) (next, served)) : served.operatorId = 0 := by
  obtain ⟨body, more, split, unbroken⟩ :=
    List.eq_append_cons_of_mem ((newline_mem_length_iff short).mpr broken)
  have bodyShort : body.length + 1 ≤ 4 := by
    have length := congrArg List.length split
    rw [length_leBytes, List.length_append, List.length_cons] at length
    omega
  rw [header, split, List.append_assoc, List.append_assoc, List.append_assoc, List.append_assoc,
    List.cons_append] at incoming
  obtain ⟨message, parsed, rfl⟩ :=
    (serve_returns_iff unbroken (by omega) noFailure incoming served).mp ⟨next, returns⟩
  exact operatorId_of_parse_short (by omega) parsed

/-- Every request that is served runs a handler. -/
theorem handler_isSome {socket next : Socket} {served : Served}
    (returns : Returns (fun fuel => serve fuel socket) (next, served)) : served.handler.isSome := by
  obtain ⟨bound, ends⟩ := returns
  have ended : serve bound socket = .ok (next, served) := ends bound le_rfl
  rw [serve] at ended
  obtain ⟨received, -, ended⟩ := bind_eq_ok.mp ended
  obtain ⟨processed, fromProcess, ended⟩ := bind_eq_ok.mp ended
  rw [process] at fromProcess
  obtain ⟨request, -, fromProcess⟩ := bind_eq_ok.mp fromProcess
  obtain ⟨message, -, fromProcess⟩ := bind_eq_ok.mp fromProcess
  rw [← Except.ok.inj fromProcess] at ended
  rw [← (Prod.mk.inj (Except.ok.inj ended)).2]
  exact dispatch_isSome message.operatorId

/-- A request whose header holds no newline is served as it was packed. -/
theorem serve_unbroken {line : Bytes} (unbroken : newline ∉ line) (noNul : 0 ∉ line)
    (short : line.length ≤ 4088) {op : UInt32} (known : HasHandler op)
    (framed : LengthUnbroken line) {socket : Socket} (noFailure : socket.NoFailure)
    {rest : Bytes} (incoming : socket.incoming = header line op ++ line ++ [newline] ++ rest) :
    ∃ next, Returns (fun fuel => serve fuel socket) (next, ⟨op, line, handlerOf op⟩) := by
  have whole : newline ∉ header line op ++ line := by
    rw [header, List.mem_append, List.mem_append, newline_mem_length_iff short, not_or, not_or,
      not_not]
    exact ⟨⟨framed, newline_notMem_operator known⟩, unbroken⟩
  have fits : (header line op ++ line).length + 1 ≤ 65535 := by
    rw [List.length_append, length_header]
    omega
  rw [List.append_assoc] at incoming
  refine (serve_returns_iff whole fits noFailure incoming _).mpr
    ⟨_, parse_header_append noNul short op, ?_⟩
  rw [dispatch_eq_handlerOf known]

/-- The server recovers a request and runs its handler exactly when the operator id has a handler
and the length field has no newline among its bytes. -/
theorem serve_roundTrip_iff {line : Bytes} (unbroken : newline ∉ line) (noNul : 0 ∉ line)
    (short : line.length ≤ 4088) (op : UInt32) :
    ∃ data, pack line op [] = .ok data ∧
      ∀ (socket : Socket) (rest : Bytes), socket.NoFailure → socket.incoming = data ++ rest →
        ((∃ next, Returns (fun fuel => serve fuel socket) (next, ⟨op, line, handlerOf op⟩)) ↔
          HasHandler op ∧ LengthUnbroken line) := by
  refine ⟨_, pack_eq_ok short op, fun socket rest noFailure incoming => ⟨?_, ?_⟩⟩
  · rintro ⟨next, returns⟩
    have known : HasHandler op := (handlerOf_isSome_iff op).mp (handler_isSome returns)
    refine ⟨known, ?_⟩
    by_contra broken
    have zero : op = 0 := operatorId_of_broken short broken noFailure incoming returns
    rw [zero] at known
    exact absurd known (by decide)
  · rintro ⟨known, framed⟩
    exact serve_unbroken unbroken noNul short known framed noFailure incoming

/-- The query `a` under the id 2, byte by byte. -/
theorem serve_roundTrip_search :
    ∃ data, pack [97] 2 [] = .ok data ∧
      ((∃ next, Returns (fun fuel => serve fuel (.trickle data 0)) (next, ⟨2, [97], handlerOf 2⟩)) ↔
        HasHandler 2 ∧ LengthUnbroken [97]) := by
  obtain ⟨data, packed, roundTrip⟩ :=
    serve_roundTrip_iff (by decide : newline ∉ [97]) (by decide) (by decide) 2
  exact ⟨data, packed, roundTrip _ [] (Socket.noFailure_trickle data 0) (List.append_nil data).symm⟩

/-- An id without a handler runs one, and a query of ten bytes is lost. -/
theorem serve_loses_requests :
    (∃ data, pack [] 5 [] = .ok data ∧ ¬ ∃ next,
      Returns (fun fuel => serve fuel (.trickle data 0)) (next, ⟨5, [], handlerOf 5⟩)) ∧
    ∃ data, pack (List.replicate 10 97) 1 [] = .ok data ∧ ¬ ∃ next,
      Returns (fun fuel => serve fuel (.trickle data 0))
        (next, ⟨1, List.replicate 10 97, handlerOf 1⟩) := by
  refine ⟨⟨_, pack_eq_ok (by decide) 5, ?_⟩, _, pack_eq_ok (by decide) 1, ?_⟩
  · rintro ⟨next, returns⟩
    exact absurd (handler_isSome returns) (by decide)
  · rintro ⟨next, returns⟩
    have zero := operatorId_of_broken (by decide) (by decide) (Socket.noFailure_trickle _ 0)
      (List.append_nil _).symm returns
    exact absurd zero (by decide)

end SearchEngine
