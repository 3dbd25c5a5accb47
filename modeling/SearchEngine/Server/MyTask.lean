/-
This file models a request from the client's `pack` to the dispatch in
`MyTask::process`.

A request is a binary header, the length of the query and the operator id as
32-bit little-endian integers, followed by the query and a newline. The server
takes the newline off, copies the request into an array of 4096 bytes and reads
the fields back through a second one. The arrays are explicit, and an access
outside them is a fault.
-/

import SearchEngine.Server.SocketIO

namespace SearchEngine

/-! ### Integers in memory -/

/-- The lowest bytes of an integer, lowest first. -/
def leBytes : Nat → Nat → Bytes
  | 0, _ => []
  | count + 1, number => UInt8.ofNat number :: leBytes count (number / 256)

/-- The integer that bytes stand for, lowest first. -/
def leValue : Bytes → Nat
  | [] => 0
  | byte :: bytes => byte.toNat + 256 * leValue bytes

@[simp] theorem length_leBytes (count number : Nat) : (leBytes count number).length = count := by
  induction count generalizing number with
  | zero => rfl
  | succ count inductionHypothesis => rw [leBytes, List.length_cons, inductionHypothesis]

theorem leValue_leBytes (count : Nat) {number : Nat} (small : number < 256 ^ count) :
    leValue (leBytes count number) = number := by
  induction count generalizing number with
  | zero =>
    rw [pow_zero, Nat.lt_one_iff] at small
    rw [small]
    rfl
  | succ count inductionHypothesis =>
    have smaller : number / 256 < 256 ^ count := by
      rw [Nat.div_lt_iff_lt_mul (by norm_num), ← pow_succ]
      exact small
    rw [leBytes, leValue, inductionHypothesis smaller, UInt8.toNat_ofNat']
    omega

theorem leValue_replicate_zero (count : Nat) : leValue (List.replicate count 0) = 0 := by
  induction count with
  | zero => rfl
  | succ count inductionHypothesis => rw [List.replicate_succ, leValue, inductionHypothesis]; rfl

/-- `char buf[4096] = {0};` -/
def cleared : Bytes := List.replicate 4096 0

@[simp] theorem length_cleared : cleared.length = 4096 := List.length_replicate

/-! ### The client -/

/-- `pack` of the client; it appends the request to `data`. -/
def pack (line : Bytes) (op : UInt32) (data : Bytes) : Except Fault Bytes := do
  let dataSz_c := leBytes 4 line.length
  let opId_c := leBytes 4 op.toNat
  let buf ← writeAt cleared 0 dataSz_c
  let buf ← writeAt buf 4 opId_c
  let buf ← writeAt buf 8 line
  return data ++ buf.take (8 + line.length) ++ [newline]

/-! ### The server -/

/-- What `MyTask::parse` leaves in the task. -/
structure Message where
  msgLen : Int
  operatorId : UInt32
  msgContent : Bytes
  deriving DecidableEq

/-- The branches of `MyTask::process`. -/
inductive Handler where
  /-- `KeyRecommander::doQuery` -/
  | recommend
  /-- `WebPageSearcher::doQuery` -/
  | search
  /-- `KeyRecommander::getRandDict` -/
  | randDict
  /-- `KeyRecommander::getSolitaireKeys` -/
  | solitaire
  deriving DecidableEq

/-- `for (int i = 0; i < count; ++i) buf[i] = request[idx++];`, from `i` on. -/
def copyBytes (request : Bytes) : Nat → Bytes → Nat → Nat → Except Fault (Bytes × Nat)
  | 0, buf, _, idx => .ok (buf, idx)
  | count + 1, buf, i, idx => do
    let byte ← orFault .outOfBounds request[idx]?
    let buf ← writeAt buf i [byte]
    copyBytes request count buf (i + 1) (idx + 1)

/-- The string in a NUL-terminated array. -/
def cString (buf : Bytes) : Except Fault Bytes :=
  match buf.findIdx? (· = 0) with
  | some length => .ok (buf.take length)
  | none => .error .outOfBounds

/-- `MyTask::parse` -/
def parse (request : Bytes) : Except Fault Message := do
  let request ← writeAt cleared 0 request
  let (buf, idx) ← copyBytes request 4 cleared 0 0
  let msgLen := toInt (leValue (buf.take 4))
  let (buf, idx) ← copyBytes request 4 cleared 0 idx
  let operatorId := UInt32.ofNat (leValue (buf.take 4))
  let (buf, _) ← copyBytes request msgLen.toNat cleared 0 idx
  let msgContent ← cString buf
  return ⟨msgLen, operatorId, msgContent⟩

/-- The branch `MyTask::process` takes. -/
def dispatch (operatorId : UInt32) : Option Handler :=
  if operatorId = 1 then some .recommend
  else if operatorId = 2 then some .search
  else if operatorId = 3 then some .randDict
  else
    -- the last condition is `operatorId = 4`, an assignment: its value is 4
    let operatorId : UInt32 := 4
    if operatorId ≠ 0 then some .solitaire else none

/-- `_request.pop_back()` -/
def popBack (request : Bytes) : Except Fault Bytes :=
  if request = [] then .error .emptyContainer else .ok request.dropLast

/-- `MyTask::process` up to the call of the handler. -/
def process (request : Bytes) : Except Fault (Message × Option Handler) := do
  let request ← popBack request
  let message ← parse request
  return (message, dispatch message.operatorId)

/-- What a request comes to at the server: the id and the query that were recovered, and the
handler that runs on the query. -/
structure Served where
  operatorId : UInt32
  msgContent : Bytes
  handler : Option Handler
  deriving DecidableEq

/-- `EchoServer::onMessage` and the task it adds. -/
def serve (fuel : Nat) (socket : Socket) : Except Fault (Socket × Served) := do
  let (socket, request) ← receive fuel socket
  let (message, handler) ← process request
  return (socket, ⟨message.operatorId, message.msgContent, handler⟩)

/-! ### The arrays of `parse` -/

theorem copyBytes_eq_ok {request : Bytes} (count : Nat) {buf : Bytes} {i idx : Nat}
    (source : idx + count ≤ request.length) (target : i + count ≤ buf.length) :
    copyBytes request count buf i idx =
      .ok (overwrite buf i ((request.drop idx).take count), idx + count) := by
  induction count generalizing buf i idx with
  | zero => simp [copyBytes, overwrite]
  | succ count inductionHypothesis =>
    have inside : idx < request.length := by omega
    have fits : i + [request[idx]].length ≤ buf.length := by
      rw [List.length_singleton]
      omega
    have joined : overwrite (overwrite buf i [request[idx]]) (i + 1)
        ((request.drop (idx + 1)).take count) = _ := overwrite_append (by omega)
    rw [copyBytes, List.getElem?_eq_getElem inside, orFault_some, ok_bind, writeAt_eq_ok fits,
      ok_bind, inductionHypothesis (by omega) (by rw [length_overwrite fits]; omega), joined,
      List.drop_eq_getElem_cons inside, List.take_succ_cons, List.singleton_append,
      Nat.add_right_comm idx 1, Nat.add_assoc idx]

/-- Bytes stored at the start of a cleared array. -/
theorem overwrite_cleared (data : Bytes) :
    overwrite cleared 0 data = data ++ List.replicate (4096 - data.length) 0 := by
  rw [overwrite, List.take_zero, List.nil_append, Nat.zero_add, cleared, List.drop_replicate]

theorem cString_eq_ok {text : Bytes} (noNul : 0 ∉ text) {count : Nat} (room : 0 < count) :
    cString (text ++ List.replicate count 0) = .ok text := by
  obtain ⟨more, rfl⟩ : ∃ more, count = more + 1 := ⟨count - 1, by omega⟩
  have misses : text.findIdx? (· = 0) = none := by
    rw [List.findIdx?_eq_none_iff]
    intro byte member
    simpa using fun same : byte = 0 => noNul (same ▸ member)
  have ends : (text ++ List.replicate (more + 1) 0).findIdx? (· = 0) = some text.length := by
    rw [List.findIdx?_append, misses, List.replicate_succ, List.findIdx?_cons]
    simp
  simp only [cString, ends, List.take_left]

end SearchEngine
