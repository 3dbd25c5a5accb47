/-
This file models the parser of the JSON library, `parser::sax_parse_internal` with
`json_sax_dom_parser`, and proves that it ends with every input.

The values that are being read stand on a stack. The library has pointers into
the tree there, and here a value is handed to the one below when it is complete.
A round takes a token off the input, unless the input is at its end and the next
round throws, so a parse that does not throw returns a value after at most two
rounds for each byte. The strings of the value are valid, and the names of its
objects are in order.
-/

import SearchEngine.Json.Lexer
import SearchEngine.PageDump.Counting

namespace SearchEngine

open Utf8 Lexer

/-- The values the parser makes. Of a floating-point number the text is kept. -/
inductive Value where
  | null
  | boolean (value : Bool)
  | integer (value : Int)
  | unsigned (value : Nat)
  | float (text : Bytes)
  | string (text : Bytes)
  | array (elements : List Value)
  | object (members : List (Bytes × Value))

namespace Parser

/-! ### The tree -/

/-- The assignment to the element of a `std::map` under a name, which is inserted in order. -/
def assign (name : Bytes) (value : Value) : List (Bytes × Value) → List (Bytes × Value)
  | [] => [(name, value)]
  | (other, old) :: members =>
    if bytesLess name other then (name, value) :: (other, old) :: members
    else if name = other then (name, value) :: members
    else (other, old) :: assign name value members

/-- A value of `ref_stack`, and for an object the name of `object_element`. -/
inductive Frame where
  | array (elements : List Value)
  | object (members : List (Bytes × Value)) (objectElement : Option Bytes)

/-- The value that is complete. -/
def Frame.value : Frame → Value
  | .array elements => .array elements
  | .object members _ => .object members

/-- The variables of the parser; the innermost values are in front. -/
structure State where
  rest : Bytes
  lastToken : Token
  states : List Bool
  refStack : List Frame
  root : Value
  skipToStateEvaluation : Bool

namespace State

/-- `get_token` -/
def getToken (s : State) : Except Fault State := do
  let (lastToken, rest) ← scan s.rest
  return { s with lastToken, rest }

/-- `handle_value` -/
def handleValue (s : State) (v : Value) : Except Fault State :=
  match s.refStack with
  | [] => .ok { s with root := v }
  | .array elements :: refStack => .ok { s with refStack := .array (elements ++ [v]) :: refStack }
  | .object members (some name) :: refStack =>
    .ok { s with refStack := .object (assign name v members) (some name) :: refStack }
  | .object _ none :: _ => .error .nullPointer

/-- `start_array` and `start_object` -/
def start (s : State) (frame : Frame) : State := { s with refStack := frame :: s.refStack }

/-- `key` -/
def key (s : State) (name : Bytes) : Except Fault State :=
  match s.refStack with
  | .object members _ :: refStack =>
    .ok { s with refStack := .object members (some name) :: refStack }
  | _ => .error .nullPointer

/-- `end_array` and `end_object` -/
def finish (s : State) : Except Fault State :=
  match s.refStack with
  | [] => .error .emptyContainer
  | frame :: refStack => { s with refStack }.handleValue frame.value

/-! ### The loop -/

/-- A key with its separator, and the first token of its value. -/
def parseKey (s : State) : Except Fault State :=
  match s.lastToken with
  | .valueString name => do
    let s ← s.key name
    let s ← s.getToken
    if s.lastToken = .nameSeparator then s.getToken else .error .jsonError
  | _ => .error .jsonError

/-- What happens at the end of an iteration: `continue`, or the value is complete. -/
inductive Next where
  | goOn (state : State)
  | done (state : State)

/-- The first half of an iteration, with whether it goes on to the second. -/
def parseValue (isfinite : Bytes → Bool) (s : State) : Except Fault (Bool × State) :=
  match s.lastToken with
  | .beginObject => do
    let s ← (s.start (.object [] none)).getToken
    if s.lastToken = .endObject then return (true, ← s.finish)
    else
      let s ← s.parseKey
      return (false, { s with states := false :: s.states })
  | .beginArray => do
    let s ← (s.start (.array [])).getToken
    if s.lastToken = .endArray then return (true, ← s.finish)
    else return (false, { s with states := true :: s.states })
  | .valueFloat text =>
    if isfinite text then return (true, ← s.handleValue (.float text)) else .error .jsonError
  | .literalFalse => return (true, ← s.handleValue (.boolean false))
  | .literalNull => return (true, ← s.handleValue .null)
  | .literalTrue => return (true, ← s.handleValue (.boolean true))
  | .valueInteger number => return (true, ← s.handleValue (.integer number))
  | .valueString text => return (true, ← s.handleValue (.string text))
  | .valueUnsigned number => return (true, ← s.handleValue (.unsigned number))
  | _ => .error .jsonError

/-- The second half of an iteration, behind a value. -/
def evaluateState (s : State) : Except Fault Next :=
  match s.states with
  | [] => .ok (.done s)
  | true :: states => do
    let s ← s.getToken
    if s.lastToken = .valueSeparator then return .goOn (← s.getToken)
    else if s.lastToken = .endArray then
      let s ← s.finish
      return .goOn { s with states, skipToStateEvaluation := true }
    else .error .jsonError
  | false :: states => do
    let s ← s.getToken
    if s.lastToken = .valueSeparator then
      let s ← s.getToken
      return .goOn (← s.parseKey)
    else if s.lastToken = .endObject then
      let s ← s.finish
      return .goOn { s with states, skipToStateEvaluation := true }
    else .error .jsonError

/-- An iteration of `sax_parse_internal`. -/
def round (isfinite : Bytes → Bool) (s : State) : Except Fault Next :=
  if s.skipToStateEvaluation then { s with skipToStateEvaluation := false }.evaluateState
  else do
    let (complete, s) ← s.parseValue isfinite
    if complete then s.evaluateState else return .goOn s

/-- The loop of `sax_parse_internal`. -/
def loop (isfinite : Bytes → Bool) : Nat → State → Except Fault State
  | 0, _ => .error .noReturn
  | rounds + 1, s => do
    match ← s.round isfinite with
    | .goOn s => s.loop isfinite rounds
    | .done s => .ok s

end State

/-- `parser` and `parse`, which need not read the input to its end; `isfinite` says which numbers
do not overflow. -/
def parse (isfinite : Bytes → Bool) (input : Bytes) : Except Fault Value := do
  let (lastToken, rest) ← scanFirst input
  let s ← State.loop isfinite (2 * input.length + 2) ⟨rest, lastToken, [], [], .null, false⟩
  return s.root

/-! ### Well-formed values -/

/-- Members with valid names in order. -/
structure Named {Member : Type} (members : List (Bytes × Member)) : Prop where
  valid : ∀ member ∈ members, Valid member.1
  ordered : members.Pairwise fun first second => bytesLess first.1 second.1

/-- The strings and the names of a value are valid, and the names of an object are in order, so that
no two of them are equal. -/
inductive WellFormed : Value → Prop where
  | null : WellFormed .null
  | boolean (value : Bool) : WellFormed (.boolean value)
  | integer (value : Int) : WellFormed (.integer value)
  | unsigned (value : Nat) : WellFormed (.unsigned value)
  | float (text : Bytes) : WellFormed (.float text)
  | string {text : Bytes} (valid : Valid text) : WellFormed (.string text)
  | array {elements : List Value} (each : ∀ element ∈ elements, WellFormed element) :
      WellFormed (.array elements)
  | object {members : List (Bytes × Value)} (named : Named members)
      (each : ∀ member ∈ members, WellFormed member.2) : WellFormed (.object members)

theorem mem_assign {name : Bytes} {value : Value} {members : List (Bytes × Value)}
    {member : Bytes × Value} (inside : member ∈ assign name value members) :
    member = (name, value) ∨ member ∈ members := by
  induction members with
  | nil => exact .inl (List.mem_singleton.mp inside)
  | cons entry members inductionHypothesis =>
    rw [assign] at inside
    split_ifs at inside
    · exact List.mem_cons.mp inside
    · exact (List.mem_cons.mp inside).imp_right (List.mem_cons_of_mem _)
    · rcases List.mem_cons.mp inside with rfl | later
      · exact .inr List.mem_cons_self
      · exact (inductionHypothesis later).imp_right (List.mem_cons_of_mem _)

/-- An assignment keeps the order of the names. -/
theorem Named.assign {name : Bytes} {members : List (Bytes × Value)} (named : Named members)
    (valid : Valid name) (value : Value) : Named (Parser.assign name value members) := by
  refine ⟨fun member inside => ?_, ?_⟩
  · rcases mem_assign inside with rfl | other
    · exact valid
    · exact named.valid member other
  have ordered := named.ordered
  clear named
  induction members with
  | nil => exact List.pairwise_singleton _ _
  | cons entry members inductionHypothesis =>
    obtain ⟨behind, later⟩ := List.pairwise_cons.mp ordered
    rw [Parser.assign]
    split_ifs with before same
    · refine List.pairwise_cons.mpr ⟨fun member inside => ?_, ordered⟩
      rcases List.mem_cons.mp inside with rfl | other
      · exact before
      · exact bytesLess_trans _ _ _ before (behind member other)
    · exact List.pairwise_cons.mpr ⟨fun member inside => same ▸ behind member inside, later⟩
    · refine List.pairwise_cons.mpr ⟨fun member inside => ?_, inductionHypothesis later⟩
      rcases mem_assign inside with rfl | other
      · by_contra notBehind
        exact same (bytesLess_total _ _ before notBehind)
      · exact behind member other

/-! ### The stack -/

/-- A value that can be handed to: an array, or an object with a name; the flag is its entry in
`states`. -/
inductive Frame.Open : Bool → Frame → Prop where
  | array {elements : List Value} (each : ∀ element ∈ elements, WellFormed element) :
      Frame.Open true (.array elements)
  | object {members : List (Bytes × Value)} {name : Bytes} (named : Named members)
      (each : ∀ member ∈ members, WellFormed member.2) (valid : Valid name) :
      Frame.Open false (.object members (some name))

theorem Frame.Open.wellFormed {isArray : Bool} {frame : Frame} (opened : frame.Open isArray) :
    WellFormed frame.value := by
  cases opened with
  | array each => exact .array each
  | object named each valid => exact .object named each

namespace State

/-- The values of the stack are those of `states`, and everything in them is well formed. -/
structure Stacked (states : List Bool) (s : State) : Prop where
  frames : List.Forall₂ Frame.Open states s.refStack
  root : WellFormed s.root

/-- Nothing but the tree has changed. -/
structure SameInput (s s' : State) : Prop where
  rest : s'.rest = s.rest
  states : s'.states = s.states
  lastToken : s'.lastToken = s.lastToken

/-- A value is handed over. -/
theorem Stacked.handleValue {states : List Bool} {s : State} (stacked : s.Stacked states) {v : Value}
    (wellFormed : WellFormed v) :
    Ends (fun s' => s'.Stacked states ∧ s.SameInput s') (s.handleValue v) := by
  obtain ⟨frames, root⟩ := stacked
  obtain ⟨rest, lastToken, own, refStack, value, skip⟩ := s
  dsimp only at frames root
  cases frames with
  | nil => exact ⟨⟨.nil, wellFormed⟩, rfl, rfl, rfl⟩
  | cons opened frames =>
    cases opened with
    | array each =>
      refine ⟨⟨.cons (.array ?_) frames, root⟩, rfl, rfl, rfl⟩
      exact List.forall_mem_append.mpr ⟨each, List.forall_mem_singleton.mpr wellFormed⟩
    | object named each valid =>
      refine ⟨⟨.cons (.object (named.assign valid v) ?_ valid) frames, root⟩, rfl, rfl, rfl⟩
      intro member inside
      rcases mem_assign inside with rfl | other
      · exact wellFormed
      · exact each member other

/-- The innermost value is complete. -/
theorem ends_finish {states : List Bool} {s : State} {frame : Frame} {refStack : List Frame}
    (top : s.refStack = frame :: refStack) (wellFormed : WellFormed frame.value)
    (stacked : { s with refStack }.Stacked states) :
    Ends (fun s' => s'.Stacked states ∧ s.SameInput s') s.finish := by
  rw [State.finish, top]
  exact (stacked.handleValue wellFormed).mono fun s' both =>
    ⟨both.1, both.2.rest, both.2.states, both.2.lastToken⟩

/-- A token is read. -/
structure Read (s s' : State) : Prop where
  taken : Taken s.rest (s'.lastToken, s'.rest)
  refStack : s'.refStack = s.refStack
  states : s'.states = s.states
  root : s'.root = s.root

theorem ends_getToken (s : State) : Ends s.Read s.getToken :=
  (ends_scan s.rest).bind fun _ taken => ⟨taken, rfl, rfl, rfl⟩

theorem Stacked.read {states : List Bool} {s s' : State} (stacked : s.Stacked states)
    (read : s.Read s') : s'.Stacked states :=
  ⟨read.refStack ▸ stacked.frames, read.root ▸ stacked.root⟩

/-- A key is read into the innermost object, and the first token of its value. -/
theorem ends_parseKey {states : List Bool} {s : State} {members : List (Bytes × Value)}
    {objectElement : Option Bytes} {refStack : List Frame}
    (top : s.refStack = .object members objectElement :: refStack) (named : Named members)
    (each : ∀ member ∈ members, WellFormed member.2)
    (stacked : { s with refStack }.Stacked states) (token : s.lastToken.WellFormed) :
    Ends (fun s' => s'.Stacked (false :: states) ∧ s'.states = s.states ∧
      s'.lastToken.WellFormed ∧ s'.rest.length < s.rest.length) s.parseKey := by
  rw [State.parseKey]
  cases scanned : s.lastToken with
  | valueString name =>
    have keyed : s.key name =
        .ok { s with refStack := .object members (some name) :: refStack } := by
      rw [State.key, top]
    rw [scanned] at token
    have opened : { s with refStack := .object members (some name) :: refStack }.Stacked
        (false :: states) := ⟨.cons (.object named each token) stacked.frames, stacked.root⟩
    dsimp only
    rw [keyed, ok_bind]
    refine (ends_getToken _).bind fun s' read => ?_
    split_ifs with separator
    · refine (ends_getToken s').mono fun s'' read' => ?_
      refine ⟨(opened.read read).read read', read'.states.trans read.states, read'.taken.1,
        lt_of_le_of_lt read'.taken.length_le ?_⟩
      rcases read.taken.2 with shorter | ⟨ended, -⟩
      · exact shorter
      · cases separator.symm.trans ended
    · rfl
  | _ => rfl

/-! ### An iteration -/

/-- What an iteration begins with. -/
structure Sound (s : State) : Prop extends Stacked s.states s where
  token : s.lastToken.WellFormed

/-- The rounds that are left. -/
def size (s : State) : Nat := 2 * s.rest.length + if s.lastToken = .endOfInput then 0 else 1

theorem size_le (s : State) : s.size ≤ 2 * s.rest.length + 1 := by
  rw [size]
  split_ifs <;> omega

theorem size_eq {s : State} (more : s.lastToken ≠ .endOfInput) : s.size = 2 * s.rest.length + 1 := by
  rw [size, if_neg more]

theorem size_lt_of_taken {s : State} {input : Bytes} (taken : Taken input (s.lastToken, s.rest)) :
    s.size < 2 * input.length + 1 := by
  obtain ⟨-, shorter | ⟨ended, empty⟩⟩ := taken
  · have bound := s.size_le
    dsimp only at shorter
    omega
  · dsimp only at ended empty
    rw [size, if_pos ended, empty, List.length_nil]
    omega

/-- The loop goes on with fewer rounds left, or it is done with a well-formed value. -/
def Next.Progress (bound : Nat) : Next → Prop
  | .goOn s => s.Sound ∧ s.size < bound
  | .done s => WellFormed s.root

/-- A token that is not the end has taken a byte. -/
theorem shorter_of_taken {input rest : Bytes} {token : Token} (taken : Taken input (token, rest))
    (more : token ≠ .endOfInput) : rest.length < input.length := by
  rcases taken.2 with shorter | ⟨ended, -⟩
  · exact shorter
  · exact absurd ended more

/-- A structure ends: the loop goes on behind it. -/
theorem ends_closed {states : List Bool} {s : State} {input : Bytes} {frame : Frame}
    {refStack : List Frame} (top : s.refStack = frame :: refStack)
    (wellFormed : WellFormed frame.value)
    (stacked : { s with refStack }.Stacked states) (token : s.lastToken.WellFormed)
    (shorter : s.rest.length < input.length) :
    Ends (Next.Progress (2 * input.length)) (do
      let s ← s.finish
      return .goOn { s with states, skipToStateEvaluation := true }) := by
  refine (ends_finish top wellFormed stacked).bind fun s' finished => ?_
  obtain ⟨stacked', same⟩ := finished
  refine ⟨⟨⟨stacked'.frames, stacked'.root⟩, same.lastToken ▸ token⟩, ?_⟩
  refine lt_of_le_of_lt (size_le _) ?_
  dsimp only
  rw [same.rest]
  omega

theorem ends_evaluateState {s : State} (stacked : s.Stacked s.states) :
    Ends (Next.Progress (2 * s.rest.length)) s.evaluateState := by
  have frames := stacked.frames
  rw [State.evaluateState]
  cases inside : s.states with
  | nil => exact stacked.root
  | cons isArray states =>
    rw [inside] at frames
    cases top : s.refStack with
    | nil =>
      rw [top] at frames
      cases frames
    | cons frame refStack =>
      rw [top] at frames
      cases frames with
      | cons opened below =>
        have open_below {s1 : State} (read : s.Read s1) :
            { s1 with refStack }.Stacked states := ⟨below, read.root ▸ stacked.root⟩
        cases opened with
        | array each =>
          refine (ends_getToken s).bind fun s1 read => Ends.ite' (fun comma => ?_) fun _ =>
            Ends.ite' (fun closed => ?_) fun _ => rfl
          · have shorter := shorter_of_taken read.taken (by rw [comma]; decide)
            refine (ends_getToken s1).bind fun s2 read2 => ?_
            refine ⟨⟨?_, read2.taken.1⟩, ?_⟩
            · rw [read2.states, read.states]
              exact (stacked.read read).read read2
            · exact lt_of_lt_of_le (size_lt_of_taken read2.taken) (by omega)
          · have shorter := shorter_of_taken read.taken (by rw [closed]; decide)
            exact ends_closed (read.refStack.trans top) (.array each) (open_below read) read.taken.1
              shorter
        | object named each valid =>
          refine (ends_getToken s).bind fun s1 read => Ends.ite' (fun comma => ?_) fun _ =>
            Ends.ite' (fun closed => ?_) fun _ => rfl
          · have shorter := shorter_of_taken read.taken (by rw [comma]; decide)
            refine (ends_getToken s1).bind fun s2 read2 => ?_
            refine (ends_parseKey (read2.refStack.trans (read.refStack.trans top)) named each
              ⟨below, read2.root ▸ (open_below read).root⟩ read2.taken.1).bind fun s3 keyed => ?_
            obtain ⟨stacked3, states3, token3, shorter3⟩ := keyed
            refine ⟨⟨?_, token3⟩, ?_⟩
            · rw [states3, read2.states, read.states, inside]
              exact stacked3
            · have bound := s3.size_le
              have longer : s2.rest.length ≤ s1.rest.length := read2.taken.length_le
              omega
          · have shorter := shorter_of_taken read.taken (by rw [closed]; decide)
            exact ends_closed (read.refStack.trans top) (.object named each) (open_below read)
              read.taken.1 shorter

/-- What the first half of an iteration ends with. -/
def Parsed (s : State) (found : Bool × State) : Prop :=
  if found.1 then found.2.Stacked found.2.states ∧ found.2.rest.length ≤ s.rest.length
  else found.2.Sound ∧ found.2.size < s.size

/-- A value of one token. -/
theorem Sound.ends_value {s : State} (sound : s.Sound) {v : Value} (wellFormed : WellFormed v) :
    Ends s.Parsed (do return (true, ← s.handleValue v)) := by
  refine (sound.toStacked.handleValue wellFormed).bind fun s' handed => ?_
  obtain ⟨stacked, same⟩ := handed
  refine ⟨?_, same.rest ▸ le_rfl⟩
  rw [same.states]
  exact stacked

/-- A structure without entries. -/
theorem Sound.ends_empty {s s1 : State} (sound : s.Sound) {frame : Frame}
    (read : (s.start frame).Read s1) (wellFormed : WellFormed frame.value) :
    Ends s.Parsed (do return (true, ← s1.finish)) := by
  refine (ends_finish read.refStack wellFormed ⟨sound.frames, read.root ▸ sound.root⟩).bind
    fun s2 finished => ?_
  obtain ⟨stacked2, same2⟩ := finished
  refine ⟨?_, same2.rest.symm ▸ read.taken.length_le⟩
  rw [same2.states, read.states]
  exact stacked2

theorem Sound.ends_parseValue {s : State} (sound : s.Sound) (isfinite : Bytes → Bool) :
    Ends s.Parsed (s.parseValue isfinite) := by
  have token := sound.token
  unfold State.parseValue
  cases scanned : s.lastToken with
  | literalTrue => exact sound.ends_value (.boolean true)
  | literalFalse => exact sound.ends_value (.boolean false)
  | literalNull => exact sound.ends_value .null
  | valueString text =>
    rw [scanned] at token
    exact sound.ends_value (.string token)
  | valueUnsigned number => exact sound.ends_value (.unsigned number)
  | valueInteger number => exact sound.ends_value (.integer number)
  | valueFloat text => exact Ends.ite (sound.ends_value (.float text)) rfl
  | beginArray =>
    have started : (s.start (.array [])).Stacked (true :: s.states) :=
      ⟨.cons (.array (List.forall_mem_nil _)) sound.frames, sound.root⟩
    refine (ends_getToken _).bind fun s1 read => Ends.ite' (fun closed => ?_) fun notClosed => ?_
    · exact sound.ends_empty read (.array (List.forall_mem_nil _))
    · refine ⟨⟨?_, read.taken.1⟩, ?_⟩
      · show State.Stacked (true :: s1.states) _
        rw [read.states]
        exact ⟨(started.read read).frames, (started.read read).root⟩
      · show s1.size < s.size
        rw [size_eq (show s.lastToken ≠ _ by rw [scanned]; decide)]
        exact size_lt_of_taken read.taken
  | beginObject =>
    have named : Named ([] : List (Bytes × Value)) := ⟨List.forall_mem_nil _, .nil⟩
    refine (ends_getToken _).bind fun s1 read => Ends.ite' (fun closed => ?_) fun notClosed => ?_
    · exact sound.ends_empty read (.object named (List.forall_mem_nil _))
    · refine (ends_parseKey read.refStack named (List.forall_mem_nil _)
        ⟨sound.frames, read.root ▸ sound.root⟩ read.taken.1).bind fun s2 keyed => ?_
      obtain ⟨stacked2, states2, token2, shorter2⟩ := keyed
      refine ⟨⟨?_, token2⟩, ?_⟩
      · show State.Stacked (false :: s2.states) _
        rw [states2, read.states]
        exact ⟨stacked2.frames, stacked2.root⟩
      · have bound := s2.size_le
        have longer : s1.rest.length ≤ s.rest.length := read.taken.length_le
        show s2.size < s.size
        rw [size_eq (show s.lastToken ≠ _ by rw [scanned]; decide)]
        omega
  | _ => rfl

/-- An iteration goes on with fewer rounds left. -/
theorem Sound.ends_round {s : State} (sound : s.Sound) (isfinite : Bytes → Bool) :
    Ends (Next.Progress s.size) (s.round isfinite) := by
  have least : 2 * s.rest.length ≤ s.size := Nat.le_add_right _ _
  rw [State.round]
  refine Ends.ite ?_ ?_
  · refine (@ends_evaluateState { s with skipToStateEvaluation := false }
      ⟨sound.frames, sound.root⟩).mono fun next progress => ?_
    cases next with
    | goOn s' => exact ⟨progress.1, lt_of_lt_of_le progress.2 least⟩
    | done s' => exact progress
  · refine (sound.ends_parseValue isfinite).bind fun found parsed => ?_
    obtain ⟨complete, s'⟩ := found
    cases complete with
    | true =>
      obtain ⟨stacked, bound⟩ := parsed
      refine (ends_evaluateState stacked).mono fun next progress => ?_
      cases next with
      | goOn s'' =>
        refine ⟨progress.1, lt_of_lt_of_le progress.2 (le_trans ?_ least)⟩
        exact Nat.mul_le_mul_left 2 bound
      | done s'' => exact progress
    | false => exact parsed

theorem Sound.ends_loop {s : State} (sound : s.Sound) (isfinite : Bytes → Bool) {rounds : Nat}
    (enough : s.size < rounds) :
    Ends (fun s' => WellFormed s'.root) (s.loop isfinite rounds) := by
  induction rounds generalizing s with
  | zero => omega
  | succ rounds inductionHypothesis =>
    rw [State.loop]
    refine (sound.ends_round isfinite).bind fun next progress => ?_
    cases next with
    | goOn s' => exact inductionHypothesis progress.1 (lt_of_lt_of_le progress.2 (by omega))
    | done s' => exact progress

end State

/-- The parser ends with every input: it throws the exception of the library, or it returns a
well-formed value. -/
theorem parse_ends (isfinite : Bytes → Bool) (input : Bytes) :
    parse isfinite input = .error .jsonError ∨
      ∃ value, parse isfinite input = .ok value ∧ WellFormed value := by
  have ends : Ends WellFormed (parse isfinite input) := by
    refine (ends_scanFirst input).bind fun found scanned => ?_
    have sound : State.Sound ⟨found.2, found.1, [], [], .null, false⟩ :=
      ⟨⟨.nil, .null⟩, scanned.2⟩
    have bound := State.size_le ⟨found.2, found.1, [], [], .null, false⟩
    have longer := scanned.1
    exact (sound.ends_loop isfinite (by dsimp only at bound; omega)).bind fun s kept => kept
  cases result : parse isfinite input with
  | error fault =>
    rw [result] at ends
    exact .inl (congrArg _ ends)
  | ok value =>
    rw [result] at ends
    exact .inr ⟨value, rfl, ends⟩

end Parser

end SearchEngine
