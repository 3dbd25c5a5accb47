/-
This file fixes the vocabulary every module of the model shares: byte strings
for `std::string`, and the ways in which a call of the program can end without
a result. An operation the program performs without checking it (an access
outside a container, `top` of an empty queue, a read through a dead iterator)
is a fault of the model, so that the absence of undefined behaviour is a
statement about results.
-/

import SearchEngine.Library.Text

namespace SearchEngine

/-- A `std::string` as its bytes. -/
abbrev Bytes := List UInt8

instance lawfulBEqBytes : LawfulBEq Bytes := inferInstance

/-- The bytes of a string literal. -/
def ascii (text : String) : Bytes := text.toList.map fun letter => UInt8.ofNat letter.toNat

/-- `' '` -/
def space : UInt8 := 32

/-- `'\n'` -/
def newline : UInt8 := 10

/-- `':'` -/
def colon : UInt8 := 58

/-- `','` -/
def comma : UInt8 := 44

/-- There is a worker 0. -/
instance neZeroWorkers : NeZero 4 := ⟨by decide⟩

/-- How a call can end without a result. -/
inductive Fault where
  /-- an iterator into a list is used after its node was destroyed, or is `end()` -/
  | danglingIterator
  /-- an array, vector, string or table is accessed outside its bounds -/
  | outOfBounds
  /-- `top` or `pop` of an empty priority queue, `pop_back` of an empty string -/
  | emptyContainer
  /-- a null pointer is dereferenced -/
  | nullPointer
  /-- a non-void function ends without a return value -/
  | missingReturn
  /-- `utf8::next` throws -/
  | invalidUtf8
  /-- `std::stoi` or `std::stod` throws `std::invalid_argument` -/
  | invalidArgument
  /-- `std::stoi`, `std::stod` or `substr` throws `std::out_of_range` -/
  | outOfRange
  /-- the JSON writer throws on a string that is not UTF-8 -/
  | jsonError
  /-- an integer is divided by zero -/
  | divisionByZero
  /-- a signed integer overflows -/
  | integerOverflow
  /-- a loop has used up its rounds, or waits for bytes that never come -/
  | noReturn
  deriving DecidableEq, Repr

/-- Read an optional result, with a fault where there is none. -/
def orFault {Result : Type} (fault : Fault) : Option Result → Except Fault Result
  | some result => .ok result
  | none => .error fault

@[simp] theorem orFault_some {Result : Type} (fault : Fault) (result : Result) :
    orFault fault (some result) = .ok result := rfl

@[simp] theorem orFault_none {Result : Type} (fault : Fault) :
    orFault fault (none : Option Result) = .error fault := rfl

theorem orFault_eq_ok {Result : Type} {fault : Fault} {found : Option Result} {result : Result} :
    orFault fault found = .ok result ↔ found = some result := by
  cases found with
  | none => simp
  | some found => simp

section Bind

variable {Error First Second : Type}

@[simp] theorem ok_bind (result : First) (continuation : First → Except Error Second) :
    (Except.ok result >>= continuation) = continuation result := rfl

@[simp] theorem error_bind (error : Error) (continuation : First → Except Error Second) :
    (Except.error error >>= continuation) = Except.error error := rfl

@[simp] theorem pure_eq_ok (result : First) : (pure result : Except Error First) = .ok result := rfl

theorem bind_eq_ok {computation : Except Error First} {continuation : First → Except Error Second}
    {result : Second} :
    (computation >>= continuation) = .ok result ↔
      ∃ first, computation = .ok first ∧ continuation first = .ok result := by
  cases computation with
  | error error => simp
  | ok first => simp

theorem map_eq_ok {computation : Except Error First} {image : First → Second} {result : Second} :
    computation.map image = .ok result ↔
      ∃ first, computation = .ok first ∧ image first = result := by
  cases computation with
  | error error => simp [Except.map]
  | ok first => simp [Except.map]

end Bind

/-! ### Exceptions -/

/-- The faults that are C++ exceptions. -/
def Fault.isException : Fault → Bool
  | .invalidUtf8 | .invalidArgument | .outOfRange | .jsonError => true
  | _ => false

/-- A computation that no exception leaves. -/
structure NoThrow {Result : Type} (computation : Except Fault Result) : Prop where
  quiet : ∀ fault, computation = .error fault → fault.isException = false

section NoThrow

variable {First Second : Type}

@[simp] theorem noThrow_ok (result : First) : NoThrow (.ok result) :=
  ⟨fun _ failed => by cases failed⟩

@[simp] theorem noThrow_error {fault : Fault} :
    NoThrow (.error fault : Except Fault First) ↔ fault.isException = false :=
  ⟨fun noThrow => noThrow.quiet fault rfl,
    fun quiet => ⟨fun _ failed => Except.error.inj failed ▸ quiet⟩⟩

theorem noThrow_bind {computation : Except Fault First}
    {continuation : First → Except Fault Second} :
    NoThrow (computation >>= continuation) ↔
      NoThrow computation ∧ ∀ result, computation = .ok result → NoThrow (continuation result) := by
  cases computation with
  | error fault => simp
  | ok result => simp

theorem NoThrow.bind {computation : Except Fault First}
    {continuation : First → Except Fault Second} (first : NoThrow computation)
    (second : ∀ result, computation = .ok result → NoThrow (continuation result)) :
    NoThrow (computation >>= continuation) := noThrow_bind.mpr ⟨first, second⟩

theorem noThrow_orFault {fault : Fault} (quiet : fault.isException = false)
    (result : Option First) : NoThrow (orFault fault result) := by
  cases result with
  | none => exact noThrow_error.mpr quiet
  | some result => exact noThrow_ok result

end NoThrow

/-! ### Integers -/

/-- The value an `int` takes when a `size_t` is stored in it. -/
def toInt (number : Nat) : Int := Int.bmod number (2 ^ 32)

theorem toInt_of_lt {number : Nat} (small : number < 2 ^ 31) : toInt number = number := by
  unfold toInt
  exact Int.bmod_eq_of_le (by norm_num) (by norm_num; omega)

/-- What exceeds the range of `int` becomes negative. -/
theorem toInt_of_le {number : Nat} (large : 2 ^ 31 ≤ number) (small : number < 2 ^ 32) :
    toInt number = number - 2 ^ 32 := by
  unfold toInt
  rw [Int.bmod_def]
  omega

theorem toInt_two_pow : toInt (2 ^ 31) = -2147483648 := by
  unfold toInt
  decide

/-- `++i`, for a counter that is an `int`. -/
def increment (i : Nat) : Except Fault Nat :=
  if i + 1 < 2 ^ 31 then .ok (i + 1) else .error .integerOverflow

theorem increment_eq_ok {i : Nat} (small : i + 1 < 2 ^ 31) : increment i = .ok (i + 1) :=
  if_pos small

/-- `std::stoi` -/
def stoi (text : Bytes) : Except Fault Int := do
  let value ← orFault .invalidArgument (Text.scanInt text)
  if -2 ^ 31 ≤ value ∧ value < 2 ^ 31 then return value else .error .outOfRange

theorem stoi_eq_ok {text : Bytes} {value : Int} (scanned : Text.scanInt text = some value)
    (lower : -2 ^ 31 ≤ value) (upper : value < 2 ^ 31) : stoi text = .ok value := by
  have inRange : -2 ^ 31 ≤ value ∧ value < 2 ^ 31 := ⟨lower, upper⟩
  simp only [stoi, scanned, orFault_some, ok_bind, inRange, and_self, if_true, pure_eq_ok]

/-! ### Printed integers -/

theorem decimalInt_of_nonneg {number : Int} (nonneg : 0 ≤ number) :
    Text.decimalInt number = Text.decimal number.natAbs := by
  rw [Text.decimalInt, if_neg (by omega)]

theorem isDigit_of_mem_decimalInt {number : Int} (nonneg : 0 ≤ number) {byte : UInt8}
    (member : byte ∈ Text.decimalInt number) : Text.isDigit byte = true := by
  rw [decimalInt_of_nonneg nonneg] at member
  exact Text.isDigit_of_mem_decimal member

theorem space_notMem_decimalInt {number : Int} (nonneg : 0 ≤ number) :
    space ∉ Text.decimalInt number :=
  fun member => absurd (isDigit_of_mem_decimalInt nonneg member) (by decide)

theorem newline_notMem_decimalInt (number : Int) : newline ∉ Text.decimalInt number := by
  have digits : newline ∉ Text.decimal number.natAbs :=
    fun member => absurd (Text.isDigit_of_mem_decimal member) (by decide)
  rw [Text.decimalInt]
  split_ifs
  · rw [List.mem_cons, not_or]
    exact ⟨by decide, digits⟩
  · exact digits

/-- `stoi` reads a number behind blanks. -/
theorem stoi_decimalInt {number : Int} (nonneg : 0 ≤ number) (small : number < 2 ^ 31)
    {blanks : Bytes} (blank : ∀ byte ∈ blanks, byte = space) :
    stoi (blanks ++ Text.decimalInt number) = .ok number := by
  have spaces : ∀ byte ∈ blanks, Text.isSpace byte = true := by
    intro byte member
    rw [blank byte member]
    rfl
  have scanned := Text.scanInt_decimal spaces number.natAbs
  rw [Int.natAbs_of_nonneg nonneg] at scanned
  rw [decimalInt_of_nonneg nonneg]
  exact stoi_eq_ok scanned (by omega) small

end SearchEngine
