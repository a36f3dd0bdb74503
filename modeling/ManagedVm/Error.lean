import ManagedVm.Heap.Basic
import ManagedVm.Instruction.Basic
import ManagedVm.Scalar.Arithmetic
import ManagedVm.Types.Table

/-!
# Errors of the machine

One type of all the reasons for which an operation of the machine fails. An error raised by an
instruction is wrapped with the place of the instruction, once for each method it passes through, so
the wrappers around a cause are the calls that led to it, outermost first.

A program that stops is described by an error too. What it has done up to there is never looked at
again, so it does not matter that the machine is left behind as it was.
-/

namespace ManagedVm

/-- Why an operation of the machine failed. -/
inductive Error
  -- What an index leads to
  | type (error : TypeError)
  | unknownMethod (index : Nat)
  | unknownConstant (index : Int32)
  | unknownLocal (index : Int32)
  | unknownArgument (index : Int32)
  | unknownMemberRef (index : Int32)
  | unknownTypeRef (index : Int32)
  | notAField (index : Int32)
  | notAMethod (index : Int32)
  | staticMismatch (field : String) (expectedStatic : Bool)
  | missingTypeToken (op : Opcode)
  | branchOutOfRange (target : Int32)
  | unknownNative (typeName method : String)
  | notConstructible (name : String)
  -- Discipline of the stack
  | evalStackUnderflow
  | evalStackOverflow (limit : Nat)
  | frameUnderflow
  | hostFrameBusy (depth : Nat)
  | stackOverflow (requested limit : Nat)
  | callDepthExceeded (limit : Nat)
  | emptyStackOnReturn
  | stackNotDrained (remaining : Nat)
  | voidReturnWithValues (remaining : Nat)
  -- What an invocation needs
  | missingInstance (method : String)
  | unexpectedInstance (method : String)
  | argumentCountMismatch (method : String) (expected got : Nat)
  -- Shape of values
  | unexpectedValue (expected got : String)
  | sizeMismatch (expected got : Nat)
  | noInstance
  | nullReference
  | negativeArrayLength (length : Int)
  -- Arithmetic
  | divisionByZero
  | unsupportedOperation (op operand : String)
  -- Heap and natives
  | heap (error : Heap.Error)
  | native (method message : String)
  /-- The program stops: no word holds a size or an offset. -/
  | panic
  /-- The instruction at a place in a method failed. -/
  | fault (method : String) (index : Nat) (instruction : Instruction) (cause : Error)
  deriving DecidableEq, Inhabited, Repr

namespace Error

/-- A value of another shape than expected. -/
def unexpected (expected : String) (got : Value) : Error := .unexpectedValue expected got.shape

/-- The error of a scalar operation. -/
def ofScalar : Scalar.Error → Error
  | .divisionByZero => .divisionByZero
  | .unsupported symbol kind => .unsupportedOperation symbol kind.name

/-- The innermost error. -/
def rootCause : Error → Error
  | fault _ _ _ cause => cause.rootCause
  | e => e

/-- The number of places wrapped around the cause. -/
def faults : Error → Nat
  | fault _ _ _ cause => cause.faults + 1
  | _ => 0

/-- The error already names the instruction that raised it. -/
def isFault : Error → Bool
  | fault .. => true
  | _ => false

/-- The program stops. Such an error is passed on like any other, but no operation looks at it. -/
def isPanic : Error → Bool
  | type .panic | heap .panic | panic => true
  | fault _ _ _ cause => cause.isPanic
  | _ => false

/-- The text of the error. -/
def message : Error → String
  | type error => error.message
  | unknownMethod index => s!"unknown method #{index}"
  | unknownConstant index => s!"unknown constant #{index}"
  | unknownLocal index => s!"unknown local #{index}"
  | unknownArgument index => s!"unknown argument #{index}"
  | unknownMemberRef index => s!"unknown member reference #{index}"
  | unknownTypeRef index => s!"unknown type reference #{index}"
  | notAField index => s!"member reference #{index} does not name a field"
  | notAMethod index => s!"member reference #{index} does not name a method"
  | staticMismatch field true => s!"field '{field}' is not static"
  | staticMismatch field false => s!"field '{field}' is static"
  | missingTypeToken op => s!"{op.mnemonic} requires a preceding ldtype"
  | branchOutOfRange target => s!"branch target @{target} is out of range"
  | unknownNative typeName method => s!"no native implementation for {typeName}::{method}"
  | notConstructible name => s!"type '{name}' cannot be constructed with newobj"
  | evalStackUnderflow => "evaluation stack underflow"
  | evalStackOverflow limit => s!"evaluation stack overflow (limit {limit})"
  | frameUnderflow => "no active stack frame"
  | hostFrameBusy depth => s!"host frame is not active ({depth} frames on the stack)"
  | stackOverflow requested limit =>
    s!"stack arena exhausted: need {requested} bytes (limit {limit})"
  | callDepthExceeded limit => s!"call depth exceeded {limit} frames"
  | emptyStackOnReturn => "empty evaluation stack on non-void return"
  | stackNotDrained remaining => s!"evaluation stack not drained on return ({remaining} items)"
  | voidReturnWithValues remaining => s!"void method returned with {remaining} items on the stack"
  | missingInstance method => s!"instance method '{method}' invoked without instance"
  | unexpectedInstance method => s!"static method '{method}' invoked with an instance"
  | argumentCountMismatch method expected got =>
    s!"method '{method}' expects {expected} arguments, got {got}"
  | unexpectedValue expected got => s!"unexpected value: expected {expected}, got {got}"
  | sizeMismatch expected got => s!"value of {got} bytes does not fit a {expected}-byte slot"
  | noInstance => "no instance bound in static context"
  | nullReference => "null reference"
  | negativeArrayLength length => s!"negative array length {length}"
  | divisionByZero => "division by zero"
  | unsupportedOperation op operand => s!"operator '{op}' is not defined for {operand}"
  | heap error => error.message
  | native method message => s!"native {method}: {message}"
  | panic => "the program stopped"
  | fault method index instruction cause =>
    s!"{method}@{index} `{instruction.text}`: {cause.message}"

end Error

end ManagedVm
