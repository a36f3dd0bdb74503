import ManagedVm.Machine.Allocation

/-!
# Calling natives

What the bodies of natives do. A native works in the frame of its caller: it gets the instance and
the arguments as handles and makes its result in the caller's scratch or on the heap.

The natives of a host are not known here. They get the machine itself, and may do with it whatever the
host can do.
-/

namespace ManagedVm

/-- **The natives of a host**, by number. -/
class Host where
  run (number : Nat) (receiver : Option Value) (arguments : List Value) : Exec (Option Value)

/-- A host that registers nothing. -/
@[reducible] def Host.bare : Host where
  run _ _ _ := throw (.native "host" "nothing is registered")

namespace Exec

variable [Build]

/-- The text of a string argument. -/
def stringArgument (method : String) (v : Value) : Exec String :=
  match v with
  | .string .. => query (·.readString v)
  | v => throw (.native method s!"expected string argument, got {v.shape}")

/-- Writes a line to the output. -/
def printLine (line : String) : Exec Unit := modify fun m => { m with output := m.output.push line }

/-- Runs the body of a native. -/
def runNative [Host] (body : NativeBody) (receiver : Option Value) (arguments : List Value) :
    Exec (Option Value) := do
  match body, arguments with
  | .print, [text] =>
    let line ← stringArgument "system::Print" text
    record (.output line)
    printLine line
    return none
  | .print, _ => throw (.native "system::Print" "expected one argument")
  | .length, [text] =>
    let count := (← stringArgument "system::Length" text).utf8ByteSize
    if Int32.maxValue.toInt < count then
      throw (.native "system::Length" "string too long")
    return some (← makeScalar (.ofInt .int count))
  | .length, _ => throw (.native "system::Length" "expected one argument")
  | .concat, [left, right] =>
    let a ← stringArgument "system::Concat" left
    let b ← stringArgument "system::Concat" right
    return some (← makeString (a ++ b))
  | .concat, _ => throw (.native "system::Concat" "expected two arguments")
  | .host number, _ => Host.run number receiver arguments

end Exec

end ManagedVm
