import ManagedVm.CommandLine

/-!
# The program

Reads the arguments, writes the outcome. The program is built with overflow checks and registers no
natives of its own.
-/

open ManagedVm

def main (arguments : List String) : IO UInt32 := do
  match CommandLine.Options.parse? {} arguments with
  | none =>
    IO.eprintln "usage: [--demo NAME] [--list] [--dump] [--heap-size BYTES] [-v]"
    return 2
  | some options =>
    let outcome := @CommandLine.run .checked .bare options
    for e in outcome.journal.events do
      IO.eprintln s!"[{e.level.text}] {e.text}"
    outcome.out.forM IO.println
    outcome.err.forM IO.eprintln
    return outcome.code.toUInt32
