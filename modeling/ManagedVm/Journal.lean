import ManagedVm.Error

/-!
# The journal

What the machine did, as a list of events. An event is data; its level and its text are functions of
it. A journal keeps the events up to a chosen level, in the order in which they happened, and
nothing else in the machine depends on it.
-/

namespace ManagedVm

/-- How much an event matters; a lower level matters more. -/
inductive Level
  | error
  | warn
  | info
  | debug
  | trace
  deriving DecidableEq, Inhabited

namespace Level

/-- The position of the level, the most important one first. -/
def rank : Level → Nat
  | error => 0
  | warn => 1
  | info => 2
  | debug => 3
  | trace => 4

/-- The name of the level. -/
def text : Level → String
  | error => "error"
  | warn => "warn"
  | info => "info"
  | debug => "debug"
  | trace => "trace"

/-- The level of a name. -/
def ofText? (name : String) : Option Level :=
  [error, warn, info, debug, trace].find? (·.text == name)

end Level

/-- Something the machine did. -/
inductive Event
  /-- The heap's arena got larger. -/
  | arenaGrown (before after : Nat)
  | allocated (size : Nat) (address : Address) (kind : ObjectKind)
  | freed (address : Address) (kind : ObjectKind)
  /-- An object was freed because nothing refers to it. -/
  | released (kind : ObjectKind) (address : Address)
  /-- The block of a type's static fields was made. -/
  | staticBlock (typeName : String) (address : Address)
  | framePushed (number size : Nat) (base : Address) (maxDepth : Nat)
  | framePopped (number used size : Nat)
  /-- A frame needed more bytes than it was made with. -/
  | frameOutgrown (number size : Nat)
  /-- The host's frame was emptied. -/
  | hostCleared (dropped : Nat)
  | invoking (method : String)
  /-- The evaluation stack of a method was sized. -/
  | sized (method : String) (depth bytes : Nat)
  /-- The parts of the frame of a method. -/
  | framePlanned (method : String) (slots evaluation reserve : Nat)
  /-- An instruction is about to run. -/
  | executing (method : String) (index : Nat) (instruction : Instruction)
  /-- An instruction failed. -/
  | failed (method : String) (index : Nat) (instruction : Instruction) (error : Error)
  /-- The program wrote a line. -/
  | output (line : String)
  /-- What became of the heap. -/
  | heapSummary (allocations frees objects bytes : Nat)

namespace Event

/-- How much the event matters. -/
def level : Event → Level
  | failed .. => .error
  | frameOutgrown .. => .warn
  | invoking _ | output _ | heapSummary .. => .info
  | released .. | staticBlock .. | framePushed .. | framePopped .. | hostCleared _ | sized ..
  | framePlanned .. => .debug
  | arenaGrown .. | allocated .. | freed .. | executing .. => .trace

/-- The text of the event. -/
def text : Event → String
  | arenaGrown before after => s!"heap: growing arena {before} -> {after}"
  | allocated size address kind =>
    s!"heap: allocated {size} bytes at {address.text} ({kind.text})"
  | freed address kind => s!"heap: freed {address.text} ({kind.text})"
  | released kind address => s!"released {kind.text} at {address.text}"
  | staticBlock typeName address => s!"static block for '{typeName}' at {address.text}"
  | framePushed number size base maxDepth =>
    s!"frame #{number} pushed: {size} bytes at {base.text}, depth {maxDepth}"
  | framePopped number used size => s!"frame #{number} popped: used {used} of {size} bytes"
  | frameOutgrown number size => s!"frame #{number} outgrew its resolved size of {size} bytes"
  | hostCleared dropped => s!"host frame cleared: {dropped} values dropped"
  | invoking method => s!"invoking method '{method}'"
  | sized method depth bytes => s!"resolved '{method}': depth {depth}, {bytes} bytes"
  | framePlanned method slots evaluation reserve =>
    s!"frame for '{method}': {slots} slot bytes, {evaluation} eval bytes, {reserve} native bytes"
  | executing method index instruction => s!"{method}@{index}: {instruction.text}"
  | failed method index instruction error =>
    s!"{method}@{index}: {instruction.op.mnemonic} {instruction.operand} failed: {error.message}"
  | output line => s!"program output: {line}"
  | heapSummary allocations frees objects bytes =>
    s!"heap: {allocations} allocations, {frees} frees, {objects} live objects ({bytes} bytes)"

end Event

/-- The events up to a level. -/
structure Journal where
  /-- The least important level that is kept; without one nothing is. -/
  threshold : Option Level := none
  events : Array Event := #[]
  deriving Inhabited

namespace Journal

/-- Events of the level are kept. -/
def keeps (j : Journal) (l : Level) : Bool :=
  match j.threshold with
  | some t => l.rank ≤ t.rank
  | none => false

/-- The journal after an event. -/
def record (j : Journal) (e : Event) : Journal :=
  if j.keeps e.level then { j with events := j.events.push e } else j

end Journal

end ManagedVm
