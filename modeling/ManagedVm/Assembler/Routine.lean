import ManagedVm.Image

/-!
# Method bodies under construction

A routine is a method whose branches may lead to labels that have no place yet. A label is bound to
the place of the next instruction, before or after the branches that use it, and may be bound again:
the last place counts. `Routine.finish` writes the places into the branches.
-/

namespace ManagedVm.Assembler

/-- Why something could not be assembled. -/
inductive Error
  /-- A branch leads to a label that was never bound. -/
  | unboundLabel (method : String) (label : Nat)
  /-- The type has no field of the name. -/
  | unknownField (owner : Nat) (name : String)
  deriving DecidableEq, Inhabited, Repr

/-- The text of the error. -/
def Error.message : Error → String
  | unboundLabel method label => s!"label L{label} in method '{method}' is unbound"
  | unknownField owner name => s!"type #{owner} has no field '{name}'"

/-- A branch target, by its number in the routine. -/
structure Label where
  number : Nat
  deriving DecidableEq, Inhabited

/-- A method under construction. -/
structure Routine where
  method : Method
  /-- Where each label is bound. -/
  labels : Array (Option Nat) := #[]
  /-- The branches to labels, by their place in the body, in the order they were added. -/
  branches : Array (Nat × Label) := #[]
  deriving DecidableEq, Inhabited

namespace Routine

/-- The place of the next instruction. -/
def position (r : Routine) : Nat := r.method.body.size

/-- Adds a parameter. -/
def addParameter (r : Routine) (name : String) (type : Nat) : Routine :=
  { r with method.parameters := r.method.parameters ++ [⟨name, type⟩] }

/-- Adds a local. -/
def addLocal (r : Routine) (name : String) (type : Nat) : Routine :=
  { r with method.locals := r.method.locals ++ [⟨name, type⟩] }

/-- Adds an instruction. -/
def emit (r : Routine) (i : Instruction) : Routine :=
  { r with method.body := r.method.body.push i }

/-- Adds a label that is not bound yet. -/
def addLabel (r : Routine) : Label × Routine :=
  (⟨r.labels.size⟩, { r with labels := r.labels.push none })

/-- Binds a label to the place of the next instruction. -/
def bind (r : Routine) (l : Label) : Routine :=
  { r with labels := r.labels.setIfInBounds l.number (some r.position) }

/-- Adds a branch to a label. -/
def branch (r : Routine) (op : Opcode) (l : Label) : Routine :=
  { r.emit ⟨op, -1⟩ with branches := r.branches.push (r.position, l) }

/-- The place a label is bound to. -/
def place? (r : Routine) (l : Label) : Option Nat := r.labels[l.number]?.join

/-- Writes the places of the labels into the branches of a body. -/
def patch (r : Routine) (body : Array Instruction) :
    List (Nat × Label) → Except Error (Array Instruction)
  | [] => .ok body
  | (index, label) :: rest =>
    match r.place? label with
    | none => .error (.unboundLabel r.method.name label.number)
    | some place =>
      r.patch (body.modify index fun i => { i with operand := .ofNat place }) rest

/-- The finished method, unless a branch leads to a label that was never bound. -/
def finish (r : Routine) : Except Error Method := do
  return { r.method with body := ← r.patch r.method.body r.branches.toList }

end Routine

end ManagedVm.Assembler
