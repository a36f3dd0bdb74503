import ManagedVm.Instruction.Opcode

/-!
# Instructions

An instruction is an opcode with one signed operand. Opcodes that take no operand keep one all the
same: it is encoded and decoded, and is left out of the text only.
-/

namespace ManagedVm

/-- An opcode and its operand. -/
structure Instruction where
  op : Opcode
  operand : Int32 := 0
  deriving DecidableEq, Inhabited, Repr

namespace Instruction

/-- The operand as an index, which a negative one is not. -/
def index? (i : Instruction) : Option Nat :=
  if i.operand < 0 then none else some i.operand.toInt.toNat

/-- The text of the instruction, as listings and log lines show it. -/
def text (i : Instruction) : String :=
  match i.op.operandRole with
  | .absent => i.op.mnemonic
  | .index => s!"{i.op.mnemonic} #{i.operand}"
  | .target => s!"{i.op.mnemonic} @{i.operand}"
  | .plain => s!"{i.op.mnemonic} {i.operand}"

end Instruction

end ManagedVm
