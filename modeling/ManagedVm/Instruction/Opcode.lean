/-!
# Opcodes

The fifty operations of the machine. The order of the constructors is the order of the codes, so
`Opcode.ofCode?` is a look-up in `Opcode.all`. What is decided here: the code, the mnemonic and how
the operand of an opcode is written. What an opcode does is decided by `Machine.Step`.
-/

namespace ManagedVm

/-- The operations, in the order of their codes. -/
inductive Opcode
  /-- No effect. -/
  | nop
  /- Arithmetic, concatenation and bit operations on the two topmost values. -/
  | add | sub | mul | div | mod | cnct | or | and | xor | shl | shr
  /-- Negation of the topmost value. -/
  | neg
  /- Constants, lengths, strings and default values. -/
  | ldc | ldlen | ldstr | lddft
  /- Locals, arguments, fields, static fields and the bound instance. -/
  | ldloc | stloc | ldarg | starg | ldfld | stfld | ldsfld | stsfld | ldthis
  /- Array elements, addresses and access through them, type tokens. -/
  | ldelem | stelem | ldflda | ldsflda | ldloca | ldarga | ldelema | ldind | stind | ldtype
  /- Conversion, construction and calls. -/
  | conv | newarr | newobj | call | ret
  /- Branches. -/
  | brtrue | brfalse | br
  /- Comparisons of the two topmost values. -/
  | ceq | cne | cgt | cge | clt | cle
  deriving DecidableEq, Inhabited, Repr

/-- What the operand of an opcode means, which is also how it is written. -/
inductive OperandRole
  /-- The opcode takes no operand. -/
  | absent
  /-- An index into one of the tables or slot lists: `#n`. -/
  | index
  /-- The position of an instruction in the body: `@n`. -/
  | target
  /-- A type definition, written bare. -/
  | plain
  deriving DecidableEq, Inhabited

namespace Opcode

/-- Every opcode, in the order of the codes. -/
def all : List Opcode :=
  [nop, add, sub, mul, div, mod, cnct, or, and, xor, shl, shr, neg,
   ldc, ldlen, ldstr, lddft,
   ldloc, stloc, ldarg, starg, ldfld, stfld, ldsfld, stsfld, ldthis,
   ldelem, stelem, ldflda, ldsflda, ldloca, ldarga, ldelema, ldind, stind, ldtype,
   conv, newarr, newobj, call, ret,
   brtrue, brfalse, br,
   ceq, cne, cgt, cge, clt, cle]

/-- The number of opcodes; every smaller byte is the code of one. -/
def count : Nat := 50

/-- The byte that stands for the opcode. -/
def code (op : Opcode) : UInt8 := op.ctorIdx.toUInt8

/-- The opcode a byte stands for. -/
def ofCode? (byte : UInt8) : Option Opcode := all[byte.toNat]?

/-- The name used in text. -/
def mnemonic : Opcode → String
  | nop => "nop"
  | add => "add"
  | sub => "sub"
  | mul => "mul"
  | div => "div"
  | mod => "mod"
  | cnct => "cnct"
  | or => "or"
  | and => "and"
  | xor => "xor"
  | shl => "shl"
  | shr => "shr"
  | neg => "neg"
  | ldc => "ldc"
  | ldlen => "ldlen"
  | ldstr => "ldstr"
  | lddft => "lddft"
  | ldloc => "ldloc"
  | stloc => "stloc"
  | ldarg => "ldarg"
  | starg => "starg"
  | ldfld => "ldfld"
  | stfld => "stfld"
  | ldsfld => "ldsfld"
  | stsfld => "stsfld"
  | ldthis => "ldthis"
  | ldelem => "ldelem"
  | stelem => "stelem"
  | ldflda => "ldflda"
  | ldsflda => "ldsflda"
  | ldloca => "ldloca"
  | ldarga => "ldarga"
  | ldelema => "ldelema"
  | ldind => "ldind"
  | stind => "stind"
  | ldtype => "ldtype"
  | conv => "conv"
  | newarr => "newarr"
  | newobj => "newobj"
  | call => "call"
  | ret => "ret"
  | brtrue => "brtrue"
  | brfalse => "brfalse"
  | br => "br"
  | ceq => "ceq"
  | cne => "cne"
  | cgt => "cgt"
  | cge => "cge"
  | clt => "clt"
  | cle => "cle"

/-- The opcode with a given mnemonic. -/
def ofMnemonic? (name : String) : Option Opcode := all.find? (·.mnemonic == name)

/-- What the operand means. -/
def operandRole : Opcode → OperandRole
  | nop | add | sub | mul | div | mod | cnct | or | and | xor | shl | shr | neg
  | ldlen | ldthis | ldelem | stelem | ldelema | ret
  | ceq | cne | cgt | cge | clt | cle => .absent
  | br | brtrue | brfalse => .target
  | ldtype => .plain
  | _ => .index

/-- The opcode reads its operand. -/
def hasOperand (op : Opcode) : Bool := op.operandRole != .absent

/-- The opcode may continue elsewhere than at the next instruction. -/
def isBranch (op : Opcode) : Bool := op.operandRole == .target

/-- The opcode combines the two topmost values into one of the left operand's type, or a string. -/
def isBinary : Opcode → Bool
  | add | sub | mul | div | mod | cnct | or | and | xor | shl | shr => true
  | _ => false

/-- The opcode compares the two topmost values. -/
def isComparison : Opcode → Bool
  | ceq | cne | cgt | cge | clt | cle => true
  | _ => false

@[simp] theorem length_all : all.length = count := rfl

theorem ofCode?_code (op : Opcode) : ofCode? op.code = some op := by
  cases op <;> rfl

/-- A byte is a code exactly when it is below the number of opcodes, and of one opcode only. -/
theorem ofCode?_eq_some_iff (byte : UInt8) (op : Opcode) :
    ofCode? byte = some op ↔ byte = op.code := by
  constructor
  · intro h
    have all_codes : ∀ i : Fin all.length, (all.get i).code.toNat = i := by decide
    obtain ⟨lt, rfl⟩ := List.getElem?_eq_some_iff.mp h
    exact UInt8.toNat.inj (all_codes ⟨byte.toNat, lt⟩).symm
  · rintro rfl
    exact ofCode?_code op

theorem isSome_ofCode?_iff (byte : UInt8) : (ofCode? byte).isSome ↔ byte.toNat < count := by
  simp [ofCode?]

end Opcode

end ManagedVm
