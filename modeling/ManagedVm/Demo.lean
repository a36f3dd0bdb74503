import ManagedVm.Assembler.Basic

/-!
# Demo programs

Small programs, each with the index of the method to start at.
-/

namespace ManagedVm

open Assembler

/-- A demo program. -/
structure Demo where
  name : String
  about : String
  /-- Assembles the program and returns its entry method. -/
  build : Assembler Nat

namespace Demo

/-! ## Writing bodies -/

/-- Operations on a routine. -/
abbrev Code := StateM Routine

/-- Adds instructions. -/
def emit (body : List Instruction) : Code Unit := modify fun r => body.foldl Routine.emit r

/-- A new label. -/
def newLabel : Code Label := modifyGet Routine.addLabel

/-- Binds a label here. -/
def bind (l : Label) : Code Unit := modify (·.bind l)

/-- Branches to a label. -/
def branch (op : Opcode) (l : Label) : Code Unit := modify (·.branch op l)

/-- The routine of a method with the given code. -/
def routine (method : Method) (code : Code Unit) : Routine := (code.run { method }).2

/-- An instruction with an index as its operand. -/
def ins (op : Opcode) (operand : Nat := 0) : Instruction := ⟨op, .ofNat operand⟩

/-- The class of the entry methods. -/
def programClass : Assembler Nat := staticClass "Program"

/-- Declares the native that prints a line, and returns the reference for calls. -/
def printMethod : Assembler Nat := do
  let void ← voidType
  let string ← stringType
  let system ← staticClass "system"
  addCallable
    { method :=
        { name := "Print", owner := system, returnType := void, isStatic := true, isNative := true
          parameters := [⟨"text", string⟩] } }

/-! ## Programs -/

/-- Evaluates `(1 + 2) * (3 + 4)`. -/
def arithmetic : Assembler Nat := do
  let int ← intType
  let owner ← programClass
  let one ← intConstant 1
  let two ← intConstant 2
  let three ← intConstant 3
  let four ← intConstant 4
  addMethod <| routine { name := "main", owner, returnType := int, isStatic := true } do
    emit [ins .ldc one, ins .ldc two, ins .add]
    emit [ins .ldc three, ins .ldc four, ins .add]
    emit [ins .mul, ins .ret]

/-- Takes the greater of two numbers by a branch. -/
def branching : Assembler Nat := do
  let int ← intType
  let owner ← programClass
  let three ← intConstant 3
  let nine ← intConstant 9
  let greater ← addCallable <| routine
    { name := "max", owner, returnType := int, isStatic := true
      parameters := [⟨"a", int⟩, ⟨"b", int⟩] } do
    let second ← newLabel
    emit [ins .ldarg 1, ins .ldarg 0, ins .cgt]
    branch .brtrue second
    emit [ins .ldarg 0, ins .ret]
    bind second
    emit [ins .ldarg 1, ins .ret]
  addMethod <| routine { name := "main", owner, returnType := int, isStatic := true } do
    emit [ins .ldc three, ins .ldc nine, ins .call greater, ins .ret]

/-- Sums the numbers from one to `n` in a loop. -/
def countingLoop (n : Int) : Assembler Nat := do
  let int ← intType
  let owner ← programClass
  let nought ← intConstant 0
  let one ← intConstant 1
  let limit ← intConstant n
  let i := 0
  let sum := 1
  addMethod <| routine
    { name := "main", owner, returnType := int, isStatic := true
      locals := [⟨"i", int⟩, ⟨"sum", int⟩] } do
    let top ← newLabel
    let done ← newLabel
    emit [ins .ldc nought, ins .stloc sum]
    emit [ins .ldc one, ins .stloc i]
    bind top
    emit [ins .ldloc i, ins .ldc limit, ins .cgt]
    branch .brtrue done
    emit [ins .ldloc sum, ins .ldloc i, ins .add, ins .stloc sum]
    emit [ins .ldloc i, ins .ldc one, ins .add, ins .stloc i]
    branch .br top
    bind done
    emit [ins .ldloc sum, ins .ret]

/-- Fills an array of `n` numbers with the squares of their indices and sums it. -/
def fillArray (n : Int) : Assembler Nat := do
  let int ← intType
  let ints ← arrayOf int
  let owner ← programClass
  let nought ← intConstant 0
  let one ← intConstant 1
  let length ← intConstant n
  let a := 0
  let i := 1
  let sum := 2
  addMethod <| routine
    { name := "main", owner, returnType := int, isStatic := true
      locals := [⟨"a", ints⟩, ⟨"i", int⟩, ⟨"sum", int⟩] } do
    emit [ins .ldc length, ins .newarr ints, ins .stloc a]
    let fill ← newLabel
    let filled ← newLabel
    emit [ins .ldc nought, ins .stloc i]
    bind fill
    emit [ins .ldloc i, ins .ldloc a, ins .ldlen, ins .clt]
    branch .brfalse filled
    emit [ins .ldloc i, ins .ldloc i, ins .mul]
    emit [ins .ldloc i, ins .ldloc a, ins .stelem]
    emit [ins .ldloc i, ins .ldc one, ins .add, ins .stloc i]
    branch .br fill
    bind filled
    let add ← newLabel
    let summed ← newLabel
    emit [ins .ldc nought, ins .stloc sum]
    emit [ins .ldc nought, ins .stloc i]
    bind add
    emit [ins .ldloc i, ins .ldloc a, ins .ldlen, ins .clt]
    branch .brfalse summed
    emit [ins .ldloc sum]
    emit [ins .ldloc i, ins .ldloc a, ins .ldelem]
    emit [ins .add, ins .stloc sum]
    emit [ins .ldloc i, ins .ldc one, ins .add, ins .stloc i]
    branch .br add
    bind summed
    emit [ins .ldloc sum, ins .ret]

/-- Makes a struct by its constructor and calls a method on it by address. -/
def structs : Assembler Nat := do
  let int ← intType
  let void ← voidType
  let owner ← programClass
  let point ← composite "Point" .struct
  let x ← addField point "x" int false
  let y ← addField point "y" int false
  let newPoint ← addConstructor <| routine
    { name := ".ctor", owner := point, returnType := void
      parameters := [⟨"x", int⟩, ⟨"y", int⟩] } do
    emit [ins .ldarg 0, ins .ldthis, ins .stfld x]
    emit [ins .ldarg 1, ins .ldthis, ins .stfld y]
    emit [ins .ret]
  let squared ← addCallable <| routine { name := "squared", owner := point, returnType := int } do
    emit [ins .ldthis, ins .ldfld x, ins .ldthis, ins .ldfld x, ins .mul]
    emit [ins .ldthis, ins .ldfld y, ins .ldthis, ins .ldfld y, ins .mul]
    emit [ins .add, ins .ret]
  let three ← intConstant 3
  let four ← intConstant 4
  addMethod <| routine
    { name := "main", owner, returnType := int, isStatic := true, locals := [⟨"p", point⟩] } do
    emit [ins .ldc three, ins .ldc four, ins .newobj newPoint]
    emit [ins .stloc 0]
    emit [ins .ldtype point, ins .ldloca 0, ins .call squared]
    emit [ins .ret]

/-- Builds a linked list and sums it. -/
def classes : Assembler Nat := do
  let int ← intType
  let void ← voidType
  let owner ← programClass
  let node ← composite "Node" .object
  let value ← addField node "value" int false
  let next ← addField node "next" node false
  let nought ← intConstant 0
  let newNode ← addConstructor <| routine
    { name := ".ctor", owner := node, returnType := void
      parameters := [⟨"value", int⟩, ⟨"next", node⟩] } do
    emit [ins .ldarg 0, ins .ldthis, ins .stfld value]
    emit [ins .ldarg 1, ins .ldthis, ins .stfld next]
    emit [ins .ret]
  let values ← [3, 2, 1].mapM intConstant
  let head := 0
  let sum := 1
  addMethod <| routine
    { name := "main", owner, returnType := int, isStatic := true
      locals := [⟨"head", node⟩, ⟨"sum", int⟩] } do
    values.forM fun c =>
      emit [ins .ldc c, ins .ldloc head, ins .newobj newNode, ins .stloc head]
    let walk ← newLabel
    let done ← newLabel
    emit [ins .ldc nought, ins .stloc sum]
    bind walk
    emit [ins .ldloc head]
    branch .brfalse done
    emit [ins .ldloc sum, ins .ldloc head, ins .ldfld value]
    emit [ins .add, ins .stloc sum]
    emit [ins .ldloc head, ins .ldfld next, ins .stloc head]
    branch .br walk
    bind done
    emit [ins .ldloc sum, ins .ret]

/-- Computes a factorial by recursion. -/
def factorial : Assembler Nat := do
  let long ← primitiveType (.word .long)
  let owner ← programClass
  let one ← scalarConstant (.ofInt .long 1)
  let ten ← scalarConstant (.ofInt .long 10)
  let fact ← addCallable <| routine
    { name := "fact", owner, returnType := long, isStatic := true, parameters := [⟨"n", long⟩] } do
    let recurse ← newLabel
    emit [ins .ldarg 0, ins .ldc one, ins .cgt]
    branch .brtrue recurse
    emit [ins .ldc one, ins .ret]
    bind recurse
    emit [ins .ldarg 0]
    emit [ins .ldarg 0, ins .ldc one, ins .sub]
    -- The reference to this method is the first one made.
    emit [ins .call 0, ins .mul, ins .ret]
  addMethod <| routine { name := "main", owner, returnType := long, isStatic := true } do
    emit [ins .ldc ten, ins .call fact, ins .ret]

/-- Converts a number to a string, in two ways. -/
def conversion : Assembler Nat := do
  let string ← stringType
  let owner ← programClass
  let print ← printMethod
  let label ← stringConstant "answer: "
  let answer ← intConstant 42
  addMethod <| routine { name := "main", owner, returnType := string, isStatic := true } do
    emit [ins .ldstr label]
    emit [ins .ldc answer, ins .conv string]
    emit [ins .add]
    emit [ins .ldstr label, ins .ldc answer, ins .cnct]
    emit [ins .call print]
    emit [ins .ret]

/-- Prints a line. -/
def print : Assembler Nat := do
  let void ← voidType
  let owner ← programClass
  let print ← printMethod
  let hello ← stringConstant "hello, world"
  addMethod <| routine { name := "main", owner, returnType := void, isStatic := true } do
    emit [ins .ldstr hello, ins .call print, ins .ret]

/-- The demos, in the order in which they are listed. -/
def all : List Demo :=
  [⟨"arithmetic", "(1 + 2) * (3 + 4)", arithmetic⟩,
   ⟨"branching", "max(3, 9) through a conditional branch", branching⟩,
   ⟨"loop", "sum of 1..=100", countingLoop 100⟩,
   ⟨"arrays", "sum of squares stored in an int[10]", fillArray 10⟩,
   ⟨"structs", "squared length of a Point(3, 4)", structs⟩,
   ⟨"classes", "linked list of three nodes, summed", classes⟩,
   ⟨"factorial", "recursive 10!", factorial⟩,
   ⟨"conversion", "int to string and concatenation", conversion⟩,
   ⟨"print", "hello through system::Print", print⟩]

/-- The demo of a name. -/
def find? (name : String) : Option Demo := all.find? (·.name == name)

end Demo

end ManagedVm
