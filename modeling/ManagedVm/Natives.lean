/-!
# Natives

A native is a method that is not made of instructions. Methods flagged as native are looked up by the
names of their type and of themselves, both without a template suffix: everything from the first
backtick on is left out. A table keeps a native under the name of its type as given and its own name
without suffix; to register one under names already taken replaces it.

Three natives come with the machine, and a host may register others. What the natives do is data here,
so that the machine that holds the table can be plain data too: the machine gives the three their
meaning, and the host gives one to the numbers of its own.
-/

namespace ManagedVm

/-- What a native does when it is invoked. -/
inductive NativeBody
  /-- Writes its argument to the output. -/
  | print
  /-- Counts the bytes of its argument. -/
  | length
  /-- Joins its arguments. -/
  | concat
  /-- What the host does under a number. -/
  | host (number : Nat)
  deriving DecidableEq, Inhabited

/-- A method that is not made of instructions. -/
structure Native where
  typeName : String
  name : String
  arity : Nat
  /-- Bytes of scratch that the native may take from its caller's frame. -/
  reserve : Nat := 0
  body : NativeBody
  deriving DecidableEq, Inhabited

/-- The part of a name before its template suffix. -/
def stripTemplate (name : String) : String := String.ofList (name.toList.takeWhile (· ≠ '\x60'))

/-- The natives by type name and method name. -/
structure Natives where
  entries : List ((String × String) × Native) := []
  deriving DecidableEq, Inhabited

namespace Natives

/-- Adds or replaces a native. -/
def register (t : Natives) (n : Native) : Natives :=
  let key := (n.typeName, stripTemplate n.name)
  ⟨(key, n) :: t.entries.filter (·.1 ≠ key)⟩

/-- The native of a type name and a method name. -/
def find? (t : Natives) (typeName name : String) : Option Native :=
  let key := (stripTemplate typeName, stripTemplate name)
  (t.entries.find? (·.1 == key)).map (·.2)

/-- The number of natives. -/
def size (t : Natives) : Nat := t.entries.length

/-- The natives that every machine starts with. -/
def standard : Natives :=
  [{ typeName := "system", name := "Print", arity := 1, body := .print },
   { typeName := "system", name := "Length", arity := 1, reserve := 4, body := .length },
   { typeName := "system", name := "Concat", arity := 2, body := .concat : Native }].foldl
    register {}

end Natives

end ManagedVm
