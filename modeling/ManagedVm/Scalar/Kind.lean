import ManagedVm.Floating.Format

/-!
# Primitive kinds

The twelve kinds of primitive values. Nine of them are words: whole numbers of a fixed width, signed
or not, and character units, which compute like unsigned words of sixteen bits. Keeping the words
together gives them one arithmetic.
-/

namespace ManagedVm

/-- The kinds whose values are words. -/
inductive WordKind
  | sbyte | byte | short | ushort | int | uint | long | ulong
  /-- A UTF-16 code unit. -/
  | char
  deriving DecidableEq, Inhabited, Repr

namespace WordKind

/-- Bytes of one value. -/
def size : WordKind → Nat
  | sbyte | byte => 1
  | short | ushort | char => 2
  | int | uint => 4
  | long | ulong => 8

/-- Bits of one value. -/
def width (k : WordKind) : Nat := 8 * k.size

/-- The highest bit is a sign. -/
def isSigned : WordKind → Bool
  | sbyte | short | int | long => true
  | byte | ushort | uint | ulong | char => false

/-- The number a word stands for. -/
def value (k : WordKind) (bits : BitVec k.width) : Int :=
  if k.isSigned then bits.toInt else bits.toNat

end WordKind

/-- The kinds of primitive values. -/
inductive Kind
  | word (kind : WordKind)
  | floating (precision : Precision)
  | bool
  deriving DecidableEq, Inhabited, Repr

namespace Kind

/-- Every kind, in the order in which built-in types are made. -/
def all : List Kind :=
  [word .sbyte, word .byte, word .short, word .ushort, word .int, word .uint, word .long,
   word .ulong, floating .single, floating .double, bool, word .char]

/-- The position among all kinds. -/
def ordinal : Kind → Nat
  | word .sbyte => 0
  | word .byte => 1
  | word .short => 2
  | word .ushort => 3
  | word .int => 4
  | word .uint => 5
  | word .long => 6
  | word .ulong => 7
  | floating .single => 8
  | floating .double => 9
  | bool => 10
  | word .char => 11

/-- Bytes of one value. -/
def size : Kind → Nat
  | word k => k.size
  | floating .single => 4
  | floating .double => 8
  | bool => 1

/-- The name of the built-in type of the kind. -/
def name : Kind → String
  | word .sbyte => "sbyte"
  | word .byte => "byte"
  | word .short => "short"
  | word .ushort => "ushort"
  | word .int => "int"
  | word .uint => "uint"
  | word .long => "long"
  | word .ulong => "ulong"
  | floating .single => "float"
  | floating .double => "double"
  | bool => "bool"
  | word .char => "char"

/-- The kind whose built-in type has a given name. -/
def ofName? (name : String) : Option Kind := all.find? (·.name == name)

/-- Values of the kind are numbers. -/
def isNumeric : Kind → Bool
  | bool | word .char => false
  | _ => true

/-- Values of the kind are floating-point numbers. -/
def isFloating : Kind → Bool
  | floating _ => true
  | _ => false

/-- Values of the kind can be negative. -/
def isSigned : Kind → Bool
  | word k => k.isSigned
  | floating _ => true
  | bool => false

theorem getElem?_all_ordinal (k : Kind) : all[k.ordinal]? = some k := by
  rcases k with k | p | _
  · cases k <;> rfl
  · cases p <;> rfl
  · rfl

end Kind

end ManagedVm
