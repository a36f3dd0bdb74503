import ManagedVm.Floating.Arithmetic
import ManagedVm.Scalar.Basic

/-!
# Conversion, arithmetic and comparison of scalars

The right operand of an operation is first converted to the kind of the left one, and the result has
that kind. Words wrap around; a shift takes its count modulo the width; division by a word that is
zero after the conversion is an error.

A conversion to a word goes through the whole numbers of 128 bits: a floating-point number is
truncated and kept within that range, and what does not fit the word is then dropped from the top.
-/

namespace ManagedVm.Scalar

/-- The operations on two scalars. -/
inductive Operator
  | add | sub | mul | div | rem | or | and | xor | shl | shr
  deriving DecidableEq, Inhabited

/-- The sign of the operation in messages. -/
def Operator.symbol : Operator → String
  | add => "+"
  | sub => "-"
  | mul => "*"
  | div => "/"
  | rem => "%"
  | or => "|"
  | and => "&"
  | xor => "^"
  | shl => "<<"
  | shr => ">>"

/-- The comparisons of two scalars. -/
inductive Comparison
  | eq | ne | gt | ge | lt | le
  deriving DecidableEq, Inhabited

/-- Whether a comparison holds of two values with the given order. Of values that do not compare,
only "differs" holds. -/
def Comparison.holds : Comparison → Option Ordering → Bool
  | ne, none => true
  | _, none => false
  | eq, some o => o = .eq
  | ne, some o => o ≠ .eq
  | gt, some o => o = .gt
  | ge, some o => o ≠ .lt
  | lt, some o => o = .lt
  | le, some o => o ≠ .gt

/-- The comparison asks for equality only. -/
def Comparison.isEquality : Comparison → Bool
  | eq | ne => true
  | _ => false

/-- Why an operation has no result. -/
inductive Error
  | divisionByZero
  /-- The operation does not exist for the kind. -/
  | unsupported (symbol : String) (kind : Kind)
  deriving DecidableEq, Inhabited, Repr

/-- The text of the error. -/
def Error.message : Error → String
  | divisionByZero => "division by zero"
  | unsupported symbol kind => s!"operator '{symbol}' is not defined for {kind.name}"

/-! ## Conversion -/

/-- The whole number of a scalar, within 128 bits. -/
def toInt : Scalar → Int
  | word k bits => k.value bits
  | floating _ bits => Floating.truncate (BitVec.intMin 128).toInt (BitVec.intMax 128).toInt bits
  | bool b => if b then 1 else 0

/-- Any value but zero; a pattern that is no number counts as well. -/
def isTruthy : Scalar → Bool
  | word _ bits => bits ≠ 0
  | floating _ bits => !Floating.isZero bits
  | bool b => b

/-- The value as a word. -/
def toWord (s : Scalar) (k : WordKind) : BitVec k.width := .ofInt k.width s.toInt

/-- The value as a floating-point number. Whole numbers reach single precision through double
precision. -/
def toFloating (s : Scalar) (q : Precision) : Floating.Pattern q :=
  match s with
  | floating p bits => Floating.convert p q bits
  | s => Floating.convert .double q (Floating.ofInt .double s.toInt)

/-- The value as one of another kind. -/
def convert (s : Scalar) : Kind → Scalar
  | .word k => .word k (s.toWord k)
  | .floating p => .floating p (s.toFloating p)
  | .bool => .bool s.isTruthy

@[simp] theorem kind_convert (s : Scalar) (kind : Kind) : (s.convert kind).kind = kind := by
  cases kind <;> rfl

/-! ## Operations -/

/-- An operation on words of one kind. -/
def wordOperation (k : WordKind) (op : Operator) (x y : BitVec k.width) :
    Except Error (BitVec k.width) :=
  match op with
  | .add => .ok (x + y)
  | .sub => .ok (x - y)
  | .mul => .ok (x * y)
  | .div =>
    if y = 0 then .error .divisionByZero
    else .ok (if k.isSigned then x.sdiv y else x.udiv y)
  | .rem =>
    if y = 0 then .error .divisionByZero
    else .ok (if k.isSigned then x.srem y else x.umod y)
  | .or => .ok (x ||| y)
  | .and => .ok (x &&& y)
  | .xor => .ok (x ^^^ y)
  | .shl => .ok (x <<< (y.toNat % k.width))
  | .shr =>
    let count := y.toNat % k.width
    .ok (if k.isSigned then x.sshiftRight count else x >>> count)

/-- An operation on floating-point numbers of one precision. -/
def floatingOperation (p : Precision) (op : Operator) (x y : Floating.Pattern p) :
    Except Error (Floating.Pattern p) :=
  match op with
  | .add => .ok (Floating.add x y)
  | .sub => .ok (Floating.sub x y)
  | .mul => .ok (Floating.mul x y)
  | .div => .ok (Floating.div x y)
  | .rem => .ok (Floating.rem x y)
  | op => .error (.unsupported op.symbol (.floating p))

/-- An operation on truth values. -/
def boolOperation (op : Operator) (x y : Bool) : Except Error Bool :=
  match op with
  | .or => .ok (x || y)
  | .and => .ok (x && y)
  | .xor => .ok (x ^^ y)
  | op => .error (.unsupported op.symbol .bool)

/-- An operation on two scalars. -/
def binary (op : Operator) (a b : Scalar) : Except Error Scalar :=
  match a with
  | word k x => (wordOperation k op x (b.toWord k)).map (.word k)
  | floating p x => (floatingOperation p op x (b.toFloating p)).map (.floating p)
  | bool x => (boolOperation op x b.isTruthy).map .bool

/-- The value with the opposite sign. -/
def negate : Scalar → Except Error Scalar
  | word .char _ => .error (.unsupported "-" (.word .char))
  | word k bits => .ok (.word k (-bits))
  | floating p bits => .ok (.floating p (Floating.negate bits))
  | bool _ => .error (.unsupported "-" .bool)

/-- Whether a comparison of two scalars holds. Truth values have no order. -/
def compare (c : Comparison) (a b : Scalar) : Except Error Bool :=
  match a with
  | word k x => .ok (c.holds (some (Ord.compare (k.value x) (k.value (b.toWord k)))))
  | floating p x => .ok (c.holds (Floating.compare? x (b.toFloating p)))
  | bool x =>
    if c.isEquality then
      .ok (c.holds (some (if x = b.isTruthy then .eq else .lt)))
    else
      .error (.unsupported "<" .bool)

end ManagedVm.Scalar
