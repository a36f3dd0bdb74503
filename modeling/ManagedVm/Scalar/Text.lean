import ManagedVm.Floating.Decimal
import ManagedVm.Scalar.Basic

/-!
# The text of scalars

Words are written in decimal, truth values as words, floating-point numbers by their shortest
decimal. A character unit is written as the character, or as U+FFFD when it is half of a surrogate
pair.
-/

namespace ManagedVm.Scalar

/-- The character of a UTF-16 code unit that stands alone. -/
def character (unit : BitVec 16) : Char :=
  if unit.toNat.isValidChar then Char.ofNat unit.toNat else '\uFFFD'

/-- The text of the value. -/
def text : Scalar → String
  | word .char bits => String.singleton (character bits)
  | word k bits => toString (k.value bits)
  | floating _ bits => Floating.text bits
  | bool b => if b then "true" else "false"

end ManagedVm.Scalar
