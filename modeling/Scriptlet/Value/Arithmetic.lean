import Scriptlet.Tree.Operator
import Scriptlet.Value.Basic

/-!
# Operators on values

Both operands have to be integers, and the left one is looked at first. Arithmetic is exact:
division goes toward zero, and a result outside the range of integers is an error, never wrapped.
-/

namespace Scriptlet

/-- The value with an exact integer result, or the overflow of the named operation. -/
def Value.exact (operation : String) (n : Int) : Except ErrorKind Value :=
  match Integer.ofInt? n with
  | some i => .ok (.int i)
  | none => .error (.overflow operation)

/-- An operator on two integers. -/
def Operator.applyInt (a b : Int) : Operator → Except ErrorKind Value
  | add => Value.exact "addition" (a + b)
  | subtract => Value.exact "subtraction" (a - b)
  | multiply => Value.exact "multiplication" (a * b)
  | divide => if b = 0 then .error .divisionByZero else Value.exact "division" (a.tdiv b)
  | lessThan => .ok (.bool (a < b))
  | lessOrEqual => .ok (.bool (a ≤ b))
  | greaterThan => .ok (.bool (b < a))
  | greaterOrEqual => .ok (.bool (b ≤ a))
  | equal => .ok (.bool (a = b))
  | notEqual => .ok (.bool (a ≠ b))

/-- An operator on two values. -/
def Operator.apply (op : Operator) (left right : Value) : Except ErrorKind Value := do
  let a ← left.asInt
  let b ← right.asInt
  op.applyInt a.toInt b.toInt

end Scriptlet
