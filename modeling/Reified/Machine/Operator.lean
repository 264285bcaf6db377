import Reified.Machine.Fault
import Reified.Value.Text

/-!
# Applying operators

All operators but `!=` are defined on numbers only.
-/

namespace Reified.Operator

/-- The result of an operator on numbers. -/
def onNumbers : Operator → Number → Number → Value
  | .add, x, y => .number (x + y)
  | .sub, x, y => .number (x - y)
  | .mul, x, y => .number (x * y)
  | .div, x, y => .number (x / y)
  | .mod, x, y => .number (x % y)
  | .less, x, y => .bool (x.less y)
  | .lessEqual, x, y => .bool (x.lessEqual y)
  | .greater, x, y => .bool (y.less x)
  | .greaterEqual, x, y => .bool (y.lessEqual x)
  | .notEqual, x, y => .bool (!x.same y)

/-- The result of an operator. -/
def apply (h : Heap) (op : Operator) (a b : Value) : Except Fault Value :=
  match op with
  | .notEqual => .ok (.bool (!a.same b))
  | op =>
    match a, b with
    | .number x, .number y => .ok (op.onNumbers x y)
    | a, b => .error (.operands op.symbol (h.text a) (h.text b))

end Reified.Operator
