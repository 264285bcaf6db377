import Reified.Ty.Basic

/-!
# Operators that are values

Ten binary operators are ordinary values, bound by their symbols in the outermost scope of the
checker and of every machine. The two equality tests of the language differ here: `!=` is such a
value, `==` is an instruction of its own.

## Main definitions

* `Operator` — the operators
* `Operator.signature` — their types
-/

namespace Reified

/-- The operators that are values. -/
inductive Operator where
  | add | sub | mul | div | mod | less | lessEqual | greater | greaterEqual | notEqual
  deriving DecidableEq, Inhabited

/-- What an operator takes or gives. -/
inductive OperandSort where
  | number
  | bool
  /-- The single type parameter of the operator. -/
  | any
  deriving DecidableEq

/-- The type of an operand, where `any` stands for the type parameter. -/
def OperandSort.ty (any : Ty) : OperandSort → Ty
  | .number => .number
  | .bool => .bool
  | .any => any

namespace Operator

/-- All operators, in the order in which they are bound. -/
def all : List Operator :=
  [.add, .sub, .mul, .div, .mod, .less, .lessEqual, .greater, .greaterEqual, .notEqual]

/-- The symbol that an operator is bound to. -/
def symbol : Operator → String
  | .add => "+" | .sub => "-" | .mul => "*" | .div => "/" | .mod => "%"
  | .less => "<" | .lessEqual => "<=" | .greater => ">" | .greaterEqual => ">="
  | .notEqual => "!="

/-- The operator of a symbol. -/
def ofSymbol? (s : String) : Option Operator :=
  all.find? fun op => op.symbol = s

/-- What an operator takes on both sides. -/
def operands : Operator → OperandSort
  | .notEqual => .any
  | _ => .number

/-- What an operator gives. -/
def result : Operator → OperandSort
  | .add | .sub | .mul | .div | .mod => .number
  | _ => .bool

/-- The type of an operator, where `any` stands for its type parameter. -/
def signature (op : Operator) (any : Ty) : Ty :=
  .fn [op.operands.ty any, op.operands.ty any] (op.result.ty any) 0

theorem mem_all (op : Operator) : op ∈ all := by
  cases op <;> decide

end Operator

end Reified
