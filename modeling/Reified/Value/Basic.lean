import Reified.Block.Basic
import Reified.Operator

/-!
# Values and the heap

Arrays, tuples, objects, functions and holes live in cells of a heap, and a value refers to its
cell. Two such values are the same only if they have the same cell; a change of an array is seen by
everybody who holds it. Types, strings and the simple values have no identity of their own.

A hole stands for an operation that cannot be carried out because an operand is only known as a
type.

Environments are cells, too: a scope that has been captured by a function stays alive and can still
be extended. An environment is always younger than the one around it.

The cells of each sort are numbered on their own. Reading a cell that does not exist gives an empty
one.

## Main definitions

* `Value`, `Heap`
* `Value.same` — the equality that programs see
* `Heap.lookup`, `Heap.define` — names in environments
* `Heap.zero` — the zero value of a type
-/

namespace Reified

/-- What a program computes with. -/
inductive Value where
  | unit
  | bool (b : Bool)
  | number (x : Number)
  | string (s : String)
  | array (cell : Nat)
  | tuple (cell : Nat)
  | object (cell : Nat)
  | function (cell : Nat)
  | builtin (op : Operator)
  | type (t : Ty)
  | hole (cell : Nat)
  deriving DecidableEq, Inhabited

/-- A function at run time: its code, the environment it was created in, and its type. -/
structure Closure where
  block : Block
  environment : Nat
  signature : Ty
  deriving Inhabited

/-- An operation that waits for an operand. -/
inductive Hole where
  | call (callee : Value) (args : List Value)
  | subscript (target index : Value)
  | member (object : Value) (field : String)
  deriving DecidableEq, Inhabited

/-- The names of one scope at run time, and the environment around it. -/
structure Environment where
  values : Fields Value
  parent : Option Nat
  deriving Inhabited

/-- The cells of a machine. -/
structure Heap where
  /-- The items of arrays and tuples. -/
  lists : Array (Array Value)
  objects : Array (Fields Value)
  closures : Array Closure
  holes : Array Hole
  environments : Array Environment
  deriving Inhabited

namespace Constant

/-- The value of a constant. -/
def value : Constant → Value
  | .unit => .unit
  | .bool b => .bool b
  | .number x => .number x
  | .string s => .string s

end Constant

namespace Value

/-- The kind of the cell of a value. A simple value has none; an operator counts as a function, and
a string and a type as if they had cells. -/
def cellKind? : Value → Option CellKind
  | .unit | .bool _ | .number _ => none
  | .string _ => some .string
  | .array _ => some .array
  | .tuple _ => some .tuple
  | .object _ => some .object
  | .function _ | .builtin _ => some .function
  | .type _ => some .type
  | .hole _ => some .hole

/-- The value is a type, or waits for one. -/
def isTypeLevel : Value → Bool
  | .type _ | .hole _ => true
  | _ => false

/-- The value is a hole. -/
def isHole : Value → Bool
  | .hole _ => true
  | _ => false

/-- The equality that programs see: numbers as numbers, strings, operators and types by their
content, everything else by its cell. -/
def same : Value → Value → Bool
  | .number x, .number y => x.same y
  | a, b => a = b

end Value

namespace Heap

/-- The heap without cells. -/
def empty : Heap := ⟨#[], #[], #[], #[], #[]⟩

/-! ## Cells -/

/-- The items of an array or a tuple. -/
def list (h : Heap) (cell : Nat) : Array Value := h.lists.getD cell #[]

/-- The fields of an object. -/
def object (h : Heap) (cell : Nat) : Fields Value := h.objects.getD cell []

/-- The function in a cell. -/
def closure (h : Heap) (cell : Nat) : Closure := h.closures.getD cell default

/-- The hole in a cell. -/
def hole (h : Heap) (cell : Nat) : Hole := h.holes.getD cell default

/-- A new array. -/
def newArray (h : Heap) (items : Array Value) : Value × Heap :=
  (.array h.lists.size, { h with lists := h.lists.push items })

/-- A new tuple. -/
def newTuple (h : Heap) (items : Array Value) : Value × Heap :=
  (.tuple h.lists.size, { h with lists := h.lists.push items })

/-- A new object. -/
def newObject (h : Heap) (fields : Fields Value) : Value × Heap :=
  (.object h.objects.size, { h with objects := h.objects.push fields })

/-- A new function. -/
def newClosure (h : Heap) (c : Closure) : Value × Heap :=
  (.function h.closures.size, { h with closures := h.closures.push c })

/-- A new hole. -/
def newHole (h : Heap) (x : Hole) : Value × Heap :=
  (.hole h.holes.size, { h with holes := h.holes.push x })

/-- Store an item of an array, filling up with unit values if the array is shorter. -/
def setItem (h : Heap) (cell index : Nat) (v : Value) : Heap :=
  { h with
    lists := h.lists.modify cell fun items =>
      (items ++ Array.replicate (index + 1 - items.size) Value.unit).setIfInBounds index v }

/-- Store a field of an object. -/
def setField (h : Heap) (cell : Nat) (name : String) (v : Value) : Heap :=
  { h with objects := h.objects.modify cell (Fields.insert name v) }

/-! ## Environments -/

/-- The environment in a cell. -/
def environment (h : Heap) (cell : Nat) : Environment := h.environments.getD cell default

/-- A new environment around which there is the given one. -/
def newEnvironment (h : Heap) (parent : Option Nat) : Nat × Heap :=
  (h.environments.size, { h with environments := h.environments.push ⟨[], parent⟩ })

/-- The environment around an environment. -/
def parent? (h : Heap) (cell : Nat) : Option Nat := (h.environment cell).parent

/-- Give a name a value in an environment. -/
def define (h : Heap) (cell : Nat) (name : String) (v : Value) : Heap :=
  { h with
    environments := h.environments.modify cell fun e =>
      { e with values := Fields.insert name v e.values } }

/-- The value of a name in an environment or, failing that, in the ones around it. -/
def lookup (h : Heap) (cell : Nat) (name : String) : Option Value :=
  match Fields.get? name (h.environment cell).values with
  | some v => some v
  | none =>
    match h.parent? cell with
    | some outer => if outer < cell then h.lookup outer name else none
    | none => none
termination_by cell

/-- The text of an environment: its names, and whether there is one around it. -/
def environmentText (h : Heap) (cell : Nat) : String :=
  let names := (Fields.names (h.environment cell).values).map Text.quote
  "Environment \x7b names: [" ++ ", ".intercalate names ++ "], has_parent: " ++
    boolText (h.parent? cell).isSome ++ " \x7d"

/-! ## Zero values -/

mutual

/-- The zero value of a type. Of a union it is that of the left member; where nothing is known it is
the unit value. -/
def zero : Ty → Heap → Value × Heap
  | .name "Bool", h => (.bool false, h)
  | .name "Number", h => (.number 0, h)
  | .name "String", h => (.string "", h)
  | .name "Type", h => (.type .void, h)
  | .name _, h => (.unit, h)
  | .array _, h => h.newArray #[]
  | .tuple ts, h => let (vs, h) := zeros ts h; h.newTuple vs.toArray
  | .record fs, h => let (vs, h) := zeroFields fs h; h.newObject vs
  | .union t _, h => zero t h
  | .binding _ t, h => zero t h
  | .var _, h | .fn .., h => (.unit, h)

/-- The zero values of a list of types. -/
def zeros : List Ty → Heap → List Value × Heap
  | [], h => ([], h)
  | t :: ts, h =>
    let (v, h) := zero t h
    let (vs, h) := zeros ts h
    (v :: vs, h)

/-- The zero values of named types. -/
def zeroFields : List (String × Ty) → Heap → List (String × Value) × Heap
  | [], h => ([], h)
  | (name, t) :: fs, h =>
    let (v, h) := zero t h
    let (vs, h) := zeroFields fs h
    ((name, v) :: vs, h)

end

end Heap

end Reified
