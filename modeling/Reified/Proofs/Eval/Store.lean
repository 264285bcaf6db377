import Reified.Lowering.Program
import Reified.Machine.Step

/-!
# Direct evaluation: the store

Programs have a meaning without code: their trees are evaluated. This module has what evaluation acts
on, and the actions that do not depend on the tree.

A store is the heap of a machine, except that a function is its tree, beside the environment it was
created in. Wherever a value is shown in a message, a function is shown by its name only, so the
store is then seen as a heap of functions without code.

An evaluation ends with a result or with a failure of the program, or it is left unfinished, because
the number of nested calls and of rounds of loops that it was given is used up.

## Main definitions

* `Function`, `Store` — functions as trees, and the store
* `Stop`, `Eval` — evaluations
* `Eval.lookup`, `Eval.define`, `Eval.child` — names in environments
* `Eval.item`, `Eval.member`, `Eval.subscript` — access to the parts of a value
-/

namespace Reified

/-- A function as it is declared, with the environment it was created in. -/
structure Function where
  head : FnHead
  body : List Decl
  environment : Nat

/-- What an evaluation acts on. The functions of the heap are not used. -/
structure Store where
  heap : Heap
  functions : Array Function

/-- The store as a heap in which functions have nothing but their names. -/
def Store.shown (s : Store) : Heap :=
  { s.heap with
    closures := s.functions.map fun f => ⟨Block.new f.head.name 0, f.environment, .void⟩ }

/-- Why an evaluation ends without a result. -/
inductive Stop where
  /-- The program fails. -/
  | fault (e : Fault)
  /-- The evaluation is left unfinished. -/
  | unfinished

/-- An evaluation. -/
abbrev Eval := EStateM Stop Store

namespace Eval

variable {α : Type}

/-- The program fails. -/
def fail (e : Fault) : Eval α := throw (.fault e)

/-- Act on the heap. -/
@[inline] def onHeap (f : Heap → α × Heap) : Eval α :=
  fun ⟨h, fs⟩ => let (a, h) := f h; .ok a ⟨h, fs⟩

/-- Look at the heap. -/
@[inline] def heap : Eval Heap := fun s => .ok s.heap s

/-- The text of a value. -/
def text (v : Value) : Eval String := fun s => .ok (s.shown.text v) s

/-! ## Environments -/

/-- The value of a name in an environment. -/
def lookup (environment : Nat) (name : String) : Eval Value := fun s =>
  match s.heap.lookup environment name with
  | some v => .ok v s
  | none => .error (.fault (.unknownVariable name)) s

/-- Define a name in an environment. -/
def define (environment : Nat) (name : String) (v : Value) : Eval Unit :=
  onHeap fun h => ((), h.define environment name v)

/-- A new environment inside another one. -/
def child (environment : Nat) : Eval Nat := onHeap (·.newEnvironment (some environment))

/-! ## Parts of values -/

/-- The truth value that a condition has. -/
def truth (v : Value) : Eval Bool := do
  match v with
  | .bool b => pure b
  | v => fail (.notCondition (← text v))

/-- The position that an index value names. -/
def index (v : Value) : Eval Nat := do
  match v with
  | .number x =>
    match x.whole? with
    | some n => pure n
    | none => fail (.notIndex (← text v))
  | v => fail (.notIndex (← text v))

/-- The item of a list of values at a position; `shown` is the index in a message, and `target` what
is being indexed. -/
def item (cell position : Nat) (shown : Eval String) (target : Value) : Eval Value := do
  match ((← heap).list cell)[position]? with
  | some v => pure v
  | none => fail (.indexOutOfBounds (← shown) (← text target))

/-- The item of a tuple at a position that is known. -/
def tupleItem (target : Value) (position : Nat) : Eval Value := do
  match target with
  | .tuple c => item c position (pure (toString position)) target
  | target => fail (.notTuple (← text target))

/-- The element of an array at an index. -/
def element (target i : Value) : Eval Value := do
  match target with
  | .array c => item c (← index i) (text i) target
  | target => fail (.notArray (← text target))

/-- The element of a value of which checking has not found out what it is. -/
def subscript (target i : Value) : Eval Value := do
  match target, i with
  | .array _, i => element target i
  | .tuple c, .number _ => item c (← index i) (text i) target
  | .object c, .string name => do
    match Fields.get? name ((← heap).object c) with
    | some v => pure v
    | none => fail (.missingField name (← text target))
  | target, i =>
    if target.isTypeLevel || i.isTypeLevel then onHeap (·.newHole (.subscript target i))
    else fail (.notIndexable (← text target) (← text i))

/-- The field of an object. Unless checking has found out that there is one, the field of a type is a
hole. -/
def member (known : Bool) (v : Value) (name : String) : Eval Value := do
  match Exec.field? (← heap) v name with
  | some x => pure x
  | none =>
    if !known && v.isTypeLevel then onHeap (·.newHole (.member v name))
    else fail (.missingField name (← text v))

theorem member_eq (known : Bool) (v : Value) (name : String) (s : Store) :
    member known v name s = (match Exec.field? s.heap v name with
      | some x => pure x
      | none =>
        if !known && v.isTypeLevel then onHeap (·.newHole (.member v name))
        else do fail (.missingField name (← text v)) : Eval Value) s :=
  rfl

/-! ## Calls -/

/-- Apply an operator. -/
def operator (op : Operator) (args : List Value) : Eval Value := fun s =>
  match args with
  | [a, b] =>
    match op.apply s.shown a b with
    | .ok v => .ok v s
    | .error e => .error (.fault e) s
  | _ => .error (.fault (.operatorArity op.symbol args.length)) s

theorem operator_pair (op : Operator) (a b : Value) (s : Store) :
    operator op [a, b] s = match op.apply s.shown a b with
      | .ok v => .ok v s
      | .error e => .error (.fault e) s :=
  rfl

/-- The function in a cell. -/
def function (cell : Nat) : Eval (Option Function) := fun s => .ok s.functions[cell]? s

/-- A new function. -/
def newFunction (f : Function) : Eval Value :=
  fun ⟨h, fs⟩ => .ok (.function fs.size) ⟨h, fs.push f⟩

/-- Define the parameters of a function as the arguments of a call. -/
def bindArgs (environment : Nat) : List Param → List Value → Eval Unit
  | p :: ps, v :: vs => do
    define environment p.name v
    bindArgs environment ps vs
  | _, _ => pure ()

end Eval

namespace TypeExpr

mutual

/-- The type that a written type stands for in a program whose types are all known by name. -/
def plain : TypeExpr → Ty
  | .name n _ => .name n
  | .array t => .array t.plain
  | .tuple ts => .tuple (plainList ts)
  | .record fs => .record (plainFields fs)
  | .fn ps r => .fn (plainList ps) r.plain 0
  | .union a b => .union a.plain b.plain

/-- The types that written types stand for. -/
def plainList : List TypeExpr → List Ty
  | [] => []
  | t :: ts => t.plain :: plainList ts

/-- The types that written fields stand for. -/
def plainFields : List (String × TypeExpr) → List (String × Ty)
  | [] => []
  | (n, t) :: fs => (n, t.plain) :: plainFields fs

end

end TypeExpr

namespace Ty

mutual

/-- The type built anew from its parts: its variables are replaced, and the fields of a record are
put in order. -/
def rebuilt (σ : TyVar → Ty) : Ty → Ty
  | .var v => σ v
  | .name n => .name n
  | .array t => .array (t.rebuilt σ)
  | .tuple ts => .tuple (rebuiltList σ ts)
  | .record fs => .record (Fields.ofList (rebuiltFields σ fs))
  | .fn ps r k => .fn (rebuiltList σ ps) (r.rebuilt σ) (UInt32.ofNat k).toNat
  | .union a b => .union (a.rebuilt σ) (b.rebuilt σ)
  | .binding n t => .binding n (t.rebuilt σ)

/-- `rebuilt` on each type of a list. -/
def rebuiltList (σ : TyVar → Ty) : List Ty → List Ty
  | [] => []
  | t :: ts => t.rebuilt σ :: rebuiltList σ ts

/-- `rebuilt` on the type of each field. -/
def rebuiltFields (σ : TyVar → Ty) : List (String × Ty) → List (String × Ty)
  | [] => []
  | (n, t) :: fs => (n, t.rebuilt σ) :: rebuiltFields σ fs

end

end Ty

/-- The value of a written type. -/
def TypeExpr.value (t : TypeExpr) : Ty := t.plain.rebuilt .var

end Reified
