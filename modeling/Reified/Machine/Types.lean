import Reified.Machine.State

/-!
# Types at run time

Values have types at run time, and types are values. The type of an array is that of its first item;
about an empty array, an operator's type parameter and a hole nothing is known, so a fresh variable
stands there. The type of a function is an instance of its signature.

The inferred arguments of a call are found by unifying an instance of the signature of the callee
with the types of the other arguments.

## Main definitions

* `Exec.typeOf` — the type of a value
* `Exec.asType` — the type that a value is
* `Exec.inferImplicit` — the inferred arguments of a call
* `Exec.completeArgs` — the arguments of a call that lacks them
-/

namespace Reified

namespace Exec

/-- Unify two types. -/
def unify (expected found : Ty) : Exec Unit :=
  fun ⟨⟨T, F, h, g⟩, top, callers⟩ =>
    match T.unify expected found with
    | .ok _ T => .ok () ⟨⟨T, F, h, g⟩, top, callers⟩
    | .error e T => .error (.type e) ⟨⟨T, F, h, g⟩, top, callers⟩

/-- The representative of a type. -/
def resolve (t : Ty) : Exec Ty := onTable fun T => T.resolve t

/-- The type with every bound variable replaced. -/
def resolveDeep (t : Ty) : Exec Ty := onTable fun T => T.resolveDeep t

/-- A further variable in the innermost frame. -/
def newVar (name : String) (inferred rigid : Bool) : Exec Ty :=
  onFrames fun F T => F.newVar T name inferred rigid

/-- A variable about which nothing is known. -/
def freshVar : Exec Ty := newVar "" false false

/-- Variables about which nothing is known; `done` are those before. -/
def freshVars (done : List Ty) : Nat → Exec (List Ty)
  | 0 => pure done.reverse
  | n + 1 => do freshVars ((← freshVar) :: done) n

/-- An instance of a type. -/
def instantiate (t : Ty) : Exec Ty := onFrames fun F T => F.instantiate T t

/-- Open a generalization frame. -/
def pushFrame : Exec Unit := onFrames fun F T => ((), F.push, T)

/-- Close the innermost generalization frame. -/
def popFrame : Exec Unit := onFrames fun F T => ((), (F.pop T).2)

/-- The type of a value through at most `n` nested cells. -/
def typeOfWithin : Nat → Value → Exec Ty
  | _, .unit => pure .void
  | _, .bool _ => pure .bool
  | _, .number _ => pure .number
  | _, .string _ => pure .string
  | _, .type _ => pure .type
  | _, .hole _ => freshVar
  | _, .builtin op => return op.signature (← freshVar)
  | _, .function c => do instantiate ((← heap).closure c).signature
  | 0, _ => freshVar
  | n + 1, .array c => do
    match ((← heap).list c)[0]? with
    | some v => return .array (← typeOfWithin n v)
    | none => return .array (← freshVar)
  | n + 1, .tuple c => do
    return .tuple (← ((← heap).list c).toList.mapM (typeOfWithin n))
  | n + 1, .object c => do
    return .record (← ((← heap).object c).mapM fun f => return (f.1, ← typeOfWithin n f.2))

/-- The type of a value. -/
def typeOf (v : Value) : Exec Ty := do typeOfWithin (← heap).depth v

/-- The type that a value is. A hole stands for a type of which nothing is known. -/
def asType (v : Value) : Exec Ty := do
  match v with
  | .type t => pure t
  | .hole _ => freshVar
  | v => throw (.expectedType (← text v))

/-- The types that values are; `done` are those before, the latest first. -/
def asTypes (done : List Ty) : List Value → Exec (List Ty)
  | [] => pure done.reverse
  | v :: vs => do asTypes ((← asType v) :: done) vs

/-! ## Inferred arguments -/

/-- Unify the types of parameters, from a position on, with the types of the arguments there. -/
def unifyArgs (function : String) (args : Array Value) (position : Nat) : List Ty → Exec Unit
  | [] => pure ()
  | param :: params => do
    match args[position]? with
    | none => throw (.missingArgument position function)
    | some v => do
      unify param (← typeOf v)
      unifyArgs function args (position + 1) params

/-- The types that the slots of inferred parameters stand for; `done` are those before, the latest
first. -/
def readSlots (done : List Ty) : List Ty → Exec (List Ty)
  | [] => pure done.reverse
  | slot :: slots => do
    let (name, inner) := match slot with
      | .binding n t => (n, t)
      | t => ("", t)
    match ← resolveDeep inner with
    | .var _ => throw (.type (.cannotInfer name))
    | t => readSlots (t :: done) slots

/-- The first `count` arguments of a call of a function, found from the others. The given arguments
leave room for those that are to be found. -/
def inferImplicit (c : Closure) (count : Nat) (args : Array Value) : Exec (List Ty) := do
  match ← resolve (← instantiate c.signature) with
  | .fn params _ _ => do
    unifyArgs c.block.name args count (params.drop count)
    readSlots [] (params.take count)
  | _ => throw (.signatureNotFunction c.block.name)

/-- Do something in a generalization frame of its own, which is closed also when it fails. -/
def inFrame {α : Type} (act : Exec α) : Exec α := fun r =>
  match (do pushFrame; act : Exec α) r with
  | .ok a r =>
    match popFrame r with
    | .ok _ r => .ok a r
    | .error e r => .error e r
  | .error e r =>
    match popFrame r with
    | .ok _ r => .error e r
    | .error _ r => .error e r

/-- The arguments with which a function is entered. A call that lacks exactly the inferred arguments
gets them from the others. -/
def completeArgs (c : Closure) (args : Array Value) : Exec (Array Value) := do
  let expected := c.block.parameterCount.toNat
  if args.size = expected then return args
  let implicit := match ← resolve c.signature with
    | .fn _ _ k => k
    | _ => 0
  if implicit = 0 || args.size + implicit ≠ expected then
    throw (.arity c.block.name (expected - implicit) args.size)
  let all := Array.replicate implicit Value.unit ++ args
  let inferred ← inFrame (inferImplicit c implicit all)
  return (inferred.map Value.type).toArray ++ all.extract inferred.length all.size

end Exec

end Reified
