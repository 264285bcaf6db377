import Reified.Lowering.Basic
import Reified.Tree.Basic

/-!
# Code for types

A type is built in a register, its parts in registers after it. Code that builds the type of a
function makes its variables first and then copies them; everywhere else the only variables are
those of the inferred parameters around, whose types are found under their names.

## Main definitions

* `Lower.ty` — build a type, given the code for its variables
* `Lower.declareVars`, `Lower.declaredVar` — variables made before
* `bakeable`, `Lower.paramVar` — variables of inferred parameters
* `Lower.typeExpr` — build a type that is written in the program
-/

namespace Reified

/-- The inferred parameters around a place: their type variables and their names. -/
abbrev ImplicitParams := List (Nat × String)

/-- The type can be built at run time: all its variables are those of inferred parameters. -/
def bakeable (params : ImplicitParams) (t : Ty) : Bool :=
  t.vars.all fun v => (params.lookup v.id).isSome

namespace Lower

/-! ## Variables -/

/-- Make the variables of a type, each in a register of its own, `done` being those made before. -/
def declareVars (done : List (Nat × Register)) : List TyVar → Lower (List (Nat × Register))
  | [] => pure done
  | v :: vs => do
    let r ← allocate
    let name ← identifier v.name
    emit (.newVarType r name v.inferred v.rigid)
    declareVars ((v.id, r) :: done) vs

/-- Copy a variable that has been made before. -/
def declaredVar (registers : List (Nat × Register)) (v : TyVar) (dst : Register) : Lower Unit :=
  match registers.lookup v.id with
  | some src => emit (.move dst src)
  | none => throw (.undeclared v)

/-- Look up the type of an inferred parameter. -/
def paramVar (params : ImplicitParams) (v : TyVar) (dst : Register) : Lower Unit := do
  match params.lookup v.id with
  | some name => do emit (.getLocal dst (← identifier name))
  | none => throw (.noValue v)

/-! ## Types -/

mutual

/-- Build a type, using the given code for its variables. -/
def ty (var : TyVar → Register → Lower Unit) : Ty → (dst : Register) → Lower Unit
  | .var v, dst => var v dst
  | .name n, dst => do emit (.newNameType dst (← identifier n))
  | .array t, dst => do
    let item ← allocate
    ty var t item
    emit (.newArrayType dst item)
  | .tuple ts, dst => do
    let first ← allocateRange ts.length
    tys var first 0 ts
    emit (.newTupleType dst (.ofNat ts.length) first)
  | .record fs, dst => do
    let firstKey ← allocateRange fs.length
    let firstType ← allocateRange fs.length
    tyFields var firstKey firstType 0 fs
    emit (.newRecordType dst (.ofNat fs.length) firstKey firstType)
  | .fn ps r implicit, dst => do
    let first ← allocateRange ps.length
    tys var first 0 ps
    let result ← allocate
    ty var r result
    emit (.newFunctionType dst (.ofNat ps.length) first result (.ofNat implicit))
  | .union a b, dst => do
    ty var a dst
    let right ← allocate
    ty var b right
    emit (.newUnionType dst dst right)
  | .binding n t, dst => do
    let inner ← allocate
    ty var t inner
    emit (.newBindingType dst (← identifier n) inner)

/-- Build types in consecutive registers, `index` having been built. -/
def tys (var : TyVar → Register → Lower Unit) (first : Register) (index : Nat) :
    List Ty → Lower Unit
  | [] => pure ()
  | t :: ts => do
    ty var t (first.offset index)
    tys var first (index + 1) ts

/-- Load names and build types in two runs of consecutive registers, `index` being done. -/
def tyFields (var : TyVar → Register → Lower Unit) (firstKey firstType : Register) (index : Nat) :
    List (String × Ty) → Lower Unit
  | [] => pure ()
  | (name, t) :: fs => do
    load (firstKey.offset index) (.string name)
    ty var t (firstType.offset index)
    tyFields var firstKey firstType (index + 1) fs

end

/-! ## Written types -/

mutual

/-- Build a type that is written in the program. A name that not every program knows is that of an
inferred parameter, and its type is found under it. -/
def typeExpr : TypeExpr → (dst : Register) → Lower Unit
  | .name n _, dst => do
    let i ← identifier n
    emit (if Ty.isWellKnown n then .newNameType dst i else .getLocal dst i)
  | .array t, dst => do
    let item ← allocate
    typeExpr t item
    emit (.newArrayType dst item)
  | .tuple ts, dst => do
    let first ← allocateRange ts.length
    typeExprs first 0 ts
    emit (.newTupleType dst (.ofNat ts.length) first)
  | .record fs, dst => do
    let firstKey ← allocateRange fs.length
    let firstType ← allocateRange fs.length
    typeExprFields firstKey firstType 0 fs
    emit (.newRecordType dst (.ofNat fs.length) firstKey firstType)
  | .fn ps r, dst => do
    let first ← allocateRange ps.length
    typeExprs first 0 ps
    let result ← allocate
    typeExpr r result
    emit (.newFunctionType dst (.ofNat ps.length) first result 0)
  | .union a b, dst => do
    typeExpr a dst
    let right ← allocate
    typeExpr b right
    emit (.newUnionType dst dst right)

/-- Build written types in consecutive registers, `index` having been built. -/
def typeExprs (first : Register) (index : Nat) : List TypeExpr → Lower Unit
  | [] => pure ()
  | t :: ts => do
    typeExpr t (first.offset index)
    typeExprs first (index + 1) ts

/-- Load names and build written types in two runs of consecutive registers, `index` being done. -/
def typeExprFields (firstKey firstType : Register) (index : Nat) :
    List (String × TypeExpr) → Lower Unit
  | [] => pure ()
  | (name, t) :: fs => do
    load (firstKey.offset index) (.string name)
    typeExpr t (firstType.offset index)
    typeExprFields firstKey firstType (index + 1) fs

end

end Lower

end Reified
