import Reified.Lowering.Types

/-!
# Code for expressions

The value of an expression is left in a given register; intermediate values are put into registers
that are allocated on the way.

Where checking has found out what is called, indexed or asked for a field, the access is direct.
Where it has not, the code tests at run time, and makes a hole if the value is not there yet.

## Main definitions

* `Expr.isDirectCall`, `Expr.mayBeHole` — what checking has found out
* `Lower.expr` — the code for an expression
-/

namespace Reified

namespace Literal

/-- The constant that a literal stands for. -/
def constant : Literal → Constant
  | .number x => .number x
  | .string s => .string s
  | .bool b => .bool b

end Literal

/-- The type is known to be that of a function. -/
def isFnTy : Option Ty → Bool
  | some (.fn ..) => true
  | _ => false

/-- The type is known to be that of a record with the field. -/
def hasFieldTy (field : String) : Option Ty → Bool
  | some (.record fs) => Fields.has field fs
  | _ => false

/-- The expression, when it is a call, member access or element access, may turn out to be a hole:
checking has not found out what is accessed. -/
def Expr.mayBeHole : Expr → Bool
  | .call _ callee _ implicit => !(implicit.isSome && isFnTy callee.ty?)
  | .member _ o x => !hasFieldTy x o.ty?
  | .subscript _ t i =>
    match t.ty? with
    | some (.array _) => false
    | some (.tuple _) => i.literalIndex?.isNone
    | _ => true
  | .paren _ inner => inner.mayBeHole
  | _ => false

namespace Lower

/-- Call what is in a register with arguments in registers, or make a hole if it is no function. -/
def callOrHole (dst callee : Register) (argc : Nat) (first : Register) : Lower Unit := do
  let isFunction ← allocate
  let hole ← newLabel
  let done ← newLabel
  emit (.checkTypeOf isFunction callee .function)
  jumpIfFalse isFunction hole
  emit (.call dst callee (.ofNat argc) first)
  jump done
  bind hole
  emit (.newCallHole dst callee (.ofNat argc) first)
  bind done

/-- Read a field, or make a hole if there is none. -/
def fieldOrHole (dst object : Register) (field : UInt32) : Lower Unit := do
  let fallback ← newLabel
  let done ← newLabel
  emitJump (.tryGetField dst object field Instr.unknownTarget) fallback
  jump done
  bind fallback
  emit (.newMemberHole dst object field)
  bind done

/-- Read an element of an array, or make a hole if there is no array. -/
def elementOrHole (dst target index : Register) : Lower Unit := do
  let isArray ← allocate
  let hole ← newLabel
  let done ← newLabel
  emit (.checkTypeOf isArray target .array)
  jumpIfFalse isArray hole
  emit (.getArrayIndex dst target index)
  jump done
  bind hole
  emit (.newSubscriptHole dst target index)
  bind done

/-- Build the types of inferred arguments in consecutive registers, if they can be built. -/
def implicitArgs (params : ImplicitParams) (baked : Bool) (first : Register) (slots : List Ty) :
    Lower Unit :=
  if baked then tys (paramVar params) first 0 slots else pure ()

/-- Infer the first arguments of a call from the others, unless they have been built. -/
def inferArgs (baked : Bool) (callee : Register) (count : Nat) (first : Register) : Lower Unit :=
  if baked then pure ()
  else do
    emit .pushFrame
    emit (.inferImplicit callee (.ofNat count) first)
    emit .popFrame

mutual

/-- Leave the value of an expression in a register. -/
def expr (params : ImplicitParams) : Expr → (dst : Register) → Lower Unit
  | .ident _ x, dst => do emit (.getLocal dst (← identifier x))
  | .literal _ v, dst => load dst v.constant
  | .paren _ e, dst => expr params e dst
  | .binary _ op l r, dst => do
    match op with
    | .and => do
      let done ← newLabel
      expr params l dst
      jumpIfFalse dst done
      expr params r dst
      bind done
    | .or => do
      let right ← newLabel
      let done ← newLabel
      expr params l dst
      jumpIfFalse dst right
      jump done
      bind right
      expr params r dst
      bind done
    | .equal => do
      let a ← allocate
      let b ← allocate
      expr params l a
      expr params r b
      emit (.isEqual dst a b)
    | op => do
      let callee ← allocate
      emit (.getLocal callee (← identifier op.symbol))
      let first ← allocateRange 2
      expr params l first
      expr params r (first.offset 1)
      emit (.call dst callee 2 first)
  | .object _ fs, dst => do
    emit (.newObject dst (.ofNat fs.length))
    let value ← allocate
    fields params dst value fs
  | .array _ es, dst => do
    emit (.newArray dst (.ofNat es.length))
    let value ← allocate
    each params (fun _ => value) (fun i => emit (.setArrayIndex dst (.ofNat i) value)) 0 es
  | .tuple _ es, dst => do
    emit (.newTuple dst (.ofNat es.length))
    let value ← allocate
    each params (fun _ => value) (fun i => emit (.setTupleIndex dst (.ofNat i) value)) 0 es
  | .call _ f es implicit, dst => do
    let callee ← allocate
    expr params f callee
    match implicit, isFnTy f.ty? with
    | some slots, true => do
      let first ← allocateRange (slots.length + es.length)
      let baked := slots.all (bakeable params)
      implicitArgs params baked first slots
      each params (fun i => first.offset (slots.length + i)) (fun _ => pure ()) 0 es
      inferArgs baked callee slots.length first
      emit (.call dst callee (.ofNat (slots.length + es.length)) first)
    | _, _ => do
      let first ← allocateRange es.length
      each params first.offset (fun _ => pure ()) 0 es
      callOrHole dst callee es.length first
  | .member _ o x, dst => do
    let object ← allocate
    expr params o object
    let field ← identifier x
    if hasFieldTy x o.ty? then emit (.getField dst object field) else fieldOrHole dst object field
  | .subscript _ t i, dst => do
    let target ← allocate
    expr params t target
    match t.ty?, i.literalIndex? with
    | some (.tuple _), some n => emit (.getTupleIndex dst target (.ofNat n))
    | some (.array _), _ => do
      let index ← allocate
      expr params i index
      emit (.getArrayIndex dst target index)
    | _, _ => do
      let index ← allocate
      expr params i index
      elementOrHole dst target index
  | .type _ t, dst => typeExpr t dst

/-- Evaluate the expressions of a list in turn, the one at each position into the register given for
it, followed by the code given for it. The positions start at `index`. -/
def each (params : ImplicitParams) (dst : Nat → Register) (after : Nat → Lower Unit) (index : Nat) :
    List Expr → Lower Unit
  | [] => pure ()
  | e :: es => do
    expr params e (dst index)
    after index
    each params dst after (index + 1) es

/-- Evaluate the expressions of fields in turn and store them in an object. -/
def fields (params : ImplicitParams) (object value : Register) : List (String × Expr) → Lower Unit
  | [] => pure ()
  | (name, e) :: fs => do
    expr params e value
    emit (.setField object (← identifier name) value)
    fields params object value fs

end

-- The equations are made here, once for all the proofs that use them.
attribute [local simp] expr each fields

end Lower

end Reified
