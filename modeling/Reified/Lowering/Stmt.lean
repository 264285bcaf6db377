import Reified.Lowering.Expr

/-!
# Code for statements and functions

The completion value of a statement is left in a given register. Every block, loop header and case
of a match opens a scope at run time. A jump out of scopes closes them first, so that each position
of the code is reached with the same number of open scopes from wherever it is reached.

The functions of a block are created at its start, before its first declaration.

The block of a function starts with the code for its signature. The code that calls run follows: it
defines the parameters, after testing that the inferred ones are types, and executes the body.

## Main definitions

* `LoopLabels`, `Place` — what surrounds a statement
* `Lower.stmt`, `Lower.decl`, `Lower.pattern`
* `Lower.functionBlock` — the block of a function
-/

namespace Reified

/-- Where the jumps of a loop go, and how many scopes are open there. -/
structure LoopLabels where
  breakLabel : Label
  continueLabel : Label
  scopeDepth : Nat

/-- What surrounds a statement. -/
structure Place where
  /-- Annotated declarations are checked at run time if their initializer may be a hole. -/
  checks : Bool
  /-- The inferred parameters of the functions around. -/
  implicit : ImplicitParams
  /-- The number of scopes that the code has opened. -/
  scopeDepth : Nat
  /-- The innermost loop of the function. -/
  loop : Option LoopLabels

/-- The place one scope further in. -/
def Place.deeper (p : Place) : Place := { p with scopeDepth := p.scopeDepth + 1 }

/-- The place inside the body of a loop. -/
def Place.inLoop (p : Place) (breakLabel continueLabel : Label) : Place :=
  { p with loop := some ⟨breakLabel, continueLabel, p.scopeDepth⟩ }

namespace Lower

/-! ## Declarations of variables -/

/-- The test that the value of a register has a type, which can be built at run time. -/
def typeTest (params : ImplicitParams) (value : Register) (t : Ty) : Lower Unit := do
  let found ← allocate
  emit (.getTypeForValue found value)
  let expected ← allocate
  ty (paramVar params) t expected
  emit (.unify expected found)

/-- The same test after a test of the class, which gives the better message. -/
def classTest (params : ImplicitParams) (value : Register) (t : Ty) : Lower Unit := do
  let failed ← newLabel
  let done ← newLabel
  let hasClass ← allocate
  emit (.checkTypeOf hasClass value t.tyClass)
  jumpIfFalse hasClass failed
  typeTest params value t
  jump done
  bind failed
  let message ← constant (.string ("Runtime type check failed: expected `" ++ t.text ++ "`"))
  emit (.typeError message)
  bind done

/-- The test of a type by which the class is tested first, unless it is that of a union or a
variable. -/
def anyTest (params : ImplicitParams) (value : Register) (t : Ty) : Lower Unit :=
  match t.tyClass with
  | .union | .var => typeTest params value t
  | _ => classTest params value t

/-- Test at run time that the value of a register has a type. Nothing is done about a type that
cannot be built at run time. -/
def runTimeCheck (params : ImplicitParams) (value : Register) (t : Ty) : Lower Unit :=
  if bakeable params t then do
    let m ← mark
    anyTest params value t
    release m
  else pure ()

/-- Test at run time that the initializer in a register has the type of an annotated declaration,
if it may be a hole. -/
def initCheck (p : Place) (d : LetDecl) (value : Register) : Lower Unit :=
  match d.init.ty? with
  | some t =>
    if p.checks && d.annotation.isSome && d.init.mayBeHole then runTimeCheck p.implicit value t
    else pure ()
  | none => pure ()

/-- Define a name as the value of its initializer, and complete with the unit value. -/
def letDecl (p : Place) (d : LetDecl) (dst : Register) : Lower Unit := do
  expr p.implicit d.init dst
  initCheck p d dst
  emit (.setLocal (← identifier d.name) dst)
  loadUnit dst

/-! ## Patterns -/

mutual

/-- Match the value of a register, going to a label if it does not match. -/
def pattern (value : Register) (failed : Label) : Pattern → Lower Unit
  | .ident name _ => do emit (.setLocal (← identifier name) value)
  | .any _ => pure ()
  | .literal v _ => do
    let expected ← allocate
    load expected v.constant
    let equal ← allocate
    emit (.isEqual equal value expected)
    jumpIfFalse equal failed
  | .object entries _ => do
    let isObject ← allocate
    emit (.isCell isObject value .object)
    jumpIfFalse isObject failed
    patternEntries value failed entries

/-- Match the fields of an object, going to a label if one is missing or does not match. -/
def patternEntries (value : Register) (failed : Label) : List (String × Pattern) → Lower Unit
  | [] => pure ()
  | (name, p) :: entries => do
    let field ← allocate
    emitJump (.tryGetField field value (← identifier name) Instr.unknownTarget) failed
    pattern field failed p
    patternEntries value failed entries

end

/-! ## Functions -/

/-- Test that the argument for an inferred parameter is a type. -/
def argumentTest (argument : Register) (name : String) : Lower Unit := do
  let m ← mark
  let isType ← allocate
  let failed ← newLabel
  let ok ← newLabel
  emit (.checkType isType argument .anyType)
  jumpIfFalse isType failed
  jump ok
  bind failed
  let message ← constant (.string ("Inferred parameter `" ++ name ++ "` expects a type"))
  emit (.typeError message)
  bind ok
  release m

/-- Define a parameter of a function as its argument, which has to be a type if it is inferred. -/
def param (p : Param) (argument : Register) : Lower Unit := do
  (if p.inferred then argumentTest argument p.name else pure ())
  emit (.setLocal (← identifier p.name) argument)

/-- Define the parameters of a function, `index` having been defined. -/
def params (index : Nat) : List Param → Lower Unit
  | [] => pure ()
  | p :: ps => do
    param p (.ofNat index)
    params (index + 1) ps

/-- The variables and names of the inferred parameters of a signature, the latest first. -/
def implicitParams (done : ImplicitParams) : List Ty → ImplicitParams
  | .binding name (.var v) :: slots => implicitParams ((v.id, name) :: done) slots
  | _ :: slots => implicitParams done slots
  | [] => done

/-- The code that evaluates a signature. -/
def signature (t : Ty) : Lower Unit := do
  let dst ← allocate
  emit .pushScope
  emit .pushFrame
  let registers ← declareVars [] t.distinctVars
  ty (declaredVar registers) t dst
  emit (.resolveType dst dst)
  emit .popFrame
  emit .popScope
  emit (.leave dst)

/-- Let the code that calls run start at the next instruction. -/
def startCode : Lower Unit :=
  fun ⟨B, items, labels, next⟩ =>
    .ok () ⟨{ B with codeStart := .ofNat items.size }, items, labels, next⟩

/-- All code of a function: the evaluation of its signature, then what a call runs. -/
def functionCode (head : FnHead) (count : UInt32) (t : Ty) (body : Register → Lower Unit) :
    Lower Unit := do
  signature t
  startCode
  release count.toUInt16
  params 0 head.params
  let value ← allocate
  body value
  emit (.leave value)

/-- The block of a function, given the code for its body. -/
def functionBlock (checks : Bool) (head : FnHead) (body : Place → Register → Lower Unit) :
    Lower Block :=
  match head.signature with
  | none => throw (.unchecked head.name)
  | some (.fn types result implicit) =>
    let count : UInt32 := .ofNat types.length
    let place : Place := ⟨checks, implicitParams [] (types.take implicit), 0, none⟩
    isolated head.name count
      (functionCode head count (.fn types result implicit) (body place))
  | some t => throw (.notFunction head.name t)

/-- Create a function of a nested block and define its name. -/
def createFunction (name : String) (block : Block) : Lower Unit := do
  let i ← function block
  let m ← mark
  let r ← allocate
  emit (.newFunction r i)
  emit (.setLocal (← identifier name) r)
  release m

/-! ## Statements -/

/-- The code for a list of declarations: first their functions are created. Without declarations
the completion value is the unit value. -/
def sequence (isEmpty : Bool) (functions declarations : Lower Unit) (dst : Register) :
    Lower Unit := do
  functions
  if isEmpty then loadUnit dst else declarations

/-- Close scopes. -/
def closeScopes : Nat → Lower Unit
  | 0 => pure ()
  | n + 1 => do
    emit .popScope
    closeScopes n

/-- Go to the label of the innermost loop that is chosen, after closing the scopes opened inside
the loop. -/
def leaveScopes (p : Place) (choose : LoopLabels → Label) : Lower Unit := do
  match p.loop with
  | none => throw (.jumpOutsideLoop (← blockName))
  | some l => do
    closeScopes (p.scopeDepth - l.scopeDepth)
    jump (choose l)

/-- What a `for` loop does first. -/
def forInit (p : Place) (dst : Register) : Option ForInit → Lower Unit
  | none => pure ()
  | some (.expr e) => expr p.implicit e dst
  | some (.letDecl d) => letDecl p d dst

/-- Leave the value of an expression in a register, or the unit value if there is none. -/
def exprOrUnit (params : ImplicitParams) (dst : Register) : Option Expr → Lower Unit
  | some e => expr params e dst
  | none => loadUnit dst

/-- Leave a loop if its condition is false. -/
def loopTest (params : ImplicitParams) (scratch : Register) (exit : Label) :
    Option Expr → Lower Unit
  | some e => do
    expr params e scratch
    jumpIfFalse scratch exit
  | none => pure ()

/-- What a `for` loop does after each round. -/
def forNext (params : ImplicitParams) (scratch : Register) : Option Expr → Lower Unit
  | some e => expr params e scratch
  | none => pure ()

/-- The code for the body of a loop, in which registers are given back at the end of each round. -/
def loopBody (body : Register → Lower Unit) : Lower Unit := do
  let m ← mark
  let scratch ← allocate
  body scratch
  release m

/-- What a match does when no case matches. -/
def noMatch : Lower Unit := do
  emit (.runtimeError (← constant (.string "All patterns failed to match")))

mutual

/-- Leave the completion value of a statement in a register. -/
def stmt (p : Place) : Stmt → (dst : Register) → Lower Unit
  | .empty _, dst => loadUnit dst
  | .block body _, dst => do
    emit .pushScope
    sequence body.isEmpty (functions p.deeper body) (decls p.deeper body dst) dst
    emit .popScope
  | .ret value _, _ => do
    let r ← allocate
    exprOrUnit p.implicit r value
    emit (.leave r)
  | .cond c s alternate _, dst => do
    let r ← allocate
    expr p.implicit c r
    let otherwise ← newLabel
    let done ← newLabel
    jumpIfFalse r otherwise
    stmt p s dst
    jump done
    bind otherwise
    (match alternate with
      | some t => stmt p t dst
      | none => loadUnit dst)
    bind done
  | .whileLoop c body _, dst => do
    let start ← newLabel
    let exit ← newLabel
    bind start
    let r ← allocate
    expr p.implicit c r
    jumpIfFalse r exit
    loopBody fun scratch => stmt (p.inLoop exit start) body scratch
    jump start
    bind exit
    loadUnit dst
  | .forLoop init c increment body _, dst => do
    emit .pushScope
    let scratch ← allocate
    forInit p.deeper scratch init
    let start ← newLabel
    let next ← newLabel
    let exit ← newLabel
    bind start
    loopTest p.implicit scratch exit c
    loopBody fun scratch => stmt (p.deeper.inLoop exit next) body scratch
    bind next
    forNext p.implicit scratch increment
    jump start
    bind exit
    emit .popScope
    loadUnit dst
  | .breakLoop _, _ => leaveScopes p LoopLabels.breakLabel
  | .continueLoop _, _ => leaveScopes p LoopLabels.continueLabel
  | .cases scrutinee cs default _, dst => do
    let r ← allocate
    expr p.implicit scrutinee r
    let done ← newLabel
    matchCases p r done cs dst
    (match default with
      | some s => stmt p s dst
      | none => noMatch)
    bind done
  | .expr e, dst => expr p.implicit e dst

/-- Try the cases of a match in turn, each in a scope of its own; a case that matches goes to a
label when it is done. -/
def matchCases (p : Place) (scrutinee : Register) (done : Label) :
    List (Pattern × Stmt) → (dst : Register) → Lower Unit
  | [], _ => pure ()
  | (pat, s) :: cs, dst => do
    let m ← mark
    let failed ← newLabel
    emit .pushScope
    pattern scrutinee failed pat
    stmt p.deeper s dst
    emit .popScope
    jump done
    bind failed
    emit .popScope
    release m
    matchCases p scrutinee done cs dst

/-- Create the functions among some declarations. -/
def functions (p : Place) : List Decl → Lower Unit
  | [] => pure ()
  | .fn head body :: ds => do
    let block ← functionBlock p.checks head fun place dst => do
      emit .pushScope
      sequence body.isEmpty (functions place.deeper body) (decls place.deeper body dst) dst
      emit .popScope
    createFunction head.name block
    functions p ds
  | _ :: ds => functions p ds

/-- The code for declarations in turn, each leaving its completion value in the register. -/
def decls (p : Place) : List Decl → (dst : Register) → Lower Unit
  | [], _ => pure ()
  | d :: ds, dst => do
    let m ← mark
    decl p d dst
    release m
    decls p ds dst

/-- Leave the completion value of a declaration in a register. -/
def decl (p : Place) : Decl → (dst : Register) → Lower Unit
  | .letDecl d, dst => letDecl p d dst
  | .fn .., dst => loadUnit dst
  | .stmt s, dst => stmt p s dst

end

/-- The code for a list of declarations. -/
def body (p : Place) (ds : List Decl) (dst : Register) : Lower Unit :=
  sequence ds.isEmpty (functions p ds) (decls p ds dst) dst

-- The equations are made here, once for all the proofs that use them.
attribute [local simp] stmt matchCases functions decls decl

end Lower

end Reified
