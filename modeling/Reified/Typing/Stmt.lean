import Reified.Typing.Expr
import Reified.Typing.Loops

/-!
# Checking statements and declarations

Every statement has a completion value, whose type is checked against an expected one. The value of
a block is that of its last declaration; declarations of names, loops that complete, and an `if`
without `else` complete with the unit value. A `return`, a `break` and a `continue` never complete
and so meet any expectation, as does a loop that never exits.

The functions of a block are in scope from its start, but until the declaration of a function is
reached nothing is known about it: its name stands for a fresh variable.

## Main definitions

* `Check.stmt`, `Check.decl`, `Check.block` — against an expected completion type
* `Check.function` — the signature of a function
* `Check.pattern` — the variables that a pattern binds
-/

namespace Reified

namespace Check

/-! ## Functions -/

/-- Bind the functions among some declarations to fresh variables. -/
def hoist : List Decl → Check Unit
  | [] => pure ()
  | .fn head _ :: ds => do
    bindValue head.name (← freshVar head.name)
    hoist ds
  | _ :: ds => hoist ds

/-- Bind the type parameters of a function to rigid variables. -/
def bindTypeParams : List String → Check Unit
  | [] => pure ()
  | name :: names => do
    bindType name (← newVar name false true)
    bindTypeParams names

/-- The types of the parameters of a function, `done` being those before, the latest first, and
`implicit` the number of inferred ones among them. An inferred parameter is a rigid variable that
can be used as a type; it may not follow one that the caller supplies. -/
def paramTypes (done : List Ty) (implicit : Nat) : List Param → Check (List Ty × Nat)
  | [] => pure (done.reverse, implicit)
  | p :: ps => do
    if p.inferred then
      if implicit ≠ done.length then fail (.misuse (.inferredAfterExplicit p.name)) p.span
      let v ← newVar p.name true true
      bindType p.name v
      paramTypes (.binding p.name v :: done) (implicit + 1) ps
    else
      let t ← optionalType p.name p.annotation
      paramTypes (t :: done) implicit ps

/-- Bind the parameters of a function in its body. An inferred parameter is there a type. -/
def bindParams : List Param → List Ty → Check Unit
  | p :: ps, t :: ts => do
    bindValue p.name (if p.inferred then .type else t)
    bindParams ps ts
  | _, _ => pure ()

/-- Enter the body of a function with the given result type. -/
def enterBody (result : Ty) : Check Nat :=
  fun s => .ok s.loopDepth { s with returns := result :: s.returns, loopDepth := 0 }

/-- Leave the body of a function that stands inside `loopDepth` loops. -/
def leaveBody (loopDepth : Nat) : Check Unit :=
  fun s => .ok () { s with returns := s.returns.tail, loopDepth := loopDepth }

/-! ## Patterns -/

mutual

/-- Bind the variables of a pattern that is matched against a value of the given type. About the
fields of a value of unknown type nothing is known. -/
def pattern [Policy] (t : Ty) : Pattern → Check Unit
  | .ident name _ => bindValue name t
  | .any _ => pure ()
  | .literal v span => unify t v.ty span
  | .object entries span => do
    match ← resolve t with
    | .record fs => entryPatterns t fs span entries
    | .var _ | .union .. => do
      unknown span
      freshPatterns entries
    | other => fail (.misuse (.objectPattern (← resolveDeep other))) span

/-- Match entries against the fields of a record of type `t`. -/
def entryPatterns [Policy] (t : Ty) (fs : List (String × Ty)) (span : Span) :
    List (String × Pattern) → Check Unit
  | [] => pure ()
  | (name, p) :: entries => do
    match Fields.get? name fs with
    | none => fail (.missingField name (← resolveDeep t)) span
    | some u => do
      pattern u p
      entryPatterns t fs span entries

/-- Match entries against fields of which nothing is known. -/
def freshPatterns [Policy] : List (String × Pattern) → Check Unit
  | [] => pure ()
  | (name, p) :: entries => do
    pattern (← freshVar name) p
    freshPatterns entries

end

/-! ## Statements and declarations -/

/-- A declaration of a variable, which comes into scope after its initializer. -/
def letDecl [Policy] (d : LetDecl) : Check LetDecl := do
  match d.annotation with
  | some a => do
    let t ← typeExpr a
    let init ← check d.init t
    bindValue d.name t
    return { d with init := init }
  | none => do
    let (t, init) ← infer d.init
    bindValue d.name t
    return { d with init := init }

/-- What a `for` loop does first. -/
def forInit [Policy] : Option ForInit → Check (Option ForInit)
  | none => pure none
  | some (.expr e) => do return some (.expr (← infer e).2)
  | some (.letDecl d) => do return some (.letDecl (← letDecl d))

/-- A jump is allowed inside a loop. -/
def jump (keyword : String) (span : Span) : Check Unit := do
  if (← get).loopDepth = 0 then fail (.misuse (.jumpOutsideLoop keyword)) span

/-- Change the number of loops around the current place. -/
def setLoopDepth (f : Nat → Nat) : Check Unit :=
  fun s => .ok () { s with loopDepth := f s.loopDepth }

/-- A condition has a truth value. -/
def condition [Policy] (e : Expr) : Check Expr := check e .bool

/-- Check a block by the given check of its declarations, in a scope that knows its functions. An
empty block completes with the unit value. -/
def inBlock (expected : Ty) (body : List Decl) (span : Span) (declarations : Check (List Decl)) :
    Check (List Decl) := do
  pushScope
  hoist body
  if body.isEmpty then unify expected .void span
  let body ← declarations
  popScope
  return body

/-- Check a function, given a check of its body against its result type. Its signature is in scope
in its own body, but there it is not yet generalized. -/
def function (head : FnHead) (body : Ty → Check (List Decl)) : Check (FnHead × List Decl) := do
  pushFrame
  pushScope
  bindTypeParams head.typeParams
  let (params, implicit) ← paramTypes [] 0 head.params
  let result ← optionalType "" head.result
  let signature := Ty.fn params result implicit
  bindValue head.name signature
  bindParams head.params params
  let loopDepth ← enterBody result
  let body ← body result
  leaveBody loopDepth
  popScope
  popFrame
  let signature ← resolveDeep signature
  bindValue head.name signature
  return ({ head with signature := some signature }, body)

/-- The type that the completion value of a declaration must have: only that of the last one
matters. -/
def completion (expected : Ty) (rest : List Decl) : Check Ty :=
  if rest.isEmpty then pure expected else freshVar ""

mutual

/-- Check a statement whose completion value has the expected type. -/
def stmt [Policy] (expected : Ty) : Stmt → Check Stmt
  | .empty span => do
    unify expected .void span
    return .empty span
  | .block body span => do
    let body ← inBlock expected body span (decls expected [] body)
    return .block body span
  | .ret value span => do
    match (← get).returns.head? with
    | none => fail (.misuse .returnOutsideFunction) span
    | some t =>
      match value with
      | some e => do return .ret (some (← check e t)) span
      | none => do
        unify t .void span
        return .ret none span
  | .cond c s alternate span => do
    let c ← condition c
    match alternate with
    | some t => do
      let s ← stmt expected s
      let t ← stmt expected t
      return .cond c s (some t) span
    | none => do
      let s ← stmt (← freshVar "") s
      unify expected .void span
      return .cond c s none span
  | .whileLoop c body span => do
    let c ← condition c
    setLoopDepth (· + 1)
    let body ← stmt (← freshVar "") body
    setLoopDepth (· - 1)
    unless Stmt.neverExits (some c) body do unify expected .void span
    return .whileLoop c body span
  | .forLoop init c increment body span => do
    pushScope
    let init ← forInit init
    let c ← c.mapM condition
    let increment ← increment.mapM fun e => Prod.snd <$> infer e
    setLoopDepth (· + 1)
    let body ← stmt (← freshVar "") body
    setLoopDepth (· - 1)
    popScope
    unless Stmt.neverExits c body do unify expected .void span
    return .forLoop init c increment body span
  | .breakLoop span => do
    jump "break" span
    return .breakLoop span
  | .continueLoop span => do
    jump "continue" span
    return .continueLoop span
  | .cases scrutinee cs default span => do
    let (t, scrutinee) ← infer scrutinee
    let cs ← matchCases expected t [] cs
    match default with
    | some s => do return .cases scrutinee cs (some (← stmt expected s)) span
    | none => return .cases scrutinee cs none span
  | .expr e => do return .expr (← check e expected)

/-- Check the cases of a match, each in a scope of its own; `done` are the ones before, the latest
first. -/
def matchCases [Policy] (expected scrutinee : Ty) (done : List (Pattern × Stmt)) :
    List (Pattern × Stmt) → Check (List (Pattern × Stmt))
  | [] => pure done.reverse
  | (p, s) :: cs => do
    pushScope
    pattern scrutinee p
    let s ← stmt expected s
    popScope
    matchCases expected scrutinee ((p, s) :: done) cs

/-- Check declarations in turn, the last one against the expected type; `done` are the ones before,
the latest first. -/
def decls [Policy] (expected : Ty) (done : List Decl) : List Decl → Check (List Decl)
  | [] => pure done.reverse
  | d :: ds => do
    let d ← decl (← completion expected ds) d
    decls expected (d :: done) ds

/-- Check a declaration whose completion value has the expected type. -/
def decl [Policy] (expected : Ty) : Decl → Check Decl
  | .letDecl d => do
    let d ← letDecl d
    unify expected .void d.span
    return .letDecl d
  | .fn head body => do
    let (head, body) ← function head fun result =>
      inBlock result body head.bodySpan (decls result [] body)
    unify expected .void head.span
    return .fn head body
  | .stmt s => do return .stmt (← stmt expected s)

end

/-- Check a block whose completion value has the expected type. -/
def block [Policy] (expected : Ty) (body : List Decl) (span : Span) : Check (List Decl) :=
  inBlock expected body span (decls expected [] body)

-- The equations are made here, once for all the proofs that use them.
attribute [local simp] stmt matchCases decls decl

end Check

end Reified
