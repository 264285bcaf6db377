import Reified.Proofs.Eval.Store

/-!
# Direct evaluation: programs

The evaluation of expressions, statements and declarations follows the tree. It is given how to call
a value and how many rounds a loop may go; `Eval.apply` then closes the circle, each call of a
function using up one of the calls that may be nested.

A statement completes with a value, or leaves constructs around it: a `break` or a `continue` leaves
up to the innermost loop, a `return` up to the function. Every block, loop header, case of a match
and call has an environment of its own inside the one around it. The functions of a block are created
before its first declaration is executed.

What is decided at run time is decided by the value: a call of what is no function, a field that an
object does not have and an element of what has none fail, unless checking has not found out what is
accessed and a type is involved; then they give a hole.

## Main definitions

* `Flow` — how a statement ends
* `Eval.expr`, `Eval.pattern`, `Eval.stmt`, `Eval.decls` — the evaluation of a tree
* `Eval.apply` — the call of a value
* `Program.evaluate` — the evaluation of a program
-/

namespace Reified

/-- How a statement ends. -/
inductive Flow where
  /-- It completes with a value. -/
  | value (v : Value)
  | breakLoop
  | continueLoop
  | returned (v : Value)

namespace Eval

/-! ## Expressions -/

/-- Call a value with arguments. Where checking has not found out that it is a function, a call that
involves a type gives a hole. -/
def callValue (call : Value → List Value → Eval Value) (known : Bool) (f : Value)
    (args : List Value) : Eval Value := do
  match f with
  | .function _ | .builtin _ => call f args
  | f =>
    if !known && (f.isTypeLevel || args.any Value.isTypeLevel) then
      onHeap (·.newHole (.call f args))
    else fail (.notCallable (← text f))

section expr

variable (call : Value → List Value → Eval Value)

mutual

/-- The value of an expression. -/
def expr (environment : Nat) : Expr → Eval Value
  | .ident _ x => lookup environment x
  | .literal _ v => pure v.constant.value
  | .paren _ e => expr environment e
  | .binary _ op l r => do
    match op with
    | .and => do
      let a ← expr environment l
      if ← truth a then expr environment r else pure a
    | .or => do
      let a ← expr environment l
      if ← truth a then pure a else expr environment r
    | .equal => do
      let a ← expr environment l
      let b ← expr environment r
      return .bool (a.same b)
    | op => do
      let f ← lookup environment op.symbol
      let a ← expr environment l
      let b ← expr environment r
      callValue call true f [a, b]
  | .object _ fs => do
    let cell ← onHeap fun h => (h.objects.size, (h.newObject []).2)
    fields environment cell fs
    return .object cell
  | .array _ es => do
    let cell ← onHeap fun h => (h.lists.size, (h.newArray #[]).2)
    items environment cell 0 es
    return .array cell
  | .tuple _ es => do
    let cell ← onHeap fun h =>
      (h.lists.size, (h.newTuple (Array.replicate es.length Value.unit)).2)
    items environment cell 0 es
    return .tuple cell
  | .call _ f es implicit => do
    let callee ← expr environment f
    let args ← exprs environment es
    callValue call (implicit.isSome && isFnTy f.ty?) callee args
  | .member _ o x => do
    let v ← expr environment o
    member (hasFieldTy x o.ty?) v x
  | .subscript _ t i => do
    let target ← expr environment t
    match t.ty?, i.literalIndex? with
    | some (.tuple _), some n => tupleItem target n
    | some (.array _), _ => do element target (← expr environment i)
    | _, _ => do subscript target (← expr environment i)
  | .type _ t => pure (.type t.value)

/-- The values of the expressions of a list, from left to right. -/
def exprs (environment : Nat) : List Expr → Eval (List Value)
  | [] => pure []
  | e :: es => do
    let v ← expr environment e
    return v :: (← exprs environment es)

/-- Evaluate the items of an array or a tuple, `index` of them being done. -/
def items (environment cell index : Nat) : List Expr → Eval Unit
  | [] => pure ()
  | e :: es => do
    let v ← expr environment e
    onHeap fun h => ((), h.setItem cell index v)
    items environment cell (index + 1) es

/-- Evaluate the fields of an object. -/
def fields (environment cell : Nat) : List (String × Expr) → Eval Unit
  | [] => pure ()
  | (name, e) :: fs => do
    let v ← expr environment e
    onHeap fun h => ((), h.setField cell name v)
    fields environment cell fs

end

-- The equations are made here, once for all the proofs that use them.
attribute [local simp] expr exprs items fields

end expr

/-! ## Patterns -/

mutual

/-- Whether a value matches a pattern, the variables of which are defined. -/
def pattern (environment : Nat) (v : Value) : Pattern → Eval Bool
  | .ident name _ => do
    define environment name v
    return true
  | .any _ => pure true
  | .literal l _ => pure (v.same l.constant.value)
  | .object entries _ =>
    if v.cellKind? = some .object then patternEntries environment v entries else pure false

/-- Whether the fields of an object match the patterns of entries. -/
def patternEntries (environment : Nat) (v : Value) : List (String × Pattern) → Eval Bool
  | [] => pure true
  | (name, p) :: entries => do
    match Exec.field? (← heap) v name with
    | none => pure false
    | some x => do
      if ← pattern environment x p then patternEntries environment v entries
      else pure false

end

/-! ## Statements -/

/-- Rounds of a loop, `n` of them at most. -/
def loop (test : Eval Bool) (body : Eval Flow) (next : Eval Unit) : Nat → Eval Flow
  | 0 => throw .unfinished
  | n + 1 => do
    if ← test then
      match ← body with
      | .value _ | .continueLoop => do
        next
        loop test body next n
      | .breakLoop => pure (.value .unit)
      | .returned v => pure (.returned v)
    else pure (.value .unit)

section stmt

variable (call : Value → List Value → Eval Value) (rounds : Nat)

/-- Define a name as the value of its initializer. -/
def letDecl (environment : Nat) (d : LetDecl) : Eval Unit := do
  define environment d.name (← expr call environment d.init)

/-- What a `for` loop does first. -/
def forInit (environment : Nat) : Option ForInit → Eval Unit
  | none => pure ()
  | some (.expr e) => do let _ ← expr call environment e
  | some (.letDecl d) => letDecl call environment d

/-- The truth value of a condition; without one a loop goes on. -/
def condition (environment : Nat) : Option Expr → Eval Bool
  | none => pure true
  | some e => do truth (← expr call environment e)

/-- What a `for` loop does after each round. -/
def forNext (environment : Nat) : Option Expr → Eval Unit
  | none => pure ()
  | some e => do let _ ← expr call environment e

/-- Create the functions among some declarations. -/
def functions (environment : Nat) : List Decl → Eval Unit
  | [] => pure ()
  | .fn head body :: ds => do
    let f ← newFunction ⟨head, body, environment⟩
    define environment head.name f
    functions environment ds
  | _ :: ds => functions environment ds

mutual

/-- Execute a statement. -/
def stmt (environment : Nat) : Stmt → Eval Flow
  | .empty _ => pure (.value .unit)
  | .block body _ => do
    let inner ← child environment
    functions inner body
    decls inner .unit body
  | .ret none _ => pure (.returned .unit)
  | .ret (some e) _ => do return .returned (← expr call environment e)
  | .cond c s alternate _ => do
    if ← truth (← expr call environment c) then stmt environment s
    else
      match alternate with
      | some t => stmt environment t
      | none => pure (.value .unit)
  | .whileLoop c body _ =>
    loop (condition call environment (some c)) (stmt environment body) (pure ()) rounds
  | .forLoop init c increment body _ => do
    let inner ← child environment
    forInit call inner init
    loop (condition call inner c) (stmt inner body) (forNext call inner increment) rounds
  | .breakLoop _ => pure .breakLoop
  | .continueLoop _ => pure .continueLoop
  | .cases scrutinee cs default _ => do
    let v ← expr call environment scrutinee
    match ← matchCases environment v cs with
    | some flow => pure flow
    | none =>
      match default with
      | some s => stmt environment s
      | none => fail (.raised "All patterns failed to match")
  | .expr e => do return .value (← expr call environment e)

/-- Execute the first case that matches; `none` when no case does. -/
def matchCases (environment : Nat) (v : Value) : List (Pattern × Stmt) → Eval (Option Flow)
  | [] => pure none
  | (p, s) :: cs => do
    let inner ← child environment
    if ← pattern inner v p then return some (← stmt inner s)
    else matchCases environment v cs

/-- Execute declarations in turn; `last` is the value that the one before completed with. -/
def decls (environment : Nat) (last : Value) : List Decl → Eval Flow
  | [] => pure (.value last)
  | d :: ds => do
    match ← decl environment d with
    | .value v => decls environment v ds
    | flow => pure flow

/-- Execute a declaration. -/
def decl (environment : Nat) : Decl → Eval Flow
  | .letDecl d => do
    letDecl call environment d
    return .value .unit
  | .fn .. => pure (.value .unit)
  | .stmt s => stmt environment s

end

-- The equations are made here, once for all the proofs that use them.
attribute [local simp] stmt matchCases decls decl

/-- Execute a block in an environment of its own. -/
def block (environment : Nat) (body : List Decl) : Eval Flow := do
  let inner ← child environment
  functions inner body
  decls call rounds inner .unit body

end stmt

/-! ## Calls -/

/-- The value with which a function or a program ends. No loop is around it that could be left. -/
def answer : Flow → Eval Value
  | .value v | .returned v => pure v
  | .breakLoop | .continueLoop => throw .unfinished

/-- Call a value, with at most so many calls of functions nested and rounds of each loop. -/
def apply : Nat → Value → List Value → Eval Value
  | _, .builtin op, args => operator op args
  | 0, .function _, _ => throw .unfinished
  | n + 1, .function c, args => do
    match ← function c with
    | none => fail (.notCallable (← text (.function c)))
    | some f => do
      if args.length = f.head.params.length then
        let inner ← child f.environment
        bindArgs inner f.head.params args
        answer (← block (apply n) n inner f.body)
      else fail (.arity f.head.name f.head.params.length args.length)
  | _, v, _ => do fail (.notCallable (← text v))

theorem apply_function {n c : Nat} {s : Store} {f : Function} (h : s.functions[c]? = some f) (args : List Value) :
    apply (n + 1) (.function c) args s = (if args.length = f.head.params.length then do
      let inner ← child f.environment
      bindArgs inner f.head.params args
      answer (← block (apply n) n inner f.body)
    else fail (.arity f.head.name f.head.params.length args.length) : Eval Value) s := by
  rw [apply]
  show EStateM.bind (function c) _ s = _
  simp only [EStateM.bind, function, h]

/-- Execute the declarations of a program in an environment inside that of the operators. -/
def program (n : Nat) (globals : Nat) (ds : List Decl) : Eval Value := do
  let environment ← child globals
  functions environment ds
  answer (← decls (apply n) n environment .unit ds)

end Eval

/-- The store of a program before it starts: only the operators are known. -/
def Store.initial : Store := ⟨Machine.initial.heap, #[]⟩

/-- Evaluate declarations, with at most so many calls nested and rounds of each loop. The answer is
their value or the failure, and the store; `none` means that the evaluation was left unfinished. -/
def Program.evaluate (n : Nat) (ds : List Decl) : Option (Except Fault Value × Store) :=
  match Eval.program n Machine.initial.globals ds .initial with
  | .ok v s => some (.ok v, s)
  | .error (.fault e) s => some (.error e, s)
  | .error .unfinished _ => none

end Reified
