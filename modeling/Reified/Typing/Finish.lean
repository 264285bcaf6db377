import Reified.Tree.Basic
import Reified.Ty.Resolve

/-!
# Final types

While a program is being checked, the types recorded in its tree may mention variables that are
bound later. Once everything is checked, all recorded types are resolved: those of expressions, the
signatures of functions, and the types inferred for inferred parameters.

## Main definitions

* `Expr.finish`, `Stmt.finish`, `Decl.finish` — the tree with all its types resolved
-/

namespace Reified

/-- Resolve a recorded type. -/
def finishTy (t : Ty) : StateM Table Ty := fun T => T.resolveDeep t

/-- Resolve recorded types in turn; `done` are the ones before, the latest first. -/
def finishTys (done : List Ty) : List Ty → StateM Table (List Ty)
  | [] => pure done.reverse
  | t :: ts => do finishTys ((← finishTy t) :: done) ts

/-- Resolve the type in a note. -/
def Note.finish (n : Note) : StateM Table Note := do
  return { n with ty := ← n.ty.mapM finishTy }

namespace Expr

mutual

/-- Resolve the types recorded in an expression, from the outside in and from left to right. -/
def finish : Expr → StateM Table Expr
  | .ident n x => do return .ident (← n.finish) x
  | .literal n v => do return .literal (← n.finish) v
  | .binary n op l r => do
    let n ← n.finish
    let l ← l.finish
    return .binary n op l (← r.finish)
  | .paren n e => do
    let n ← n.finish
    return .paren n (← e.finish)
  | .object n fs => do
    let n ← n.finish
    return .object n (← finishFields [] fs)
  | .array n es => do
    let n ← n.finish
    return .array n (← finishList [] es)
  | .tuple n es => do
    let n ← n.finish
    return .tuple n (← finishList [] es)
  | .call n f es implicit => do
    let n ← n.finish
    let f ← f.finish
    let es ← finishList [] es
    return .call n f es (← implicit.mapM (finishTys []))
  | .subscript n t i => do
    let n ← n.finish
    let t ← t.finish
    return .subscript n t (← i.finish)
  | .member n o x => do
    let n ← n.finish
    return .member n (← o.finish) x
  | .type n t => do return .type (← n.finish) t

/-- Resolve the types recorded in expressions; `done` are the ones before, the latest first. -/
def finishList (done : List Expr) : List Expr → StateM Table (List Expr)
  | [] => pure done.reverse
  | e :: es => do
    let e ← e.finish
    finishList (e :: done) es

/-- Resolve the types recorded in fields; `done` are the ones before, the latest first. -/
def finishFields (done : List (String × Expr)) :
    List (String × Expr) → StateM Table (List (String × Expr))
  | [] => pure done.reverse
  | (name, e) :: fs => do
    let e ← e.finish
    finishFields ((name, e) :: done) fs

end

end Expr

/-- Resolve the types recorded in a declaration of a variable. -/
def LetDecl.finish (d : LetDecl) : StateM Table LetDecl := do
  return { d with init := ← d.init.finish }

/-- Resolve the types recorded in what a `for` loop does first. -/
def ForInit.finish : ForInit → StateM Table ForInit
  | .expr e => do return .expr (← e.finish)
  | .letDecl d => do return .letDecl (← d.finish)

/-- Resolve the signature of a function. -/
def FnHead.finish (f : FnHead) : StateM Table FnHead := do
  return { f with signature := ← f.signature.mapM finishTy }

mutual

/-- Resolve the types recorded in a statement. -/
def Stmt.finish : Stmt → StateM Table Stmt
  | .empty span => pure (.empty span)
  | .block body span => do return .block (← finishDecls [] body) span
  | .ret value span => do return .ret (← value.mapM Expr.finish) span
  | .cond c s alternate span => do
    let c ← c.finish
    let s ← s.finish
    match alternate with
    | none => return .cond c s none span
    | some t => do return .cond c s (some (← t.finish)) span
  | .whileLoop c body span => do
    let c ← c.finish
    return .whileLoop c (← body.finish) span
  | .forLoop init c increment body span => do
    let init ← init.mapM ForInit.finish
    let c ← c.mapM Expr.finish
    let increment ← increment.mapM Expr.finish
    return .forLoop init c increment (← body.finish) span
  | .breakLoop span => pure (.breakLoop span)
  | .continueLoop span => pure (.continueLoop span)
  | .cases scrutinee cs default span => do
    let scrutinee ← scrutinee.finish
    let cs ← finishCases [] cs
    match default with
    | none => return .cases scrutinee cs none span
    | some s => do return .cases scrutinee cs (some (← s.finish)) span
  | .expr e => do return .expr (← e.finish)

/-- Resolve the types recorded in the cases of a match; `done` are the ones before, the latest
first. -/
def finishCases (done : List (Pattern × Stmt)) :
    List (Pattern × Stmt) → StateM Table (List (Pattern × Stmt))
  | [] => pure done.reverse
  | (p, s) :: cs => do
    let s ← s.finish
    finishCases ((p, s) :: done) cs

/-- Resolve the types recorded in declarations; `done` are the ones before, the latest first. -/
def finishDecls (done : List Decl) : List Decl → StateM Table (List Decl)
  | [] => pure done.reverse
  | d :: ds => do
    let d ← d.finish
    finishDecls (d :: done) ds

/-- Resolve the types recorded in a declaration. -/
def Decl.finish : Decl → StateM Table Decl
  | .letDecl d => do return .letDecl (← d.finish)
  | .fn head body => do
    let head ← head.finish
    return .fn head (← finishDecls [] body)
  | .stmt s => do return .stmt (← s.finish)

end

end Reified
