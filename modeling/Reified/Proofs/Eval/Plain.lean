import Reified.Tree.Basic

/-!
# Trees without inferred parameters

In a checked program without inferred parameters, functions have signatures without inferred
parameters, calls have no inferred arguments, and written types use only names that every program
knows.

## Main definitions

* `Expr.Plain`, `Stmt.Plain`, `Decl.Plain` — such trees
-/

namespace Reified

/-- The written type uses only names that every program knows. -/
def TypeExpr.WellKnown (t : TypeExpr) : Prop :=
  ∀ n ∈ t.names, Ty.isWellKnown n = true

mutual

/-- The calls of the expression have no inferred arguments, and its types are known by name. -/
def Expr.Plain : Expr → Prop
  | .ident .. | .literal .. => True
  | .paren _ e => e.Plain
  | .binary _ _ l r => l.Plain ∧ r.Plain
  | .object _ fs => PlainFields fs
  | .array _ es | .tuple _ es => PlainList es
  | .call _ f es implicit => f.Plain ∧ PlainList es ∧ implicit.getD [] = []
  | .subscript _ t i => t.Plain ∧ i.Plain
  | .member _ o _ => o.Plain
  | .type _ t => t.WellKnown

/-- `Expr.Plain` for each expression of a list. -/
def Expr.PlainList : List Expr → Prop
  | [] => True
  | e :: es => e.Plain ∧ PlainList es

/-- `Expr.Plain` for each expression of some fields. -/
def Expr.PlainFields : List (String × Expr) → Prop
  | [] => True
  | (_, e) :: fs => e.Plain ∧ PlainFields fs

end

theorem Expr.plainList_iff {es : List Expr} : Expr.PlainList es ↔ ∀ e ∈ es, e.Plain := by
  induction es with
  | nil => simp [Expr.PlainList]
  | cons e es ih => simp [Expr.PlainList, ih]

theorem Expr.plainFields_iff {fs : List (String × Expr)} :
    Expr.PlainFields fs ↔ ∀ f ∈ fs, f.2.Plain := by
  induction fs with
  | nil => simp [Expr.PlainFields]
  | cons f fs ih => obtain ⟨name, e⟩ := f; simp [Expr.PlainFields, ih]

/-- The function is checked, and has no inferred parameters. -/
def FnHead.Plain (head : FnHead) : Prop :=
  (∃ types result, head.signature = some (.fn types result 0) ∧
    types.length = head.params.length) ∧
  ∀ p ∈ head.params, p.inferred = false

/-- `Expr.Plain` for what a `for` loop does first. -/
def ForInit.Plain : ForInit → Prop
  | .expr e => e.Plain
  | .letDecl d => d.init.Plain

/-- The expression is plain, if there is one. -/
def Expr.PlainOption : Option Expr → Prop
  | some e => e.Plain
  | none => True

mutual

/-- All functions and expressions of the statement are plain. -/
def Stmt.Plain : Stmt → Prop
  | .empty _ | .breakLoop _ | .continueLoop _ => True
  | .block body _ => Decl.PlainList body
  | .ret value _ => Expr.PlainOption value
  | .cond c s none _ => c.Plain ∧ s.Plain
  | .cond c s (some t) _ => c.Plain ∧ s.Plain ∧ t.Plain
  | .whileLoop c body _ => c.Plain ∧ body.Plain
  | .forLoop init c increment body _ =>
    (∀ i ∈ init, i.Plain) ∧ Expr.PlainOption c ∧ Expr.PlainOption increment ∧ body.Plain
  | .cases scrutinee cs none _ => scrutinee.Plain ∧ Stmt.PlainCases cs
  | .cases scrutinee cs (some s) _ => scrutinee.Plain ∧ Stmt.PlainCases cs ∧ s.Plain
  | .expr e => e.Plain

/-- `Stmt.Plain` for the statement of each case. -/
def Stmt.PlainCases : List (Pattern × Stmt) → Prop
  | [] => True
  | (_, s) :: cs => s.Plain ∧ Stmt.PlainCases cs

/-- `Stmt.Plain` for declarations. -/
def Decl.Plain : Decl → Prop
  | .letDecl d => d.init.Plain
  | .fn head body => head.Plain ∧ Decl.PlainList body
  | .stmt s => s.Plain

/-- `Decl.Plain` for each declaration of a list. -/
def Decl.PlainList : List Decl → Prop
  | [] => True
  | d :: ds => d.Plain ∧ Decl.PlainList ds

end

theorem Stmt.plainCases_iff {cs : List (Pattern × Stmt)} :
    Stmt.PlainCases cs ↔ ∀ c ∈ cs, c.2.Plain := by
  induction cs with
  | nil => simp [Stmt.PlainCases]
  | cons c cs ih => obtain ⟨p, s⟩ := c; simp [Stmt.PlainCases, ih]

theorem Decl.plainList_iff {ds : List Decl} : Decl.PlainList ds ↔ ∀ d ∈ ds, d.Plain := by
  induction ds with
  | nil => simp [Decl.PlainList]
  | cons d ds ih => simp [Decl.PlainList, ih]

end Reified
