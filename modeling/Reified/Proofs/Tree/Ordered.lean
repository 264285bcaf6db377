import Reified.Proofs.Tree.Exprs
import Reified.Proofs.Ty.Subst

/-!
# Fields in order

A program lists the fields of each written record type and of each object in increasing order of their
names, no name twice: a parser collects them in an ordered map.

## Main definitions

* `TypeExpr.Ordered`, `Expr.Ordered` — the fields in a written type or an expression are in order
* `Stmt.Ordered`, `Decl.Ordered` — in all written types and expressions of a statement or declaration
-/

namespace Reified

mutual

/-- The fields of all record types in the written type are in order. -/
def TypeExpr.Ordered : TypeExpr → Prop
  | .name _ _ => True
  | .array t => t.Ordered
  | .tuple ts => TypeExpr.OrderedList ts
  | .record fs => Fields.Sorted fs ∧ TypeExpr.OrderedFields fs
  | .fn ps r => TypeExpr.OrderedList ps ∧ r.Ordered
  | .union a b => a.Ordered ∧ b.Ordered

/-- `TypeExpr.Ordered` for each written type of a list. -/
def TypeExpr.OrderedList : List TypeExpr → Prop
  | [] => True
  | t :: ts => t.Ordered ∧ TypeExpr.OrderedList ts

/-- `TypeExpr.Ordered` for the written type of each field. -/
def TypeExpr.OrderedFields : List (String × TypeExpr) → Prop
  | [] => True
  | (_, t) :: fs => t.Ordered ∧ TypeExpr.OrderedFields fs

end

/-- The fields of the expression are in order, if it is an object. -/
def Expr.InOrder (e : Expr) : Prop := ∀ n fs, e = .object n fs → Fields.Sorted fs

/-- The fields of all objects in the expression are in order. -/
abbrev Expr.Ordered (e : Expr) : Prop := e.Everywhere Expr.InOrder

/-- The fields in a declaration of a variable are in order. -/
structure LetDecl.Ordered (d : LetDecl) : Prop where
  annotation : ∀ t ∈ d.annotation, t.Ordered
  init : d.init.Ordered

/-- The fields in what a `for` loop does first are in order. -/
def ForInit.Ordered : ForInit → Prop
  | .expr e => e.Ordered
  | .letDecl d => d.Ordered

/-- The fields in the types of the parameters and the result of a function are in order. -/
structure FnHead.Ordered (head : FnHead) : Prop where
  params : ∀ p ∈ head.params, ∀ t ∈ p.annotation, t.Ordered
  result : ∀ t ∈ head.result, t.Ordered

mutual

/-- The fields in the statement are in order. -/
def Stmt.Ordered : Stmt → Prop
  | .empty _ | .breakLoop _ | .continueLoop _ => True
  | .block body _ => Decl.OrderedList body
  | .ret value _ => ∀ e ∈ value, e.Ordered
  | .cond c s none _ => c.Ordered ∧ s.Ordered
  | .cond c s (some t) _ => c.Ordered ∧ s.Ordered ∧ t.Ordered
  | .whileLoop c body _ => c.Ordered ∧ body.Ordered
  | .forLoop init c increment body _ => (∀ i ∈ init, i.Ordered) ∧ (∀ e ∈ c, e.Ordered) ∧
      (∀ e ∈ increment, e.Ordered) ∧ body.Ordered
  | .cases scrutinee cs none _ => scrutinee.Ordered ∧ Stmt.OrderedCases cs
  | .cases scrutinee cs (some s) _ => scrutinee.Ordered ∧ Stmt.OrderedCases cs ∧ s.Ordered
  | .expr e => e.Ordered

/-- `Stmt.Ordered` for the statement of each case. -/
def Stmt.OrderedCases : List (Pattern × Stmt) → Prop
  | [] => True
  | (_, s) :: cs => s.Ordered ∧ Stmt.OrderedCases cs

/-- The fields in the declaration are in order. -/
def Decl.Ordered : Decl → Prop
  | .letDecl d => d.Ordered
  | .fn head body => head.Ordered ∧ Decl.OrderedList body
  | .stmt s => s.Ordered

/-- `Decl.Ordered` for each declaration of a list. -/
def Decl.OrderedList : List Decl → Prop
  | [] => True
  | d :: ds => d.Ordered ∧ Decl.OrderedList ds

end

/-- The fields everywhere in the program are in order. -/
def Program.Ordered (program : Program) : Prop := Decl.OrderedList program

end Reified
