import Reified.Tree.Basic

/-!
# Loops that never complete

A loop without a condition, or with the literal condition `true`, ends only through a `break` of its
own. A `break` inside a nested loop or a nested function belongs to that one.

## Main definitions

* `Stmt.breaksOut` — a `break` in the statement leaves the loop around it
* `Stmt.neverExits` — a loop with such a condition and body has no completion value
-/

namespace Reified

namespace Stmt

mutual

/-- The statement contains a `break` of the loop around it. -/
def breaksOut : Stmt → Bool
  | .breakLoop _ => true
  | .block body _ => anyBreaksOut body
  | .cond _ s none _ => s.breaksOut
  | .cond _ s (some t) _ => s.breaksOut || t.breaksOut
  | .cases _ cs none _ => anyCaseBreaksOut cs
  | .cases _ cs (some s) _ => anyCaseBreaksOut cs || s.breaksOut
  | .whileLoop .. | .forLoop .. | .empty _ | .ret .. | .continueLoop _ | .expr _ => false

/-- Some statement of a block contains a `break` of the loop around the block. -/
def anyBreaksOut : List Decl → Bool
  | [] => false
  | .stmt s :: ds => s.breaksOut || anyBreaksOut ds
  | _ :: ds => anyBreaksOut ds

/-- Some case contains a `break` of the loop around the match. -/
def anyCaseBreaksOut : List (Pattern × Stmt) → Bool
  | [] => false
  | (_, s) :: cs => s.breaksOut || anyCaseBreaksOut cs

end

/-- The condition of a loop cannot end it. -/
def unconditional : Option Expr → Bool
  | none => true
  | some (.literal _ (.bool true)) => true
  | some _ => false

/-- A loop with this condition and body has no completion value. -/
def neverExits (condition : Option Expr) (body : Stmt) : Bool :=
  unconditional condition && !body.breaksOut

end Stmt

end Reified
