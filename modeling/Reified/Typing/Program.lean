import Reified.Typing.Finish
import Reified.Typing.Stmt

/-!
# Checking programs

The top-level declarations of a program are checked one after the other. One that fails is rejected
with a diagnostic, and checking goes on with the next: the scopes, frames and counts are brought
back to what they were before it, and the name of a rejected `let` is bound to a fresh variable, so
that its uses are accepted.

## Main definitions

* `CheckedProgram` — a program with its types, and the rejected positions
* `Checker.checkProgram` — check a program
-/

namespace Reified

/-- The outcome of checking a program. -/
structure CheckedProgram where
  /-- The declarations, the accepted ones with all their types. -/
  program : Program
  /-- The positions of the rejected declarations, in increasing order. -/
  rejected : List Nat

/-- The declaration at a position is rejected. -/
def CheckedProgram.isRejected (c : CheckedProgram) (index : Nat) : Bool :=
  c.rejected.contains index

namespace Checker

/-- Close frames until at most `depth` are open; `n` bounds how many are closed. -/
def closeFrames (depth : Nat) : Nat → Frames → Table → Frames × Table
  | 0, F, T => (F, T)
  | n + 1, F, T =>
    if depth < F.depth then
      let (_, F, T) := F.pop T
      closeFrames depth n F T
    else (F, T)

/-- Bring scopes, frames and counts back to what they were before a declaration whose check
failed. -/
def unwind (scopeDepth frameDepth returnDepth loopDepth : Nat) (s : Checker) : Checker :=
  let ⟨T, S, F, D, R, _⟩ := s
  let (F, T) := closeFrames frameDepth F.depth F T
  ⟨T, S.truncate scopeDepth, F, D, R.drop (R.length - returnDepth), loopDepth⟩

/-- Report a rejected declaration. -/
def report (index : Nat) (e : CheckError) (s : Checker) : Checker :=
  { s with diagnostics := s.diagnostics.reject index e.error.message e.span }

/-- Bind the name of a rejected `let` to a fresh variable. -/
def bindRejected : Decl → Check Unit
  | .letDecl d => do Check.bindValue d.name (← Check.freshVar d.name)
  | _ => pure ()

/-- Run an action that does not fail; the state of a failure counts as well. -/
def after (act : Check Unit) (s : Checker) : Checker :=
  match act s with
  | .ok _ s => s
  | .error _ s => s

/-- Check one top-level declaration. What it completes with is of no interest. -/
def checkTopLevel [Check.Policy] (d : Decl) : Check Decl := do
  let discard ← Check.freshVar ""
  Check.decl discard d

/-- Check top-level declarations from a position on. The answer lists each with whether it is
accepted; `done` are the ones before, the latest first. -/
def checkDecls [Check.Policy] (index : Nat) (done : List (Decl × Bool)) :
    List Decl → Checker → List (Decl × Bool) × Checker
  | [], s => (done.reverse, s)
  | d :: ds, s =>
    let scopeDepth := s.scope.depth
    let frameDepth := s.frames.depth
    let returnDepth := s.returns.length
    let loopDepth := s.loopDepth
    match checkTopLevel d s with
    | .ok d s => checkDecls (index + 1) ((d, true) :: done) ds s
    | .error e s =>
      let s := (s.report index e).unwind scopeDepth frameDepth returnDepth loopDepth
      checkDecls (index + 1) ((d, false) :: done) ds (s.after (bindRejected d))

/-- Resolve the types of the accepted declarations. -/
def finishAccepted (done : List (Decl × Bool)) :
    List (Decl × Bool) → StateM Table (List (Decl × Bool))
  | [] => pure done.reverse
  | (d, accepted) :: ds => do
    let d ← if accepted then d.finish else pure d
    finishAccepted ((d, accepted) :: done) ds

/-- The positions, from `index` on, of the declarations that are not accepted. -/
def rejectedFrom (index : Nat) : List (Decl × Bool) → List Nat
  | [] => []
  | (_, true) :: ds => rejectedFrom (index + 1) ds
  | (_, false) :: ds => index :: rejectedFrom (index + 1) ds

/-- Open the frame and the scope of a program, which knows its functions from the start. -/
def openProgram (program : Program) : Check Unit := do
  Check.pushFrame
  Check.pushScope
  Check.hoist program

/-- Close the scope and the frame of a program. -/
def closeProgram : Check Unit := do
  Check.popScope
  Check.popFrame

/-- Check a program. The checker afterwards has the diagnostics of all programs it has checked. -/
def checkProgram [Check.Policy] (s : Checker) (program : Program) : CheckedProgram × Checker :=
  let s := s.after (openProgram program)
  let (checked, s) := checkDecls 0 [] program s
  let s := s.after closeProgram
  let ⟨T, S, F, D, R, L⟩ := s
  let (checked, T) := finishAccepted [] checked T
  (⟨checked.map Prod.fst, rejectedFrom 0 checked⟩, ⟨T, S, F, D, R, L⟩)

end Checker

end Reified
