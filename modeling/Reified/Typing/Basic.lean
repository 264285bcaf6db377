import Reified.Diagnostics
import Reified.Operator
import Reified.Tree.Basic
import Reified.Ty.Generalize
import Reified.Ty.Scope
import Reified.Ty.Unify

/-!
# The state of checking

A checker holds the table of type variables, the open scopes and frames, the result types of the
functions around the current place, and how many loops of the innermost function are around it.

Checking is an action on a checker that may fail. A failure keeps the state as it was reached;
whoever catches it brings scopes, frames and the two counts back.

An access of which nothing is known is left to the run, and its type is a fresh variable. A policy can
refuse such accesses instead; programs are checked under the one that refuses none.

## Main definitions

* `Checker`, `CheckError`, `Check`
* `Check.freshVar`, `Check.lookup`, `Check.unify`, `Check.resolve` — the elementary actions
* `Check.Policy`, `Check.hole` — accesses of which nothing is known
* `Checker.initial` — only the operators are known
-/

namespace Reified

/-- The state of checking. -/
structure Checker where
  table : Table
  scope : Scope
  frames : Frames
  diagnostics : Diagnostics
  /-- The result types of the functions around the current place, the innermost first. -/
  returns : List Ty
  /-- The number of loops around the current place inside the innermost function. -/
  loopDepth : Nat
  deriving Inhabited

/-- A type error and its place. -/
structure CheckError where
  error : TyError
  span : Span
  deriving DecidableEq

/-- An action of the checker. -/
abbrev Check := EStateM CheckError Checker

namespace Check

variable {α : Type}

/-- Fail at a place. -/
def fail (error : TyError) (span : Span) : Check α :=
  throw ⟨error, span⟩

/-- Act on the table. -/
@[inline] def onTable (f : Table → α × Table) : Check α :=
  fun ⟨T, S, F, D, R, L⟩ => let (a, T) := f T; .ok a ⟨T, S, F, D, R, L⟩

/-- Act on the frames and the table. -/
@[inline] def onFrames (f : Frames → Table → α × Frames × Table) : Check α :=
  fun ⟨T, S, F, D, R, L⟩ => let (a, F, T) := f F T; .ok a ⟨T, S, F, D, R, L⟩

/-- Act on the scopes. -/
@[inline] def onScope (f : Scope → Scope) : Check Unit :=
  fun ⟨T, S, F, D, R, L⟩ => .ok () ⟨T, f S, F, D, R, L⟩

/-! ## Types -/

/-- The representative of a type. -/
def resolve (t : Ty) : Check Ty := onTable fun T => T.resolve t

/-- The type with every bound variable replaced. -/
def resolveDeep (t : Ty) : Check Ty := onTable fun T => T.resolveDeep t

/-- The type with the remaining variables of a list replaced. -/
def substitute (image : List (Nat × Ty)) (t : Ty) : Check Ty :=
  onTable fun T => T.substitute t image

/-- Unify two types; a failure is reported at the place. -/
def unify (expected found : Ty) (span : Span) : Check Unit :=
  fun ⟨T, S, F, D, R, L⟩ =>
    match T.unify expected found with
    | .ok _ T => .ok () ⟨T, S, F, D, R, L⟩
    | .error e T => .error ⟨e, span⟩ ⟨T, S, F, D, R, L⟩

/-- A further variable in the innermost frame. -/
def newVar (name : String) (inferred rigid : Bool) : Check Ty :=
  onFrames fun F T => F.newVar T name inferred rigid

/-- A further flexible variable in the innermost frame. -/
def freshVar (name : String) : Check Ty := newVar name false false

/-- The places at which an access is refused when nothing is known about what is accessed. -/
class Policy where
  refuses : Span → Bool

/-- No access is refused: it is decided when the program runs. -/
instance : Policy := ⟨fun _ => false⟩

/-- Go on at a place where nothing is known about what is accessed, unless that is refused. -/
def unknown [Policy] (span : Span) : Check Unit :=
  if Policy.refuses span then fail (.misuse (.other "Access of unknown type")) span else pure ()

/-- The type of an access about which nothing is known. -/
def hole [Policy] (name : String) (span : Span) : Check Ty := do
  unknown span
  freshVar name

/-- An instance of a type. -/
def instantiate (t : Ty) : Check Ty := onFrames fun F T => F.instantiate T t

/-! ## Scopes and frames -/

/-- Open a scope. -/
def pushScope : Check Unit := onScope Scope.push
/-- Close the innermost scope. -/
def popScope : Check Unit := onScope Scope.pop
/-- Give a value a type in the innermost scope. -/
def bindValue (name : String) (t : Ty) : Check Unit := onScope (·.insert name t)
/-- Give a type a name in the innermost scope. -/
def bindType (name : String) (t : Ty) : Check Unit := onScope (·.insertType name t)
/-- Open a frame. -/
def pushFrame : Check Unit := onFrames fun F T => ((), F.push, T)
/-- Close the innermost frame. -/
def popFrame : Check Unit := onFrames fun F T => ((), (F.pop T).2)

/-- The type of a value in scope, as a fresh instance. -/
def lookup (name : String) (span : Span) : Check Ty := do
  match (← get).scope.lookup name with
  | some t => instantiate t
  | none => fail (.unknownVariable name) span

/-- The type that a name of a type stands for. -/
def lookupType (name : String) : Check (Option Ty) :=
  return (← get).scope.lookupType name

end Check

namespace Checker

/-- Bind the operators in the innermost scope, each with a type parameter of its own. -/
def declareOperators : List Operator → Check Unit
  | [] => pure ()
  | op :: ops => do
    let any ← Check.freshVar "a"
    Check.bindValue op.symbol (op.signature any)
    declareOperators ops

/-- Open the scope of the operators; their type parameters are generalized. -/
def declareBuiltins : Check Unit := do
  Check.pushScope
  Check.pushFrame
  declareOperators Operator.all
  Check.popFrame

/-- The checker before any program: no variable, no scope. -/
def blank : Checker := ⟨.empty, .empty, .empty, .empty, [], 0⟩

/-- The checker that knows the operators and nothing else. -/
def initial : Checker :=
  match declareBuiltins blank with
  | .ok _ s => s
  | .error _ s => s

end Checker

end Reified
