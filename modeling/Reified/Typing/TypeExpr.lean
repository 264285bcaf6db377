import Reified.Typing.Basic

/-!
# The meaning of written types

A name stands for what the scope says, and otherwise for one of the types that every program knows.
Written types never mention implicit parameters.

## Main definitions

* `Scope.interpret` — the type that a written type stands for
* `Check.typeExpr` — the same, as an action of the checker
* `Check.typeValue` — whether a written type can be used as a value
-/

namespace Reified

namespace Scope

mutual

/-- The type that a written type stands for, or the first name in it that means nothing. -/
def interpret (s : Scope) : TypeExpr → Except CheckError Ty
  | .name n span =>
    match s.lookupType n with
    | some t => .ok t
    | none => if Ty.isWellKnown n then .ok (.name n) else .error ⟨.unknownType n, span⟩
  | .array t => return .array (← s.interpret t)
  | .tuple ts => return .tuple (← s.interpretList ts)
  | .record fs => return .record (← s.interpretFields fs)
  | .fn ps r => return .fn (← s.interpretList ps) (← s.interpret r) 0
  | .union a b => return .union (← s.interpret a) (← s.interpret b)

/-- The types that the written types of a list stand for. -/
def interpretList (s : Scope) : List TypeExpr → Except CheckError (List Ty)
  | [] => .ok []
  | t :: ts => return (← s.interpret t) :: (← s.interpretList ts)

/-- The types that the written types of fields stand for. -/
def interpretFields (s : Scope) : List (String × TypeExpr) → Except CheckError (List (String × Ty))
  | [] => .ok []
  | (n, t) :: fs => return (n, ← s.interpret t) :: (← s.interpretFields fs)

end

end Scope

namespace Check

/-- The type that a written type stands for in the current scope. -/
def typeExpr (t : TypeExpr) : Check Ty := do
  match (← get).scope.interpret t with
  | .ok t => pure t
  | .error e => throw e

/-- The type that a written type stands for, or a fresh variable where none is written. -/
def optionalType (name : String) : Option TypeExpr → Check Ty
  | some t => typeExpr t
  | none => freshVar name

/-- The types without a value at run time: the type parameters that are not inferred. -/
def erased (s : Scope) (name : String) : Bool :=
  match s.lookupType name with
  | some (.var v) => !v.inferred
  | _ => false

/-- A written type may stand where a value is expected if it means something and uses no type
parameter that has no value at run time. -/
def typeValue (t : TypeExpr) (span : Span) : Check Unit := do
  let _ ← typeExpr t
  let s := (← get).scope
  match t.names.find? (erased s) with
  | some name => fail (.misuse (.typeParameterAtRunTime name)) span
  | none => pure ()

end Check

end Reified
