import Reified.Ty.Text

/-!
# What can be wrong with types

The causes for which a declaration is rejected or a unification fails, and the wording of each.

## Main definitions

* `Misuse` — a construct in a place or on a value where it makes no sense
* `TyError` — every cause, the misuses among them
* `TyError.message` — the wording
-/

namespace Reified

/-- A construct that the language does not allow where it stands. -/
inductive Misuse where
  /-- An inferred parameter comes after one that the caller supplies. -/
  | inferredAfterExplicit (parameter : String)
  | returnOutsideFunction
  /-- A `break` or `continue`, given by its keyword, has no loop around it. -/
  | jumpOutsideLoop (keyword : String)
  | objectPattern (scrutinee : Ty)
  /-- The name of an operator is bound to something that takes no two arguments. -/
  | operatorBound (symbol : String) (ty : Ty)
  | notCallable (ty : Ty)
  | tupleIndexNotLiteral (tuple : Ty)
  | tupleIndexOutOfRange (index : Nat) (tuple : Ty)
  /-- A type parameter that is not inferred has no run-time value. -/
  | typeParameterAtRunTime (name : String)
  /-- A cause outside the checker, in its own words. -/
  | other (text : String)
  deriving DecidableEq

/-- The wording of a misuse. -/
def Misuse.message : Misuse → String
  | .inferredAfterExplicit p =>
    "Inferred parameter `" ++ p ++ "` must come before explicit parameters"
  | .returnOutsideFunction => "`return` outside of a function"
  | .jumpOutsideLoop keyword => "`" ++ keyword ++ "` outside of a loop"
  | .objectPattern t => "Object pattern cannot match a value of type `" ++ t.text ++ "`"
  | .operatorBound symbol t => "Operator `" ++ symbol ++ "` is bound to `" ++ t.text ++ "`"
  | .notCallable t => "Value of type `" ++ t.text ++ "` is not callable"
  | .tupleIndexNotLiteral t => "Tuple `" ++ t.text ++ "` must be indexed by a numeric literal"
  | .tupleIndexOutOfRange i t =>
    "Index " ++ toString i ++ " is out of range for `" ++ t.text ++ "`"
  | .typeParameterAtRunTime n => "Type parameter `" ++ n ++ "` is not available at run time"
  | .other text => text

/-- What can be wrong with types. -/
inductive TyError where
  | mismatch (expected found : Ty)
  /-- A variable would have to contain itself. -/
  | infinite (var ty : Ty)
  | missingField (field : String) (ty : Ty)
  | arity (expected found : Nat)
  | unknownVariable (name : String)
  | unknownType (name : String)
  /-- The arguments of a call do not determine this inferred parameter. -/
  | cannotInfer (parameter : String)
  | misuse (cause : Misuse)
  deriving DecidableEq

/-- The wording of a type error. -/
def TyError.message : TyError → String
  | .mismatch expected found =>
    "Unification failure: expected `" ++ expected.text ++ "` but found `" ++ found.text ++ "`"
  | .infinite var ty => "Infinite type: `" ++ var.text ++ "` occurs in `" ++ ty.text ++ "`"
  | .missingField field ty => "Missing field `" ++ field ++ "` in `" ++ ty.text ++ "`"
  | .arity expected found =>
    "Arity mismatch: expected " ++ toString expected ++ " but found " ++ toString found
  | .unknownVariable name => "Unknown variable: `" ++ name ++ "`"
  | .unknownType name => "Unknown type: `" ++ name ++ "`"
  | .cannotInfer parameter => "failed to infer type variable `" ++ parameter ++ "`"
  | .misuse cause => cause.message

end Reified
