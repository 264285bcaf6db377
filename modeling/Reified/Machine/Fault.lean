import Reified.Instr.Text
import Reified.Ty.Error

/-!
# What can go wrong in a run

A run fails with a type error, when types do not fit or a type is expected and something else is
found, or with a run-time error. Where a cause names a value, it has the text of the value at that
moment.

## Main definitions

* `Fault` — the causes
* `Fault.isType`, `Fault.message` — their sort and wording
-/

namespace Reified

/-- Why a run fails. -/
inductive Fault where
  | registerOutOfRange (r : Register) (block : String)
  | pointerOutOfRange (position : Nat) (block : String)
  | unknownConstant (i : UInt32)
  | unknownIdentifier (i : UInt32)
  | unknownFunction (i : UInt32)
  | unknownTarget (t : Int32)
  | unknownVariable (name : String)
  | scopeUnderflow
  | operatorArity (symbol : String) (found : Nat)
  /-- An operator on numbers was given something else. -/
  | operands (symbol left right : String)
  | arity (function : String) (expected found : Nat)
  | notCallable (value : String)
  | notArrayRegister (r : Register)
  | notTupleRegister (r : Register)
  | notObjectRegister (r : Register)
  | notArray (value : String)
  | notTuple (value : String)
  | notIndex (value : String)
  | indexOutOfBounds (index value : String)
  | tupleIndexOutOfBounds (index : Nat)
  | notIndexable (value index : String)
  | missingField (name value : String)
  | notCondition (value : String)
  | recordKey (value : String)
  | noImplicit (value : String)
  | missingArgument (position : Nat) (function : String)
  /-- A message of the program. -/
  | raised (message : String)
  /-- A message of the program about types. -/
  | raisedType (message : String)
  | type (e : TyError)
  | expectedType (value : String)
  | signatureValue (function value : String)
  | signatureNotFunction (function : String)
  deriving DecidableEq

namespace Fault

/-- The failure is a type error. -/
def isType : Fault → Bool
  | .raisedType _ | .type _ | .expectedType _ | .signatureValue .. | .signatureNotFunction _ => true
  | _ => false

/-- The wording of a failure. -/
def message : Fault → String
  | .registerOutOfRange r block => "Register " ++ r.text ++ " is out of range in `" ++ block ++ "`"
  | .pointerOutOfRange position block =>
    "Instruction pointer " ++ toString position ++ " is out of range in `" ++ block ++ "`"
  | .unknownConstant i => "Unknown constant index " ++ toString i.toNat
  | .unknownIdentifier i => "Unknown identifier index " ++ toString i.toNat
  | .unknownFunction i => "Unknown function index " ++ toString i.toNat
  | .unknownTarget t => "Unpatched jump target " ++ toString t.toInt
  | .unknownVariable name => "Unknown variable `" ++ name ++ "`"
  | .scopeUnderflow => "Scope stack underflow"
  | .operatorArity symbol found =>
    "Operator `" ++ symbol ++ "` expects 2 arguments but found " ++ toString found
  | .operands symbol left right =>
    "Operator `" ++ symbol ++ "` expects numbers, found `" ++ left ++ "` and `" ++ right ++ "`"
  | .arity function expected found =>
    "Arity mismatch calling `" ++ function ++ "`: expected " ++ toString expected ++
      " but found " ++ toString found
  | .notCallable value => "Value `" ++ value ++ "` is not callable"
  | .notArrayRegister r => "Register " ++ r.text ++ " is not an array"
  | .notTupleRegister r => "Register " ++ r.text ++ " is not a tuple"
  | .notObjectRegister r => "Register " ++ r.text ++ " is not an object"
  | .notArray value => "Value `" ++ value ++ "` is not an array"
  | .notTuple value => "Value `" ++ value ++ "` is not a tuple"
  | .notIndex value => "Index must be a non-negative integer, found `" ++ value ++ "`"
  | .indexOutOfBounds index value =>
    "Index " ++ index ++ " is out of bounds for `" ++ value ++ "`"
  | .tupleIndexOutOfBounds index => "Tuple index " ++ toString index ++ " is out of bounds"
  | .notIndexable value index => "Value `" ++ value ++ "` cannot be indexed by `" ++ index ++ "`"
  | .missingField name value => "Missing field `" ++ name ++ "` in `" ++ value ++ "`"
  | .notCondition value => "Condition must be a Bool, found `" ++ value ++ "`"
  | .recordKey value => "Record key must be a String, found `" ++ value ++ "`"
  | .noImplicit value => "Value `" ++ value ++ "` has no implicit parameters"
  | .missingArgument position function =>
    "Missing argument " ++ toString position ++ " for `" ++ function ++ "`"
  | .raised message => message
  | .raisedType message => message
  | .type e => e.message
  | .expectedType value => "Expected a type, found `" ++ value ++ "`"
  | .signatureValue function value =>
    "Signature of `" ++ function ++ "` evaluated to `" ++ value ++ "`"
  | .signatureNotFunction function =>
    "Signature of `" ++ function ++ "` is not a function type"

end Fault

end Reified
