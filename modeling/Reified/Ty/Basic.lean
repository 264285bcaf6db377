import Reified.Fields

/-!
# Types

The types of the language, which are at once what the checker computes with and what programs hold
as values.

A type variable carries its name and two flags beside its number. Only the number identifies it in
a table of bindings; the rest travels with each occurrence.

## Main definitions

* `TyVar`, `Ty` — variables and types
* `Ty.vars` — the occurrences of variables, from left to right
* `Ty.distinctVars` — the variables, each at its first occurrence
* `Ty.replaceVarsM` — replace every variable, from left to right, by an effectful rule
* `TyClass` — the coarse kinds of type that instructions can test
-/

namespace Reified

/-- An occurrence of a type variable. -/
structure TyVar where
  id : Nat
  name : String
  /-- The variable stands for an inferred parameter. -/
  inferred : Bool
  /-- The variable unifies with nothing but itself. -/
  rigid : Bool
  deriving DecidableEq, Inhabited

/-- The types of the language. -/
inductive Ty where
  | var (v : TyVar)
  | name (n : String)
  | array (item : Ty)
  | tuple (items : List Ty)
  | record (fields : List (String × Ty))
  /-- A function whose first `implicit` parameters are supplied by inference. -/
  | fn (params : List Ty) (result : Ty) (implicit : Nat)
  | union (left right : Ty)
  /-- A type with a name attached to it, as the slot of an inferred parameter has. -/
  | binding (n : String) (inner : Ty)
  deriving Inhabited

namespace Ty

/-! ## Equality -/

mutual

/-- Decide whether two types are the same. -/
def decEq : (a b : Ty) → Decidable (a = b)
  | .var v, .var w => if h : v = w then .isTrue (h ▸ rfl) else .isFalse fun e => h (Ty.var.inj e)
  | .name m, .name n =>
    if h : m = n then .isTrue (h ▸ rfl) else .isFalse fun e => h (Ty.name.inj e)
  | .array s, .array t =>
    match decEq s t with
    | .isTrue h => .isTrue (h ▸ rfl)
    | .isFalse h => .isFalse fun e => h (Ty.array.inj e)
  | .tuple ss, .tuple ts =>
    match decEqList ss ts with
    | .isTrue h => .isTrue (h ▸ rfl)
    | .isFalse h => .isFalse fun e => h (Ty.tuple.inj e)
  | .record fs, .record gs =>
    match decEqFields fs gs with
    | .isTrue h => .isTrue (h ▸ rfl)
    | .isFalse h => .isFalse fun e => h (Ty.record.inj e)
  | .fn ps r m, .fn qs s n =>
    match decEqList ps qs with
    | .isFalse h => .isFalse fun e => h (Ty.fn.inj e).1
    | .isTrue hp =>
      match decEq r s with
      | .isFalse h => .isFalse fun e => h (Ty.fn.inj e).2.1
      | .isTrue hr =>
        if h : m = n then .isTrue (by rw [hp, hr, h]) else .isFalse fun e => h (Ty.fn.inj e).2.2
  | .union a b, .union c d =>
    match decEq a c with
    | .isFalse h => .isFalse fun e => h (Ty.union.inj e).1
    | .isTrue ha =>
      match decEq b d with
      | .isFalse h => .isFalse fun e => h (Ty.union.inj e).2
      | .isTrue hb => .isTrue (by rw [ha, hb])
  | .binding m s, .binding n t =>
    if hn : m = n then
      match decEq s t with
      | .isFalse h => .isFalse fun e => h (Ty.binding.inj e).2
      | .isTrue ht => .isTrue (by rw [hn, ht])
    else .isFalse fun e => hn (Ty.binding.inj e).1
  | .var _, .name _ | .var _, .array _ | .var _, .tuple _ | .var _, .record _ | .var _, .fn ..
  | .var _, .union .. | .var _, .binding .. | .name _, .var _ | .name _, .array _
  | .name _, .tuple _ | .name _, .record _ | .name _, .fn .. | .name _, .union ..
  | .name _, .binding .. | .array _, .var _ | .array _, .name _ | .array _, .tuple _
  | .array _, .record _ | .array _, .fn .. | .array _, .union .. | .array _, .binding ..
  | .tuple _, .var _ | .tuple _, .name _ | .tuple _, .array _ | .tuple _, .record _
  | .tuple _, .fn .. | .tuple _, .union .. | .tuple _, .binding .. | .record _, .var _
  | .record _, .name _ | .record _, .array _ | .record _, .tuple _ | .record _, .fn ..
  | .record _, .union .. | .record _, .binding .. | .fn .., .var _ | .fn .., .name _
  | .fn .., .array _ | .fn .., .tuple _ | .fn .., .record _ | .fn .., .union ..
  | .fn .., .binding .. | .union .., .var _ | .union .., .name _ | .union .., .array _
  | .union .., .tuple _ | .union .., .record _ | .union .., .fn .. | .union .., .binding ..
  | .binding .., .var _ | .binding .., .name _ | .binding .., .array _ | .binding .., .tuple _
  | .binding .., .record _ | .binding .., .fn .. | .binding .., .union .. => .isFalse nofun

/-- Decide whether two lists of types are the same. -/
def decEqList : (as bs : List Ty) → Decidable (as = bs)
  | [], [] => .isTrue rfl
  | [], _ :: _ | _ :: _, [] => .isFalse nofun
  | a :: as, b :: bs =>
    match decEq a b with
    | .isFalse h => .isFalse fun e => h (List.cons.inj e).1
    | .isTrue ha =>
      match decEqList as bs with
      | .isFalse h => .isFalse fun e => h (List.cons.inj e).2
      | .isTrue hs => .isTrue (by rw [ha, hs])

/-- Decide whether two lists of named types are the same. -/
def decEqFields : (as bs : List (String × Ty)) → Decidable (as = bs)
  | [], [] => .isTrue rfl
  | [], _ :: _ | _ :: _, [] => .isFalse nofun
  | (m, a) :: as, (n, b) :: bs =>
    if hn : m = n then
      match decEq a b with
      | .isFalse h => .isFalse fun e => h (Prod.mk.inj (List.cons.inj e).1).2
      | .isTrue ha =>
        match decEqFields as bs with
        | .isFalse h => .isFalse fun e => h (List.cons.inj e).2
        | .isTrue hs => .isTrue (by rw [hn, ha, hs])
    else .isFalse fun e => hn (Prod.mk.inj (List.cons.inj e).1).1

end

instance : DecidableEq Ty := decEq

/-! ## The named types -/

/-- The type of the unit value. -/
def void : Ty := .name "Void"
/-- The type of truth values. -/
def bool : Ty := .name "Bool"
/-- The type of numbers. -/
def number : Ty := .name "Number"
/-- The type of strings. -/
def string : Ty := .name "String"
/-- The type of types. -/
def type : Ty := .name "Type"

/-- The names of types that every program knows. -/
def wellKnown : List String := ["Void", "Bool", "Number", "String", "Type"]

/-- The name is one of the types that every program knows. -/
def isWellKnown (n : String) : Bool := wellKnown.contains n

/-! ## Variables -/

mutual

/-- The occurrences of variables in a type, from left to right. -/
def vars : Ty → List TyVar
  | .var v => [v]
  | .name _ => []
  | .array t => t.vars
  | .tuple ts => varsList ts
  | .record fs => varsFields fs
  | .fn ps r _ => varsList ps ++ r.vars
  | .union a b => a.vars ++ b.vars
  | .binding _ t => t.vars

/-- The occurrences of variables in a list of types, from left to right. -/
def varsList : List Ty → List TyVar
  | [] => []
  | t :: ts => t.vars ++ varsList ts

/-- The occurrences of variables in named types, from left to right. -/
def varsFields : List (String × Ty) → List TyVar
  | [] => []
  | (_, t) :: fs => t.vars ++ varsFields fs

end

/-- Keep of each variable the first occurrence; `seen` are the numbers met before. -/
def firstOccurrences (seen : List Nat) : List TyVar → List TyVar
  | [] => []
  | v :: vs =>
    if seen.contains v.id then firstOccurrences seen vs
    else v :: firstOccurrences (v.id :: seen) vs

/-- The variables of a type, each once, at its first occurrence. -/
def distinctVars (t : Ty) : List TyVar :=
  firstOccurrences [] t.vars

section replace

variable {m : Type → Type} [Monad m]

mutual

/-- Replace every variable of a type by what the rule gives for it, from left to right. -/
@[specialize] def replaceVarsM (rule : TyVar → m Ty) : Ty → m Ty
  | .var v => rule v
  | .name n => pure (.name n)
  | .array t => return .array (← replaceVarsM rule t)
  | .tuple ts => return .tuple (← replaceListM rule ts)
  | .record fs => return .record (← replaceFieldsM rule fs)
  | .fn ps r k => return .fn (← replaceListM rule ps) (← replaceVarsM rule r) k
  | .union a b => return .union (← replaceVarsM rule a) (← replaceVarsM rule b)
  | .binding n t => return .binding n (← replaceVarsM rule t)

/-- `replaceVarsM` on each type of a list. -/
@[specialize] def replaceListM (rule : TyVar → m Ty) : List Ty → m (List Ty)
  | [] => pure []
  | t :: ts => return (← replaceVarsM rule t) :: (← replaceListM rule ts)

/-- `replaceVarsM` on each of a list of named types. -/
@[specialize] def replaceFieldsM (rule : TyVar → m Ty) :
    List (String × Ty) → m (List (String × Ty))
  | [] => pure []
  | (n, t) :: fs => return (n, ← replaceVarsM rule t) :: (← replaceFieldsM rule fs)

end

end replace

end Ty

/-! ## Classes -/

/-- The coarse kinds of type and value that a type test can name. -/
inductive TyClass where
  | anyValue | anyType | name | var | array | tuple | record | function | union | binding | hole
  deriving DecidableEq, Inhabited

namespace TyClass

/-- All classes, in the order of their codes. -/
def all : List TyClass :=
  [.anyValue, .anyType, .name, .var, .array, .tuple, .record, .function, .union, .binding, .hole]

/-- The code of a class. -/
def code : TyClass → UInt8
  | .anyValue => 0 | .anyType => 1 | .name => 2 | .var => 3 | .array => 4 | .tuple => 5
  | .record => 6 | .function => 7 | .union => 8 | .binding => 9 | .hole => 10

/-- The class with a given code. -/
def ofCode? (b : UInt8) : Option TyClass :=
  all[b.toNat]?

/-- The word for a class in listings. -/
def text : TyClass → String
  | .anyValue => "any-value" | .anyType => "any-type" | .name => "name" | .var => "var"
  | .array => "array" | .tuple => "tuple" | .record => "record" | .function => "function"
  | .union => "union" | .binding => "binding" | .hole => "hole"

theorem ofCode?_code (c : TyClass) : ofCode? c.code = some c := by
  cases c <;> rfl

end TyClass

/-- The class of a type by its outermost form. -/
def Ty.tyClass : Ty → TyClass
  | .var _ => .var
  | .name _ => .name
  | .array _ => .array
  | .tuple _ => .tuple
  | .record _ => .record
  | .fn .. => .function
  | .union .. => .union
  | .binding .. => .binding

end Reified
