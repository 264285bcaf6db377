import Reified.Ty.Basic

/-!
# The text of a type

A variable is shown by its name, or by its number when it has none. Only the items of an array type
are put in parentheses, and only when they are unions or functions.
-/

namespace Reified

/-- The text of a variable. -/
def TyVar.text (v : TyVar) : String :=
  if v.name = "" then "t" ++ toString v.id else v.name

namespace Ty

/-- The item of an array type needs parentheses around it. -/
def needsParens : Ty → Bool
  | .union .. | .fn .. => true
  | _ => false

mutual

/-- The text of a type. -/
def text : Ty → String
  | .var v => v.text
  | .name n => n
  | .array t => if t.needsParens then "(" ++ t.text ++ ")[]" else t.text ++ "[]"
  | .tuple ts => "(" ++ ", ".intercalate (texts ts) ++ ")"
  | .record [] => "\x7b\x7d"
  | .record (f :: fs) => "\x7b " ++ ", ".intercalate (fieldTexts (f :: fs)) ++ " \x7d"
  | .fn ps r _ => "(" ++ ", ".intercalate (texts ps) ++ ") -> " ++ r.text
  | .union a b => a.text ++ " | " ++ b.text
  | .binding n t => n ++ ": " ++ t.text

/-- The texts of a list of types. -/
def texts : List Ty → List String
  | [] => []
  | t :: ts => t.text :: texts ts

/-- The texts of named types. -/
def fieldTexts : List (String × Ty) → List String
  | [] => []
  | (n, t) :: fs => (n ++ ": " ++ t.text) :: fieldTexts fs

end

end Ty

end Reified
