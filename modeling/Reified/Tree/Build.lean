import Reified.Tree.Basic

/-!
# Building expressions

Unchecked expressions whose place follows from their parts: an operation and a subscript reach from
one side to the other, parentheses, calls and member accesses have the place of their first part,
and everything else has none of its own.
-/

namespace Reified

/-- A note with a place and no type. -/
def Note.at (span : Span) : Note := ⟨span, none⟩

namespace Expr

/-- An operation between two expressions. -/
def ofBinary (left : Expr) (op : BinOp) (right : Expr) : Expr :=
  .binary (.at (Span.union left.span right.span)) op left right

/-- An expression in parentheses. -/
def ofParen (inner : Expr) : Expr :=
  .paren (.at inner.span) inner

/-- An object; of two fields of one name the later one counts. -/
def ofFields (fields : List (String × Expr)) : Expr :=
  .object (.at .unknown) (Fields.ofList fields)

/-- A call whose callee has not been checked. -/
def ofCall (callee : Expr) (args : List Expr) : Expr :=
  .call (.at callee.span) callee args none

/-- An element of an array or tuple. -/
def ofSubscript (target index : Expr) : Expr :=
  .subscript (.at (Span.union target.span index.span)) target index

/-- A field of an object. -/
def ofMember (object : Expr) (field : String) : Expr :=
  .member (.at object.span) object field

end Expr

end Reified
