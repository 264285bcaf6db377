import Reified.Number.Basic
import Reified.Span
import Reified.Ty.Basic

/-!
# Programs

A program is a list of declarations. Every expression carries a place in the source and, once it has
been checked, its type; a function declaration then carries its signature, and a call the types
inferred for the inferred parameters of its callee.

## Main definitions

* `TypeExpr` — types as they are written
* `Expr`, `Pattern`, `Stmt`, `Decl` — the tree of a program
* `Expr.literalIndex?` — the position in a tuple that an index expression names
-/

namespace Reified

/-! ## Types as written -/

/-- A type as it is written in a program. -/
inductive TypeExpr where
  | name (n : String) (span : Span)
  | array (item : TypeExpr)
  | tuple (items : List TypeExpr)
  | record (fields : List (String × TypeExpr))
  | fn (params : List TypeExpr) (result : TypeExpr)
  | union (left right : TypeExpr)
  deriving Inhabited

namespace TypeExpr

mutual

/-- The names that a written type uses, from left to right. -/
def names : TypeExpr → List String
  | .name n _ => [n]
  | .array t => t.names
  | .tuple ts => namesList ts
  | .record fs => namesFields fs
  | .fn ps r => namesList ps ++ r.names
  | .union a b => a.names ++ b.names

/-- The names that a list of written types uses. -/
def namesList : List TypeExpr → List String
  | [] => []
  | t :: ts => t.names ++ namesList ts

/-- The names that the types of written fields use. -/
def namesFields : List (String × TypeExpr) → List String
  | [] => []
  | (_, t) :: fs => t.names ++ namesFields fs

end

end TypeExpr

/-! ## Expressions -/

/-- A constant written in a program. -/
inductive Literal where
  | number (x : Number)
  | string (s : String)
  | bool (b : Bool)
  deriving DecidableEq, Inhabited

/-- The type of a literal. -/
def Literal.ty : Literal → Ty
  | .number _ => .number
  | .string _ => .string
  | .bool _ => .bool

/-- The operators written between two expressions. -/
inductive BinOp where
  | add | sub | mul | div | mod | less | lessEqual | greater | greaterEqual
  | equal | notEqual | and | or
  deriving DecidableEq, Inhabited

/-- The symbol of an operator. -/
def BinOp.symbol : BinOp → String
  | .add => "+" | .sub => "-" | .mul => "*" | .div => "/" | .mod => "%"
  | .less => "<" | .lessEqual => "<=" | .greater => ">" | .greaterEqual => ">="
  | .equal => "==" | .notEqual => "!=" | .and => "&&" | .or => "||"

/-- All operators. -/
def BinOp.all : List BinOp :=
  [.add, .sub, .mul, .div, .mod, .less, .lessEqual, .greater, .greaterEqual, .equal, .notEqual,
    .and, .or]

/-- What an expression carries besides its form: its place, and its type once it is checked. -/
structure Note where
  span : Span
  ty : Option Ty
  deriving Inhabited

/-- Expressions. -/
inductive Expr where
  | ident (note : Note) (name : String)
  | literal (note : Note) (value : Literal)
  | binary (note : Note) (op : BinOp) (left right : Expr)
  | paren (note : Note) (inner : Expr)
  | object (note : Note) (fields : List (String × Expr))
  | array (note : Note) (items : List Expr)
  | tuple (note : Note) (items : List Expr)
  /-- A call, with the types inferred for the inferred parameters of its callee; `none` when the
  callee was not known to be a function. -/
  | call (note : Note) (callee : Expr) (args : List Expr) (implicit : Option (List Ty))
  | subscript (note : Note) (target index : Expr)
  | member (note : Note) (object : Expr) (field : String)
  | type (note : Note) (t : TypeExpr)
  deriving Inhabited

namespace Expr

/-- What an expression carries besides its form. -/
def note : Expr → Note
  | ident n .. | literal n .. | binary n .. | paren n .. | object n .. | array n .. | tuple n ..
  | call n .. | subscript n .. | member n .. | type n .. => n

/-- The place of an expression. -/
def span (e : Expr) : Span := e.note.span

/-- The type of an expression, once it is checked. -/
def ty? (e : Expr) : Option Ty := e.note.ty

/-- Replace what an expression carries besides its form. -/
def withNote (n : Note) : Expr → Expr
  | ident _ x => ident n x
  | literal _ v => literal n v
  | binary _ op l r => binary n op l r
  | paren _ e => paren n e
  | object _ fs => object n fs
  | array _ es => array n es
  | tuple _ es => tuple n es
  | call _ f es ts => call n f es ts
  | subscript _ t i => subscript n t i
  | member _ o x => member n o x
  | type _ t => type n t

/-- Record the type of an expression. -/
def annotate (e : Expr) (t : Ty) : Expr := e.withNote ⟨e.span, some t⟩

/-- The position that an index expression names: a literal whole number of at most 32 bits. -/
def literalIndex? : Expr → Option Nat
  | literal _ (.number x) => x.whole?.filter (· < UInt32.size)
  | _ => none

end Expr

/-! ## Patterns, statements and declarations -/

/-- What a case of a match compares with. -/
inductive Pattern where
  | ident (name : String) (span : Span)
  | any (span : Span)
  | literal (value : Literal) (span : Span)
  | object (entries : List (String × Pattern)) (span : Span)
  deriving Inhabited

/-- The place of a pattern. -/
def Pattern.span : Pattern → Span
  | .ident _ s | .any s | .literal _ s | .object _ s => s

/-- A `let` declaration. -/
structure LetDecl where
  name : String
  annotation : Option TypeExpr
  init : Expr
  span : Span
  deriving Inhabited

/-- A parameter of a function. -/
structure Param where
  name : String
  annotation : Option TypeExpr
  /-- The parameter is supplied by inference at the call instead of by the caller. -/
  inferred : Bool
  span : Span
  deriving Inhabited

/-- All of a function declaration but its body. -/
structure FnHead where
  name : String
  nameSpan : Span
  typeParams : List String
  params : List Param
  result : Option TypeExpr
  bodySpan : Span
  span : Span
  /-- The generalized signature, once the function is checked. -/
  signature : Option Ty
  deriving Inhabited

/-- The number of inferred parameters. -/
def FnHead.implicitCount (f : FnHead) : Nat :=
  f.params.countP (·.inferred)

/-- What a `for` loop does before its first round. -/
inductive ForInit where
  | expr (e : Expr)
  | letDecl (d : LetDecl)
  deriving Inhabited

mutual

/-- Statements. -/
inductive Stmt where
  | empty (span : Span)
  | block (body : List Decl) (span : Span)
  | ret (value : Option Expr) (span : Span)
  | cond (condition : Expr) (consequent : Stmt) (alternate : Option Stmt) (span : Span)
  | whileLoop (condition : Expr) (body : Stmt) (span : Span)
  | forLoop (init : Option ForInit) (condition increment : Option Expr) (body : Stmt) (span : Span)
  | breakLoop (span : Span)
  | continueLoop (span : Span)
  | cases (scrutinee : Expr) (cases : List (Pattern × Stmt)) (default : Option Stmt) (span : Span)
  | expr (e : Expr)

/-- Declarations. -/
inductive Decl where
  | letDecl (d : LetDecl)
  | fn (head : FnHead) (body : List Decl)
  | stmt (s : Stmt)

end

instance : Inhabited Stmt := ⟨.empty default⟩
instance : Inhabited Decl := ⟨.stmt default⟩

/-- The place of a statement. -/
def Stmt.span : Stmt → Span
  | .empty s | .block _ s | .ret _ s | .cond _ _ _ s | .whileLoop _ _ s | .forLoop _ _ _ _ s
  | .breakLoop s | .continueLoop s | .cases _ _ _ s => s
  | .expr e => e.span

/-- The place of a declaration. -/
def Decl.span : Decl → Span
  | .letDecl d => d.span
  | .fn head _ => head.span
  | .stmt s => s.span

/-- A program: its top-level declarations, each of which is accepted or rejected on its own. -/
abbrev Program := List Decl

end Reified
