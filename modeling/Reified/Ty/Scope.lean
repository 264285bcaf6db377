import Reified.Ty.Basic

/-!
# Lexical scopes

Names of values and names of types live in separate spaces. An inner scope hides what the outer
ones say about a name. Without any open scope an entry is dropped.
-/

namespace Reified

/-- The names that one lexical scope introduces. -/
structure ScopeFrame where
  values : Fields Ty
  types : Fields Ty

/-- The open lexical scopes, the innermost first. -/
structure Scope where
  frames : List ScopeFrame

namespace Scope

/-- No open scope. -/
def empty : Scope := ⟨[]⟩

instance : Inhabited Scope := ⟨empty⟩

/-- The number of open scopes. -/
def depth (s : Scope) : Nat := s.frames.length

/-- Open a scope. -/
def push (s : Scope) : Scope := ⟨⟨[], []⟩ :: s.frames⟩

/-- Close the innermost scope. -/
def pop (s : Scope) : Scope := ⟨s.frames.tail⟩

/-- Close inner scopes until at most `depth` are open. -/
def truncate (s : Scope) (depth : Nat) : Scope :=
  ⟨s.frames.drop (s.frames.length - depth)⟩

/-- Give a name of a value a type in the innermost scope. -/
def insert (s : Scope) (name : String) (t : Ty) : Scope :=
  match s.frames with
  | [] => s
  | f :: fs => ⟨{ f with values := Fields.insert name t f.values } :: fs⟩

/-- Give a name of a type its meaning in the innermost scope. -/
def insertType (s : Scope) (name : String) (t : Ty) : Scope :=
  match s.frames with
  | [] => s
  | f :: fs => ⟨{ f with types := Fields.insert name t f.types } :: fs⟩

/-- The type of the value that a name stands for. -/
def lookup (s : Scope) (name : String) : Option Ty :=
  s.frames.findSome? fun f => Fields.get? name f.values

/-- The type that a name of a type stands for. -/
def lookupType (s : Scope) (name : String) : Option Ty :=
  s.frames.findSome? fun f => Fields.get? name f.types

end Scope

end Reified
