import Reified.Ty.Table

/-!
# Resolved, instantiated and substituted types

Three ways of rebuilding a type under the bindings of a table. All of them replace every bound
variable by what it stands for, at every depth; they differ in what they do with the variables that
remain.

Each step from a variable into its binding counts against a bound. Without a cycle among the
bindings no path meets a variable twice, so a bound above the number of variables is never reached.

## Main definitions

* `Table.resolveDeep` — the remaining variables stay
* `Table.instantiate` — the generalized ones among them are replaced by fresh copies
* `Table.substitute` — those named in a list are replaced by given types
-/

namespace Reified

namespace Table

/-- The representative of a variable, as an action on the table. -/
def resolveVar (v : TyVar) : StateM Table Ty :=
  fun T => T.resolve (.var v)

/-- Replace bound variables by their types through at most `n` bindings on each path. -/
def deepen : Nat → Ty → StateM Table Ty
  | 0, t => pure t
  | n + 1, t => t.replaceVarsM fun v => do
    match ← resolveVar v with
    | .var w => pure (.var w)
    | bound => deepen n bound

/-- The type with every bound variable replaced by what it stands for. -/
def resolveDeep (T : Table) (t : Ty) : Ty × Table :=
  deepen (T.size + 1) t T

/-! ## Instances -/

/-- The state of an instantiation: the table, and the copies made so far, the latest first, each
beside the number of the variable it replaces. -/
structure Instance where
  table : Table
  copies : List (Nat × TyVar)

/-- The copy that replaces the generalized variable `w`, made at the given level when `w` is met for
the first time. Copies are never rigid. -/
def Instance.copy (level : Nat) (w : TyVar) : StateM Instance Ty :=
  fun ⟨T, copies⟩ =>
    match copies.lookup w.id with
    | some v => (.var v, ⟨T, copies⟩)
    | none =>
      let (v, T) := T.newVar w.name w.inferred false level
      (.var v, ⟨T, (w.id, v) :: copies⟩)

/-- The representative of a variable, as an action on an instantiation. -/
def Instance.resolveVar (v : TyVar) : StateM Instance Ty :=
  fun ⟨T, copies⟩ => let (t, T) := T.resolve (.var v); (t, ⟨T, copies⟩)

/-- The variable has been generalized. -/
def Instance.isGeneralized (w : TyVar) : StateM Instance Bool :=
  fun s => (s.table.isGeneralized w.id, s)

/-- Replace bound variables through at most `n` bindings on each path, and generalized ones by their
copies. -/
def instantiateWithin (level : Nat) : Nat → Ty → StateM Instance Ty
  | 0, t => pure t
  | n + 1, t => t.replaceVarsM fun v => do
    match ← Instance.resolveVar v with
    | .var w => if ← Instance.isGeneralized w then Instance.copy level w else pure (.var w)
    | bound => instantiateWithin level n bound

/-- The resolved type with each generalized variable replaced by a fresh variable of the given
level, together with the fresh variables in the order of their first occurrence. -/
def instantiate (T : Table) (t : Ty) (level : Nat) : Ty × List TyVar × Table :=
  let (t, ⟨T, copies⟩) := instantiateWithin level (T.size + 1) t ⟨T, []⟩
  (t, copies.reverse.map Prod.snd, T)

/-! ## Substitution -/

/-- Replace bound variables through at most `n` bindings on each path, and of the remaining ones
those that the list names. -/
def substituteWithin (image : List (Nat × Ty)) : Nat → Ty → StateM Table Ty
  | 0, t => pure t
  | n + 1, t => t.replaceVarsM fun v => do
    match ← resolveVar v with
    | .var w => pure ((image.lookup w.id).getD (.var w))
    | bound => substituteWithin image n bound

/-- The resolved type with each variable that the list names replaced by the type beside it. -/
def substitute (T : Table) (t : Ty) (image : List (Nat × Ty)) : Ty × Table :=
  substituteWithin image (T.size + 1) t T

end Table

end Reified
