import Reified.Ty.Resolve

/-!
# Unification

Two types are made equal by binding flexible variables. Names attached to types and the count of
implicit parameters are ignored; a rigid variable equals only itself; a union equals a type that
equals one of its members, the left one being tried first and whatever it bound being undone before
the right one is tried.

A variable is bound only after the occurs check, which at the same time lowers the level of every
variable in the type to the level of the variable that is bound.

An error leaves the bindings made so far in place; only the members of a union are tried under a
snapshot.

## Main definitions

* `Table.occurs` — the occurs check
* `Table.bind` — bind a flexible variable
* `Table.unify` — unification
-/

namespace Reified

/-- The result of a unification: success or the cause of failure, and in both cases the table. -/
abbrev Unified := EStateM.Result TyError Table Unit

namespace Table

/-! ## Binding a variable -/

/-- Visit variables from left to right until `id` is met; lower the level of every other unbound one
to `level`, and look into the binding of a bound one by `within`. -/
def lowerUntil (id level : Nat) (within : Ty → Table → Bool × Table) :
    List TyVar → Table → Bool × Table
  | [], T => (false, T)
  | v :: vs, T =>
    match T.resolve (.var v) with
    | (.var w, T) =>
      if w.id = id then (true, T)
      else lowerUntil id level within vs (if level < T.level w.id then T.setLevel w.id level else T)
    | (t, T) =>
      match within t T with
      | (true, T) => (true, T)
      | (false, T) => lowerUntil id level within vs T

/-- The occurs check through at most `n` bindings on each path. -/
def occursWithin (id level : Nat) : Nat → Ty → Table → Bool × Table
  | 0, _, T => (false, T)
  | n + 1, t, T => lowerUntil id level (occursWithin id level n) t.vars T

/-- Whether the variable `id` occurs in the resolved type. Variables met on the way are lowered to
`level`, so that generalization sees that they can now be reached from there. -/
def occurs (T : Table) (id level : Nat) (t : Ty) : Bool × Table :=
  occursWithin id level (T.size + 1) t T

/-- Bind a flexible variable to a type that is not the variable itself. -/
def bind (T : Table) (v : TyVar) (t : Ty) : Unified :=
  match T.occurs v.id (T.level v.id) t with
  | (true, T) => let (t, T) := T.resolveDeep t; .error (.infinite (.var v) t) T
  | (false, T) => .ok () (T.setBinding v.id t)

/-- The failure of two types to unify, reported with both of them resolved. -/
def mismatch (T : Table) (expected found : Ty) : Unified :=
  let (expected, T) := T.resolveDeep expected
  let (found, T) := T.resolveDeep found
  .error (.mismatch expected found) T

/-- The failure of a record to have a field, reported with the record resolved. -/
def missingField (T : Table) (field : String) (record : Ty) : Unified :=
  let (record, T) := T.resolveDeep record
  .error (.missingField field record) T

/-- The type is a variable that has a binding. -/
def binds (T : Table) : Ty → Bool
  | .var v => T.isBound v.id
  | _ => false

/-! ## Unification -/

theorem sizeOf_get?_lt {name : String} {t : Ty} :
    ∀ {fields : List (String × Ty)}, Fields.get? name fields = some t → sizeOf t < sizeOf fields
  | (other, u) :: rest, h => by
    simp only [Fields.get?] at h
    split at h
    · cases h; simp; omega
    · have := sizeOf_get?_lt h; simp; omega

mutual

/-- Unify through at most `n` bindings on each path. -/
def unifyWithin (n : Nat) (expected found : Ty) (T : Table) : Unified :=
  if T.binds expected || T.binds found then
    match n with
    | 0 => T.mismatch expected found
    | n + 1 =>
      let (expected, T) := T.resolve expected
      let (found, T) := T.resolve found
      unifyForms n expected found T
  else unifyForms n expected found T
termination_by (n, sizeOf expected + sizeOf found, 2)

/-- Unify two types that are their own representatives. -/
def unifyForms (n : Nat) (expected found : Ty) (T : Table) : Unified :=
  match expected, found with
  | .binding _ t, found => unifyWithin n t found T
  | expected, .binding _ t => unifyWithin n expected t T
  | .var v, .var w =>
    if v.id = w.id then .ok () T
    else if !v.rigid then T.bind v (.var w)
    else if !w.rigid then T.bind w (.var v)
    else T.mismatch (.var v) (.var w)
  | .var v, .union l r =>
    if !v.rigid then T.bind v (.union l r) else unifyFoundUnion n (.var v) l r T
  | .var v, found => if !v.rigid then T.bind v found else T.mismatch (.var v) found
  | .union l r, .var w =>
    if !w.rigid then T.bind w (.union l r) else unifyExpectedUnion n l r (.var w) T
  | expected, .var w => if !w.rigid then T.bind w expected else T.mismatch expected (.var w)
  | .union l r, found => unifyExpectedUnion n l r found T
  | expected, .union l r => unifyFoundUnion n expected l r T
  | .name m, .name k => if m = k then .ok () T else T.mismatch (.name m) (.name k)
  | .array t, .array u => unifyWithin n t u T
  | .tuple ts, .tuple us =>
    if ts.length = us.length then unifyLists n ts us T else .error (.arity ts.length us.length) T
  | .record fs, .record gs =>
    match unifyFields n fs gs T with
    | .error e T => .error e T
    | .ok _ T =>
      match gs.find? fun g => !Fields.has g.1 fs with
      | some g => T.missingField g.1 (.record fs)
      | none => .ok () T
  | .fn ps r _, .fn qs s _ =>
    if ps.length = qs.length then
      match unifyLists n ps qs T with
      | .error e T => .error e T
      | .ok _ T => unifyWithin n r s T
    else .error (.arity ps.length qs.length) T
  | expected, found => T.mismatch expected found
termination_by (n, sizeOf expected + sizeOf found, 1)

/-- Unify an expected union with a type: with its left member, or else with its right one. -/
def unifyExpectedUnion (n : Nat) (l r found : Ty) (T : Table) : Unified :=
  let (s, T) := T.snapshot
  match unifyWithin n l found T with
  | .ok _ T => .ok () T.commit
  | .error _ T =>
    match unifyWithin n r found (T.rollback s) with
    | .ok _ T => .ok () T
    | .error _ T => T.mismatch (.union l r) found
termination_by (n, 1 + sizeOf l + sizeOf r + sizeOf found, 0)

/-- Unify a type with a union that was found: with its left member, or else with its right one. -/
def unifyFoundUnion (n : Nat) (expected l r : Ty) (T : Table) : Unified :=
  let (s, T) := T.snapshot
  match unifyWithin n expected l T with
  | .ok _ T => .ok () T.commit
  | .error _ T =>
    match unifyWithin n expected r (T.rollback s) with
    | .ok _ T => .ok () T
    | .error _ T => T.mismatch expected (.union l r)
termination_by (n, sizeOf expected + (1 + sizeOf l + sizeOf r), 0)

/-- Unify the types of two lists pairwise, up to the first failure. -/
def unifyLists (n : Nat) (ts us : List Ty) (T : Table) : Unified :=
  match ts, us with
  | t :: ts, u :: us =>
    match unifyWithin n t u T with
    | .ok _ T => unifyLists n ts us T
    | .error e T => .error e T
  | _, _ => .ok () T
termination_by (n, sizeOf ts + sizeOf us, 0)

/-- Unify each of the first fields with the one of its name among the second, up to the first
failure. -/
def unifyFields (n : Nat) (fs gs : List (String × Ty)) (T : Table) : Unified :=
  match fs with
  | [] => .ok () T
  | (name, t) :: fs =>
    match h : Fields.get? name gs with
    | none => T.missingField name (.record gs)
    | some u =>
      have := sizeOf_get?_lt h
      match unifyWithin n t u T with
      | .ok _ T => unifyFields n fs gs T
      | .error e T => .error e T
termination_by (n, sizeOf fs + sizeOf gs, 0)

end

/-- Unify two types. On each side no path through the bindings meets a variable twice. -/
def unify (T : Table) (expected found : Ty) : Unified :=
  unifyWithin (2 * T.size + 1) expected found T

end Table

end Reified
