import Reified.Ty.Error

/-!
# The table of type variables

A table knows for each variable its level, its binding if it has one, and whether it has been
generalized. While a snapshot is open, every change of a binding or a level is noted on a trail, so
that rolling back can undo exactly the changes since the snapshot.

Generalizing is not undone by a rollback, and neither is the creation of variables. A variable the
table does not know has level zero, is unbound and cannot be changed.

## Main definitions

* `Table`, `Table.newVar`, `Table.setBinding`, `Table.setLevel`, `Table.generalize`
* `Table.snapshot`, `Table.rollback`, `Table.commit`
* `Table.resolve` — the representative of a type
-/

namespace Reified

/-- What a table knows of one variable. -/
structure VarEntry where
  level : Nat
  binding : Option Ty
  generalized : Bool
  deriving Inhabited

/-- How to undo one change. -/
inductive Undo where
  | binding (id : Nat) (previous : Option Ty)
  | level (id : Nat) (previous : Nat)
  deriving Inhabited

/-- The bindings of type variables. -/
structure Table where
  /-- The entry of each variable, at its number. -/
  entries : Array VarEntry
  /-- The changes since the oldest open snapshot, oldest first. -/
  trail : Array Undo
  /-- How many snapshots are open. -/
  snapshots : Nat

/-- A position in the trail of a table. -/
structure Snapshot where
  length : Nat

namespace Table

/-- The table without variables. -/
def empty : Table := ⟨#[], #[], 0⟩

instance : Inhabited Table := ⟨empty⟩

/-! ## Entries -/

/-- The number of variables. -/
def size (T : Table) : Nat := T.entries.size

/-- A further variable, unbound, at the given level. -/
def newVar (T : Table) (name : String) (inferred rigid : Bool) (level : Nat) : TyVar × Table :=
  (⟨T.size, name, inferred, rigid⟩, { T with entries := T.entries.push ⟨level, none, false⟩ })

/-- The level of a variable. -/
def level (T : Table) (id : Nat) : Nat :=
  match T.entries[id]? with
  | some e => e.level
  | none => 0

/-- The type that a variable is bound to. -/
def binding? (T : Table) (id : Nat) : Option Ty :=
  match T.entries[id]? with
  | some e => e.binding
  | none => none

/-- The variable is bound. -/
def isBound (T : Table) (id : Nat) : Bool :=
  (T.binding? id).isSome

/-- The variable has been generalized. -/
def isGeneralized (T : Table) (id : Nat) : Bool :=
  match T.entries[id]? with
  | some e => e.generalized
  | none => false

/-- Mark a variable as generalized. -/
def generalize (T : Table) (id : Nat) : Table :=
  { T with entries := T.entries.modify id fun e => { e with generalized := true } }

/-- Note a change on the trail if some snapshot may want it undone. -/
def note (T : Table) (u : Undo) : Table :=
  if 0 < T.snapshots then { T with trail := T.trail.push u } else T

/-- Bind a variable. -/
def setBinding (T : Table) (id : Nat) (t : Ty) : Table :=
  if id < T.size then
    let T := T.note (.binding id (T.binding? id))
    { T with entries := T.entries.modify id fun e => { e with binding := some t } }
  else T

/-- Move a variable to another level. -/
def setLevel (T : Table) (id level : Nat) : Table :=
  if id < T.size then
    let T := T.note (.level id (T.level id))
    { T with entries := T.entries.modify id fun e => { e with level := level } }
  else T

/-! ## Snapshots -/

/-- Open a snapshot. -/
def snapshot (T : Table) : Snapshot × Table :=
  (⟨T.trail.size⟩, { T with snapshots := T.snapshots + 1 })

/-- Put one entry back as it was. -/
def undo (T : Table) : Undo → Table
  | .binding id previous =>
    { T with entries := T.entries.modify id fun e => { e with binding := previous } }
  | .level id previous =>
    { T with entries := T.entries.modify id fun e => { e with level := previous } }

/-- Undo the last `n` changes of the trail, the latest first. -/
def undoLast (T : Table) : Nat → Table
  | 0 => T
  | n + 1 =>
    match T.trail.back? with
    | some u => undoLast ({ T with trail := T.trail.pop }.undo u) n
    | none => T

/-- Close one snapshot. When none is left open, nothing can be undone any more. -/
def close (T : Table) : Table :=
  if T.snapshots ≤ 1 then { T with trail := #[], snapshots := 0 }
  else { T with snapshots := T.snapshots - 1 }

/-- Undo every change noted since the snapshot was taken, and close it. -/
def rollback (T : Table) (s : Snapshot) : Table :=
  (T.undoLast (T.trail.size - s.length)).close

/-- Close a snapshot and keep the changes since it was taken; an enclosing snapshot can still undo
them. -/
def commit (T : Table) : Table :=
  T.close

/-! ## Resolution -/

/-- Follow the bindings of a type, `n` of them at most, to the type they end in. Each variable on
the way is bound to the end, so that the next time one step suffices. -/
def follow : Nat → Table → Ty → Ty × Table
  | n + 1, T, .var v =>
    match T.binding? v.id with
    | none => (.var v, T)
    | some (.var w) =>
      let (t, T) := follow n T (.var w)
      if t = .var w then (t, T) else (t, T.setBinding v.id t)
    | some t => (t, T)
  | _, T, t => (t, T)

/-- The representative of a type: the type itself, unless it is a bound variable. No chain of
bindings without a cycle is longer than the number of variables. -/
def resolve (T : Table) (t : Ty) : Ty × Table :=
  follow T.size T t

-- The equations are made here, once for all the proofs that use them.
attribute [local simp] newVar level binding? isBound isGeneralized generalize note setBinding setLevel undo undoLast

end Table

end Reified
