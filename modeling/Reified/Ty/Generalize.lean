import Reified.Ty.Resolve

/-!
# Generalization

Variables are created in frames, and the level of a variable is at first the number of open frames.
Binding a variable of an outer frame lowers the levels of what it is bound to, so when a frame is
closed, the variables still at its depth are the ones that nothing outside can reach: these are
generalized. The others move to the frame of their lowered level.

## Main definitions

* `Frames.newVar`, `Frames.instantiate` — variables that belong to the innermost frame
* `Frames.pop` — close a frame
-/

namespace Reified

/-- The open generalization frames, the innermost first. Each holds the numbers of the variables
that wait for it to close, the latest first. -/
structure Frames where
  stack : List (List Nat)

namespace Frames

/-- No open frame. -/
def empty : Frames := ⟨[]⟩

instance : Inhabited Frames := ⟨empty⟩

/-- The number of open frames. -/
def depth (F : Frames) : Nat := F.stack.length

/-- Open a frame. -/
def push (F : Frames) : Frames := ⟨[] :: F.stack⟩

/-- Let a variable wait for the innermost frame. -/
def record (F : Frames) (id : Nat) : Frames :=
  match F.stack with
  | [] => F
  | f :: fs => ⟨(id :: f) :: fs⟩

/-- A further variable, at the level of the innermost frame. -/
def newVar (F : Frames) (T : Table) (name : String) (inferred rigid : Bool) :
    Ty × Frames × Table :=
  let (v, T) := T.newVar name inferred rigid F.depth
  (.var v, F.record v.id, T)

/-- An instance of a type, its fresh variables belonging to the innermost frame. -/
def instantiate (F : Frames) (T : Table) (t : Ty) : Ty × Frames × Table :=
  let (t, fresh, T) := T.instantiate t F.depth
  (t, fresh.foldl (fun F v => F.record v.id) F, T)

/-- Let a variable wait for the frame at a level, counted from one for the outermost. -/
def recordAt (F : Frames) (level id : Nat) : Frames :=
  if 0 < level && level ≤ F.depth then ⟨F.stack.modify (F.depth - level) (id :: ·)⟩ else F

/-- Decide the fate of the variables that waited for a frame at `depth`, in the order given. A bound
or generalized one is done with; one still at the depth is generalized; any other waits for the
frame of its level. The last component lists the generalized ones, the latest first. -/
def settle (depth : Nat) : List Nat → Frames → Table → List Nat → List Nat × Frames × Table
  | [], F, T, done => (done, F, T)
  | id :: ids, F, T, done =>
    if T.isBound id || T.isGeneralized id then settle depth ids F T done
    else if depth ≤ T.level id then settle depth ids F (T.generalize id) (id :: done)
    else settle depth ids (F.recordAt (T.level id) id) T done

/-- Close the innermost frame. The answer lists the variables that are thereby generalized. -/
def pop (F : Frames) (T : Table) : List Nat × Frames × Table :=
  match F.stack with
  | [] => ([], F, T)
  | f :: fs =>
    let (done, F, T) := settle F.depth f.reverse ⟨fs⟩ T []
    (done.reverse, F, T)

end Frames

end Reified
