import Reified.Lowering.Stmt

/-!
# Code for programs

The accepted declarations of a program become one block, which completes with the value of the last
of them.

## Main definitions

* `Program.lower` — the block of a program
-/

namespace Reified

/-- The declarations that are not at a rejected position. -/
def Program.accepted (rejected : List Nat) (ds : Program) : List Decl :=
  (ds.mapIdx fun i d => if rejected.contains i then none else some d).filterMap id

/-- The block of a program without its rejected declarations. -/
def Program.lower (checks : Bool) (rejected : List Nat) (ds : Program) :
    Except LowerError Block :=
  let act : Lower Unit := do
    let value ← Lower.allocate
    Lower.body ⟨checks, [], 0, none⟩ (ds.accepted rejected) value
    Lower.emit (.leave value)
  match act (.new "<program>" 0) with
  | .ok _ b => .ok b.finish
  | .error e _ => .error e

end Reified
