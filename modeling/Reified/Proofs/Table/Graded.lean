import Mathlib.Data.List.Permutation
import Reified.Proofs.Table.Known

/-!
# The representation invariant of tables

The level of a variable says from how far outside it can be reached. The occurs check keeps that true: a
variable is bound only after everything that remains in its type was lowered to its own level. So no
variable that remains in what another one stands for has a level above that one's. A rollback undoes
lowered levels one by one, as it undoes bindings, and meets only tables for which the same holds.

## Main definitions

* `Table.Graded` — what a variable stands for has no higher level
* `Table.GradedInv` — the invariant of tables, and graded wherever a rollback may go back to

## Main results

* `Table.changes_gradedInv` — every small change keeps the invariant
* `Table.Reached.graded` — so has every table that is reached
* `Table.Reached.representation` — in terms of the operations of the table
-/

namespace Reified

namespace Table

variable {vs : List TyVar} {T T' : Table}

/-- No variable that remains in what a variable stands for has a higher level. -/
def Graded (T : Table) : Prop :=
  ∀ (v : TyVar) (w : Nat), T.Reaches (.var v) w → T.level w ≤ T.level v.id

namespace Graded

theorem of_deep_eq (h : T.Graded) (hdeep : ∀ t, T'.deep t = T.deep t)
    (hlevel : ∀ w, T'.level w = T.level w) : T'.Graded := by
  intro v w hw
  rw [Reaches, hdeep] at hw
  rw [hlevel, hlevel]
  exact h v w hw

/-- Bindings and levels are all that matters. -/
theorem congr (h : T.Graded) (hT : T.Acyclic) (hb : ∀ id, T'.binding? id = T.binding? id)
    (hlevel : ∀ w, T'.level w = T.level w) : T'.Graded :=
  h.of_deep_eq (deep_congr hT hb) hlevel

/-- Variables that are bound cannot be reached, so an unbound one may sink. -/
theorem setLevel (h : T.Graded) (hT : T.Acyclic) {id level : Nat} (hu : T.binding? id = none)
    (hlt : level < T.level id) : (T.setLevel id level).Graded := by
  intro v w hw
  rw [Reaches, deep_congr hT (binding?_setLevel id level)] at hw
  have hle := h v w hw
  rw [level_setLevel (lt_size_of_lt_level hlt), level_setLevel (lt_size_of_lt_level hlt)]
  by_cases hv : v.id = id
  · -- an unbound variable reaches itself only
    have hwv := (reaches_var_of_unbound (hv ▸ hu)).mp hw
    rw [← hwv]
  · rw [if_neg hv]
    split
    · next hw => exact (hw ▸ hlt.le).trans (hw ▸ hle)
    · exact hle

/-- A variable may be bound to a type in which no higher level remains. -/
theorem setBinding (h : T.Graded) (hT : T.Acyclic) {id : Nat} (hid : id < T.size) {t : Ty}
    (hu : T.binding? id = none) (ht : ¬ T.Reaches t id)
    (hle : ∀ w, T.Reaches t w → T.level w ≤ T.level id) : (T.setBinding id t).Graded := by
  intro v w hw
  rw [level_setBinding, level_setBinding]
  obtain ⟨x, hx, rfl⟩ := hw
  rw [deep_setBinding hT hid hu ht] at hx
  obtain ⟨y, hy, hx⟩ := Ty.mem_vars_subst.mp hx
  have hv : T.level y.id ≤ T.level v.id := h v y.id ⟨y, hy, rfl⟩
  split at hx
  · next hyid => exact (hle x.id ⟨x, hx, rfl⟩).trans (hyid ▸ hv)
  · rw [Ty.vars, List.mem_singleton] at hx
    exact hx ▸ hv

/-- A new variable is not reached by the others. -/
theorem newVar (h : T.Graded) (hT : T.Acyclic) (hb : ∀ id t, T.binding? id = some t → Below T.size t)
    (name : String) (inferred rigid : Bool) (level : Nat) :
    (T.newVar name inferred rigid level).2.Graded := by
  have hsame := binding?_newVar (T := T) name inferred rigid level
  intro v w hw
  rw [Reaches, deep_congr hT hsame] at hw
  rw [level_newVar, level_newVar]
  cases hbv : T.binding? v.id with
  | none =>
    rw [(reaches_var_of_unbound hbv).mp hw]
  | some t =>
    have hv : v.id ≠ T.size := (lt_size_of_binding? hbv).ne
    have hwlt : w ≠ T.size := by
      obtain ⟨x, hx, rfl⟩ := hw
      rw [deep_var_of_binding hT hbv] at hx
      exact (below_deep hT hb (hb _ _ hbv) x hx).ne
    rw [if_neg hv, if_neg hwlt]
    exact h v w hw

end Graded

/-! ## Wherever a rollback may go -/

/-- The invariant of tables, in a table that is graded and remains so when one walks back. -/
structure GradedInv (vs : List TyVar) (T : Table) : Prop where
  inv : T.Inv vs
  graded : ∀ n, (T.undoLast n).Graded

namespace GradedInv

theorem now (h : T.GradedInv vs) : T.Graded := h.graded 0

theorem setBinding (h : T.GradedInv vs) {id : Nat} {t : Ty} (hinv : (T.setBinding id t).Inv vs)
    (hgraded : (T.setBinding id t).Graded) : (T.setBinding id t).GradedInv vs := by
  refine ⟨hinv, fun n => ?_⟩
  rcases undoLast_setBinding_cases h.inv.quiet id t n with hn | ⟨m, hn⟩
  · rwa [hn]
  · rw [hn]
    exact h.graded m

theorem setLevel (h : T.GradedInv vs) {id level : Nat} (hu : T.binding? id = none)
    (hlt : level < T.level id) : (T.setLevel id level).GradedInv vs := by
  refine ⟨h.inv.setLevel (lt_size_of_lt_level hlt) level, fun n => ?_⟩
  rcases undoLast_setLevel_cases h.inv.quiet id level n with hn | ⟨m, hn⟩
  · rw [hn]
    exact h.now.setLevel h.inv.acyclic hu hlt
  · rw [hn]
    exact h.graded m

theorem generalize (h : T.GradedInv vs) (id : Nat) : (T.generalize id).GradedInv vs := by
  refine ⟨h.inv.generalize id, fun n => ?_⟩
  rw [undoLast_generalize]
  exact (h.graded n).congr (h.inv.sound n).acyclic (binding?_generalize id) (level_generalize id)

theorem newVar (h : T.GradedInv vs) (name : String) (inferred rigid : Bool) (level : Nat) :
    (T.newVar name inferred rigid level).2.GradedInv
      (vs ++ [(T.newVar name inferred rigid level).1]) := by
  refine ⟨h.inv.newVar name inferred rigid level, fun n => ?_⟩
  rw [undoLast_newVar h.inv.trail]
  have hinv := h.inv.undoLast n
  exact (h.graded n).newVar hinv.acyclic (fun id t hb v hv =>
    hinv.lt_size ((hinv.now.written id t hb).vars v hv)) name inferred rigid level

theorem snapshot (h : T.GradedInv vs) : T.snapshot.2.GradedInv vs := by
  refine ⟨h.inv.snapshot, fun n => ?_⟩
  rw [Table.snapshot, Restores.undoLast_snapshots]
  exact (h.graded n).congr (h.inv.sound n).acyclic (fun _ => rfl) fun _ => rfl

theorem undoLast (h : T.GradedInv vs) (n : Nat) : (T.undoLast n).GradedInv vs := by
  refine ⟨h.inv.undoLast n, fun k => ?_⟩
  rw [undoLast_add]
  exact h.graded (n + k)

theorem commit (h : T.GradedInv vs) : T.commit.GradedInv vs := by
  refine ⟨h.inv.commit, fun n => ?_⟩
  rw [Table.commit, close]
  split
  · rw [undoLast_of_empty rfl]
    exact h.now.congr h.inv.acyclic (fun _ => rfl) fun _ => rfl
  · rw [Restores.undoLast_snapshots]
    exact (h.graded n).congr (h.inv.sound n).acyclic (fun _ => rfl) fun _ => rfl

theorem rollback (h : T.GradedInv vs) (s : Snapshot) : (T.rollback s).GradedInv vs :=
  (h.undoLast _).commit

end GradedInv

/-- **Every small change keeps the invariant.** -/
theorem changes_gradedInv (vs : List TyVar) : Changes (·.GradedInv vs) (·.Over vs) where
  acyclic h := h.inv.acyclic
  bound h _ := h.inv.now.written _ _
  var ht hv := .var (ht.vars _ hv)
  shortcut {T v t} h _ ht hb hdeep hacyclic := by
    have hid := lt_size_of_isBound hb
    refine h.setBinding (h.inv.setBinding hid ⟨fun w u hw => ?_, fun w hw hr => ?_, hacyclic⟩)
      (h.now.of_deep_eq hdeep fun w => level_setBinding v.id t w)
    · rw [binding?_setBinding hid] at hw
      split at hw
      · exact Option.some.inj hw ▸ ht
      · exact h.inv.now.written w u hw
    · have hnone := h.inv.now.rigid w hw hr
      rw [binding?_setBinding hid, if_neg fun hwid => ?_]
      · exact hnone
      · rw [← hwid, isBound_eq_false.mpr hnone] at hb
        exact Bool.false_ne_true hb
  part hc ht := ht.part hc
  quiet h := h.inv.quiet
  snapshot h := h.snapshot
  commit h := h.commit
  lower h hu hlt := h.setLevel hu hlt
  bind h hv ht hr hu hreach hle := by
    have hv := hv.vars _ (List.mem_singleton_self _)
    exact h.setBinding ((Agrees.refl h.inv).inv_setBinding hv hr hu ht hreach)
      (h.now.setBinding h.inv.acyclic (h.inv.lt_size hv) hu hreach hle)

/-! ## Reached tables -/

theorem creates_gradedInv (level : Nat) : Creates (fun vs T => T.GradedInv vs) (fun vs t => t.Over vs)
    level where
  shortcuts vs := (changes_gradedInv vs).toShortcuts
  mono _ ht := ht.mono fun _ => List.mem_append_left _
  newVar name inferred h := h.newVar name inferred false level

/-- The table without variables has the invariant. -/
theorem GradedInv.empty : Table.empty.GradedInv [] := by
  refine ⟨.empty, fun n v w hw => ?_⟩
  rw [undoLast_of_empty rfl] at hw ⊢
  rw [level_of_size_le (Nat.zero_le w)]
  exact Nat.zero_le _

/-- **Every table that is reached is graded**, and so is every one that a rollback may go back to. -/
theorem Reached.graded (h : Reached vs T) : T.GradedInv vs := by
  induction h with
  | empty => exact .empty
  | newVar name inferred rigid level _ ih => exact ih.newVar name inferred rigid level
  | generalize id _ ih => exact ih.generalize id
  | snapshot _ ih => exact ih.snapshot
  | rollback s _ ih => exact ih.rollback s
  | commit _ ih => exact ih.commit
  | resolve _ ht ih => exact ((changes_gradedInv _).resolve ih ht).2
  | resolveDeep _ ht ih => exact (changes_gradedInv _).resolveDeep ih ht
  | instantiate level _ ht ih => exact (creates_gradedInv level).instantiate ih ht
  | substitute image _ ht ih => exact (changes_gradedInv _).substitute ih ht image
  | unify _ ha hb ih => exact (changes_gradedInv _).unify ih ha hb

/-- **The representation invariant.** In every table that is reached the bindings have no cycle, no rigid
variable is bound, and what remains in the resolved type of a bound variable is unbound and has no higher
level. -/
theorem Reached.representation (h : Reached vs T) :
    T.Acyclic ∧ (∀ v ∈ vs, v.rigid = true → T.isBound v.id = false) ∧
      ∀ v ∈ vs, T.isBound v.id = true → ∀ w ∈ (T.resolveDeep (.var v)).1.vars,
        T.isBound w.id = false ∧ T.level w.id ≤ T.level v.id := by
  have hT := h.graded
  have hacyclic := hT.inv.acyclic
  refine ⟨hacyclic, fun v hv hr => isBound_eq_false.mpr (hT.inv.now.rigid v hv hr),
    fun v _ _ w hw => ?_⟩
  rw [(steady_resolveDeep hacyclic (.var v)).1] at hw
  exact ⟨isBound_eq_false.mpr (unbound_of_mem_vars_deep hacyclic hw), hT.now v w.id ⟨w, hw, rfl⟩⟩

/-- A variable of level one is bound to an array of another one, which sinks to that level. -/
theorem Reached.representation_array :
    let outer : TyVar := ⟨0, "outer", false, false⟩
    let inner : TyVar := ⟨1, "inner", true, false⟩
    let T : Table := ⟨#[⟨1, some (.array (.var inner)), false⟩, ⟨1, none, false⟩], #[], 0⟩
    Reached [outer, inner] T ∧ T.isBound 0 = true ∧ T.isBound 1 = false ∧ T.level 1 ≤ T.level 0 := by
  intro outer inner T
  have hnew : Reached [outer, inner] ((Table.empty.newVar "outer" false false 1).2.newVar "inner" true
      false 2).2 := .newVar "inner" true false 2 (.newVar "outer" false false 1 .empty)
  have houter : (.var outer : Ty).Over [outer, inner] := .var (by simp)
  have hinner : (.array (.var inner) : Ty).Over [outer, inner] :=
    ⟨by simp [Ty.vars], by simp [Ty.Tidy]⟩
  have hunify : ((Table.empty.newVar "outer" false false 1).2.newVar "inner" true false 2).2.unify
      (.var outer) (.array (.var inner)) = .ok () T := by cbv
  have hT : Reached [outer, inner] T := by
    have h := Reached.unify hnew houter hinner
    rwa [hunify] at h
  have hvars : (T.resolveDeep (.var outer)).1.vars = [inner] := rfl
  exact ⟨hT, rfl, (representation hT).2.2 outer (by simp) rfl inner (by simp [hvars])⟩

end Table

end Reified
