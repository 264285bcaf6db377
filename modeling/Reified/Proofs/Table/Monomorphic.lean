import Mathlib
import Reified.Proofs.Isolation.Behind
import Reified.Proofs.Table.Copies
import Reified.Proofs.Table.Known

/-!
# Monomorphic types

A type is monomorphic in a table if no generalized variable remains in it. Instances are. Unification of
monomorphic types never meets a generalized variable, so it binds none, and what was monomorphic stays so.
Hence however the instances of a generic type are used together with other monomorphic types, the next
instance is the same again, but for the numbers of its variables.

## Main definitions

* `Table.Monomorphic` — no generalized variable remains in the type
* `Table.Respects` — a later table in which generalized variables are as they were
* `Table.Uses` — instances, and unifications of types over variables of instances and other monomorphic ones

## Main results

* `Table.Tame.respects_unify` — unification of monomorphic types
* `Table.monomorphic_instantiate` — instances are monomorphic
* `Table.Uses.instantiate_eq_shift` — instances are independent
-/

namespace Reified

namespace Table

variable {T T' U : Table} {t u : Ty} {vs : List TyVar}

/-- No generalized variable remains in the type. -/
def Monomorphic (T : Table) (t : Ty) : Prop := ∀ w ∈ (T.deep t).vars, T.isGeneralized w.id = false

theorem monomorphic_iff_vars : T.Monomorphic t ↔ ∀ v ∈ t.vars, T.Monomorphic (.var v) := by
  unfold Monomorphic
  rw [deep_eq_subst, Ty.vars_subst]
  simp only [List.mem_flatMap, forall_exists_index, and_imp]
  exact ⟨fun h v hv w hw => h w v hv hw, fun h w v hv hw => h v hv w hw⟩

theorem Monomorphic.part {c : Ty} (h : T.Monomorphic t) (hc : c.Part t) : T.Monomorphic c :=
  monomorphic_iff_vars.mpr fun v hv => monomorphic_iff_vars.mp h v (hc.vars_subset hv)

theorem monomorphic_var_of_unbound {v : TyVar} (h : T.binding? v.id = none) :
    T.Monomorphic (.var v) ↔ T.isGeneralized v.id = false := by
  simp [Monomorphic, deep_var_of_unbound h, Ty.vars]

theorem Monomorphic.of_binding (hT : T.Acyclic) {v : TyVar} (h : T.Monomorphic (.var v))
    (hb : T.binding? v.id = some t) : T.Monomorphic t := by
  rwa [Monomorphic, deep_var_of_binding hT hb] at h

/-- Only what the table says of the type matters. -/
theorem Monomorphic.congr (h : T.Monomorphic t) (hdeep : U.deep u = T.deep t)
    (hmarks : ∀ id, U.isGeneralized id = T.isGeneralized id) : U.Monomorphic u := fun w hw =>
  (hmarks w.id).trans (h w (hdeep ▸ hw))

/-! ## Unification -/

/-- A later table with the same marks, in which variables that are monomorphic in the first one have been
bound to types that are so, and no generalized variable has been bound. -/
structure Respects (T U : Table) : Prop where
  tame : U.Tame
  size : U.size = T.size
  marks : ∀ id, U.isGeneralized id = T.isGeneralized id
  stays : ∀ id, T.isBound id = true → U.isBound id = true
  bound : ∀ v t, T.Monomorphic (.var v) → U.binding? v.id = some t → T.Monomorphic t
  generalized : ∀ id, T.isGeneralized id = true → T.binding? id = none → U.binding? id = none

namespace Respects

theorem refl (hT : T.Tame) : T.Respects T :=
  ⟨hT, rfl, fun _ => rfl, fun _ h => h, fun _ _ h hb => h.of_binding hT.acyclic hb, fun _ _ h => h⟩

/-- A table with the same bindings. -/
theorem of_binding?_eq (h : T.Respects U) (hT : T'.Tame) (hs : T'.size = U.size)
    (hm : ∀ id, T'.isGeneralized id = U.isGeneralized id) (hb : ∀ id, T'.binding? id = U.binding? id) :
    T.Respects T' where
  tame := hT
  size := hs.trans h.size
  marks id := (hm id).trans (h.marks id)
  stays id hid := by
    rw [isBound, hb]
    exact h.stays id hid
  bound v t hv ht := h.bound v t hv (hb v.id ▸ ht)
  generalized id hg hu := (hb id).trans (h.generalized id hg hu)

/-- A variable that has not been left alone may be bound to a monomorphic type. -/
theorem setBinding (h : T.Respects U) {v : TyVar} (hT : (U.setBinding v.id t).Tame) (ht : T.Monomorphic t)
    (hne : T.isGeneralized v.id = true → T.binding? v.id = none → U.binding? v.id = none → False) :
    T.Respects (U.setBinding v.id t) := by
  by_cases hid : v.id < U.size
  · refine
      { tame := hT
        size := (size_setBinding v.id t).trans h.size
        marks := fun id => (isGeneralized_setBinding v.id t id).trans (h.marks id)
        stays := fun id hb => ?_
        bound := fun x s hx hs => ?_
        generalized := fun id hg hu => ?_ }
    · rw [isBound, binding?_setBinding hid]
      split
      · rfl
      · exact h.stays id hb
    · rw [binding?_setBinding hid] at hs
      split at hs
      · exact Option.some.inj hs ▸ ht
      · exact h.bound x s hx hs
    · rw [binding?_setBinding hid]
      split
      · next heq => exact (hne (heq ▸ hg) (heq ▸ hu) (heq ▸ h.generalized id hg hu)).elim
      · exact h.generalized id hg hu
  · rw [Table.setBinding, if_neg hid]
    exact h

/-- Unification of monomorphic types makes such tables. -/
theorem changes (T : Table) : Changes T.Respects T.Monomorphic where
  acyclic h := h.tame.acyclic
  bound h hv hb := h.bound _ _ hv hb
  var ht hv := monomorphic_iff_vars.mp ht _ hv
  shortcut {U v t} h hv ht hb _ hacyclic := by
    refine h.setBinding (h.tame.setBinding hacyclic) ht fun _ _ hu => ?_
    rw [isBound_eq_false.mpr hu] at hb
    exact absurd hb Bool.false_ne_true
  lower {U id level} h _ _ :=
    h.of_binding?_eq (h.tame.setLevel id level) (size_setLevel id level) (isGeneralized_setLevel id level)
      (binding?_setLevel id level)
  quiet h := h.tame.quiet
  part hc ht := ht.part hc
  snapshot h := h.of_binding?_eq h.tame.snapshot rfl (fun _ => rfl) fun _ => rfl
  commit {U} h := by
    have hsize : U.commit.size = U.size := congrArg Array.size U.entries_commit
    have hmarks : ∀ id, U.commit.isGeneralized id = U.isGeneralized id := fun id => by
      rw [isGeneralized, entries_commit, isGeneralized]
    exact h.of_binding?_eq h.tame.commit hsize hmarks binding?_commit
  bind {U v t} h hv ht _ hu hnot _ := by
    refine h.setBinding (Advances.setBinding h.tame hu hnot).grows.tame ht fun hg huT _ => ?_
    exact absurd (hg.symm.trans ((monomorphic_var_of_unbound huT).mp hv)) nofun

/-- What was monomorphic stays so. -/
theorem monomorphic (h : T.Respects U) (ht : T.Monomorphic t) : U.Monomorphic t := by
  have hvars := forall_vars_deep h.tame.acyclic (P := fun v => T.Monomorphic (.var v))
    (fun v s hv hs => monomorphic_iff_vars.mp (h.bound v s hv hs)) (monomorphic_iff_vars.mp ht)
  intro w hw
  have hu : U.isBound w.id = false := isBound_eq_false.mpr (unbound_of_mem_vars_deep h.tame.acyclic hw)
  have huT : T.binding? w.id = none := isBound_eq_false.mp <| by
    by_contra hb
    exact absurd (hu.symm.trans (h.stays w.id (Bool.not_eq_false _ ▸ hb))) Bool.false_ne_true
  rw [h.marks]
  exact (monomorphic_var_of_unbound huT).mp (hvars w hw)

end Respects

/-- **Unification of monomorphic types** respects generalized variables, whether it succeeds or not. -/
theorem Tame.respects_unify (hT : T.Tame) {a b : Ty} (ha : T.Monomorphic a) (hb : T.Monomorphic b) :
    T.Respects (T.unify a b).table :=
  (Respects.changes T).unify (.refl hT) ha hb

/-! ## Instances -/

/-- **Instances are monomorphic**, and what was so before stays so. -/
theorem monomorphic_instantiate (hT : T.Acyclic) (t : Ty) (level : Nat) :
    (T.instantiate t level).2.2.Monomorphic (T.instantiate t level).1 ∧
      ∀ u, T.Monomorphic u → (T.instantiate t level).2.2.Monomorphic u := by
  obtain ⟨ρ, h⟩ := isInstance_instantiate hT t level
  obtain ⟨S, hmade, heq⟩ := T.instantiate_eq hT t level
  rw [heq] at h ⊢
  refine ⟨monomorphic_iff_vars.mpr fun w hw => ?_, fun u hu => hu.congr (hmade.deep u) hmade.marks⟩
  obtain ⟨v, hv, hw⟩ := Ty.mem_vars_subst.mp hw
  obtain rfl : w = T.renamed (T.deep t).vars v := List.eq_of_mem_singleton hw
  cases hg : T.isGeneralized v.id with
  | false =>
    rw [renamed_of_not hg]
    have hu : S.table.binding? v.id = none := isBound_eq_false.mp <|
      (hmade.isBound v.id).trans (isBound_eq_false.mpr (unbound_of_mem_vars_deep hT hv))
    rw [monomorphic_var_of_unbound hu, hmade.marks, hg]
  | true =>
    obtain ⟨x, hx, hid⟩ := exists_marked hv hg
    have hmem : T.renamed (T.deep t).vars v ∈ (T.copies (T.deep t).vars).map Prod.snd := by
      rw [copies_eq_map_renamed, ← renamed_eq_of_id (mem_marked hx).1 (mem_marked hx).2 hid]
      exact List.mem_map_of_mem hx
    obtain ⟨hu, hmark, -⟩ := h.unbound _ hmem
    exact (monomorphic_var_of_unbound hu).mpr hmark

/-- What the use of instances makes of a table, together with the variables that may be used: those of
instances, and others that are monomorphic. Types over them are unified in any order, with or without
success. -/
inductive Uses (T : Table) : List TyVar → Table → Prop
  | start : Uses T [] T
  | allow {vs : List TyVar} {S : Table} {v : TyVar} : Uses T vs S →
      (∀ w ∈ (S.resolveDeep (.var v)).1.vars, S.isGeneralized w.id = false) → Uses T (vs ++ [v]) S
  | copy {vs : List TyVar} {S : Table} (t : Ty) (level : Nat) : Uses T vs S →
      Uses T (vs ++ (S.instantiate t level).1.vars) (S.instantiate t level).2.2
  | unify {vs : List TyVar} {S : Table} {a b : Ty} : Uses T vs S → a.vars ⊆ vs → b.vars ⊆ vs →
      Uses T vs (S.unify a b).table

/-- A later table for which generalized variables are as they were. -/
structure Preserves (T S : Table) : Prop where
  grows : T.Grows S
  size : T.size ≤ S.size
  marks : ∀ id, S.isGeneralized id = T.isGeneralized id
  generalized : ∀ id, T.isGeneralized id = true → T.binding? id = none → S.binding? id = none

theorem Preserves.trans {T₁ T₂ T₃ : Table} (h : T₁.Preserves T₂) (h' : T₂.Preserves T₃) : T₁.Preserves T₃ where
  grows := h.grows.trans h'.grows
  size := h.size.trans h'.size
  marks id := (h'.marks id).trans (h.marks id)
  generalized id hg hu := h'.generalized id ((h.marks id).trans hg) (h.generalized id hg hu)

theorem Tame.preserves_instantiate (hT : T.Tame) (t : Ty) (level : Nat) :
    T.Preserves (T.instantiate t level).2.2 := by
  have hgrows := hT.instantiate t level
  obtain ⟨S, hmade, heq⟩ := T.instantiate_eq hT.acyclic t level
  rw [heq] at hgrows ⊢
  refine ⟨hgrows, hmade.size ▸ Nat.le_add_right _ _, hmade.marks, fun id _ hu => isBound_eq_false.mp ?_⟩
  exact (hmade.isBound id).trans (isBound_eq_false.mpr hu)

theorem Tame.preserves_unify (hT : T.Tame) {a b : Ty} (ha : T.Monomorphic a) (hb : T.Monomorphic b) :
    T.Preserves (T.unify a b).table :=
  have h := hT.respects_unify ha hb
  ⟨hT.unify a b, h.size.ge, h.marks, h.generalized⟩

/-- **What is used stays monomorphic**, and nothing happens to generalized variables. -/
theorem Uses.preserves (hT : T.Tame) {S : Table} (h : T.Uses vs S) :
    T.Preserves S ∧ ∀ v ∈ vs, S.Monomorphic (.var v) := by
  induction h with
  | start => exact ⟨⟨.refl hT, le_rfl, fun _ => rfl, fun _ _ h => h⟩, nofun⟩
  | @allow vs S v _ hv ih =>
    rw [(steady_resolveDeep ih.1.grows.tame.acyclic _).1] at hv
    refine ⟨ih.1, fun w hw => (List.mem_append.mp hw).elim (ih.2 w) fun hw => ?_⟩
    exact List.eq_of_mem_singleton hw ▸ hv
  | @copy vs S t level _ ih =>
    have hS := ih.1.grows.tame
    obtain ⟨hnew, hold⟩ := monomorphic_instantiate hS.acyclic t level
    exact ⟨ih.1.trans (hS.preserves_instantiate t level), fun w hw => (List.mem_append.mp hw).elim
      (fun hw => hold _ (ih.2 w hw)) (monomorphic_iff_vars.mp hnew w)⟩
  | @unify vs S a b _ ha hb ih =>
    have hS := ih.1.grows.tame
    have ha := monomorphic_iff_vars.mpr fun v hv => ih.2 v (ha hv)
    have hb := monomorphic_iff_vars.mpr fun v hv => ih.2 v (hb hv)
    exact ⟨ih.1.trans (hS.preserves_unify ha hb), fun w hw => (hS.respects_unify ha hb).monomorphic (ih.2 w hw)⟩

/-- The copies are the same in a later table, but for their numbers. -/
theorem Preserves.copies_eq {S : Table} (h : T.Preserves S) (ws : List TyVar) :
    S.copies ws = (T.copies ws).map fun c => (c.1, c.2.shift (S.size - T.size)) := by
  have hmarked : S.marked ws = T.marked ws := by simp only [marked, h.marks]
  have hle := h.size
  rw [copies, hmarked, copies]
  refine List.ext_getElem (by simp) fun i hi hi' => ?_
  simp only [List.getElem_mapIdx, List.getElem_map, TyVar.shift]
  rw [show T.size + i + (S.size - T.size) = S.size + i by omega]

/-- A copy in the later table is the copy in the first one with a larger number. -/
theorem Preserves.renamed_eq {S : Table} (h : T.Preserves S) {ws : List TyVar} {v : TyVar} (hv : v ∈ ws)
    (hg : T.isGeneralized v.id = true) :
    S.renamed ws v = (T.renamed ws v).shift (S.size - T.size) := by
  obtain ⟨u, hu⟩ := lookup_copies_of_met hv hg
  obtain ⟨before, after, heq, -⟩ := List.lookup_eq_some_iff.mp hu
  have hmem : (v.id, u.shift (S.size - T.size)) ∈ S.copies ws := by
    rw [h.copies_eq, heq]
    simp
  rw [renamed, renamed, hu, lookup_eq_some_of_mem (S.nodup_keys_copies ws) hmem]
  rfl

/-- **Instances are independent.** However instances have been used together with other monomorphic types,
of a type in which all that remains is generalized the instance is the same again, but for the numbers of the
new variables. -/
theorem Uses.instantiate_eq_shift (hT : T.Tame) {S : Table} (h : T.Uses vs S)
    (ht : ∀ v ∈ (T.resolveDeep t).1.vars, T.isGeneralized v.id = true) (level level' : Nat) :
    (S.instantiate t level').1 = (T.instantiate t level).1.shift (S.size - T.size) ∧
      (S.instantiate t level').2.1 = (T.instantiate t level).2.1.map (TyVar.shift (S.size - T.size)) := by
  obtain ⟨hS, -⟩ := h.preserves hT
  rw [(steady_resolveDeep hT.acyclic t).1] at ht
  have hdeep : S.deep t = T.deep t := by
    rw [← hS.grows.deep, ← Ty.subst_var (T.deep t), deep_eq_subst, Ty.subst_subst]
    refine Ty.subst_congr fun v hv => deep_var_of_unbound (hS.generalized v.id (ht v hv) ?_)
    exact unbound_of_mem_vars_deep hT.acyclic hv
  obtain ⟨_, -, hS'⟩ := S.instantiate_eq hS.grows.tame.acyclic t level'
  obtain ⟨_, -, hT'⟩ := T.instantiate_eq hT.acyclic t level
  rw [hS', hT', hdeep, hS.copies_eq]
  refine ⟨?_, by simp⟩
  rw [Ty.shift, rename, rename, Ty.subst_subst]
  refine Ty.subst_congr fun v hv => ?_
  rw [hS.renamed_eq hv (ht v hv)]
  rfl

/-- **An instance is a fresh copy of its own.** It is the resolved type with each generalized variable renamed
to a new one. If nothing else remains in the type, then the next instance is the same again, but for the numbers
of the new variables, however instances have been used in between. -/
theorem instances_fresh_and_independent (hT : T.Acyclic) (t : Ty) (level : Nat) :
    (∃ ρ, T.IsInstance t level ρ (T.instantiate t level)) ∧
    -- as in every table, there is nothing to undo unless a snapshot is open
    ((T.snapshots = 0 → T.trail = #[]) → (∀ v ∈ (T.resolveDeep t).1.vars, T.isGeneralized v.id = true) →
      ∀ (vs : List TyVar) (S : Table) (level' : Nat), T.Uses vs S →
        (S.instantiate t level').1 = (T.instantiate t level).1.shift (S.size - T.size) ∧
        (S.instantiate t level').2.1 = (T.instantiate t level).2.1.map (TyVar.shift (S.size - T.size))) :=
  ⟨isInstance_instantiate hT t level, fun quiet ht _ _ level' h =>
    h.instantiate_eq_shift ⟨hT, quiet⟩ ht level level'⟩

/-- A generic type is met again behind a binding, and its first instance is used at a type that does not fit. -/
theorem instances_fresh_and_independent_pair :
    let a : TyVar := ⟨0, "T", false, false⟩
    let b : TyVar := ⟨1, "b", false, false⟩
    let T : Table := ⟨#[⟨1, none, true⟩, ⟨1, some (.array (.var a)), false⟩], #[], 0⟩
    let t : Ty := .fn [.var a, .var b] (.var a) 0
    let c : TyVar := ⟨2, "T", false, false⟩
    let S := ((T.instantiate t 2).2.2.unify (.tuple [.var c, .var c]) (.tuple [.number, .string])).table
    T.Acyclic ∧ (T.snapshots = 0 → T.trail = #[]) ∧
      (∀ v ∈ (T.resolveDeep t).1.vars, T.isGeneralized v.id = true) ∧ T.Uses [c, c, c] S ∧
      (T.instantiate t 2).1 = .fn [.var c, .array (.var c)] (.var c) 0 ∧ S.binding? 2 = some .number ∧
      (S.instantiate t 0).1 = (T.instantiate t 2).1.shift 1 := by
  intro a b T t c S
  have hT : T.Acyclic := by
    refine ⟨fun id => id, fun v t hv w hw => ?_⟩
    match v with
    | 0 => cases hv
    | 1 => cases hv; simp [Ty.vars] at hw; subst hw; decide
    | n + 2 => simp [binding?, T] at hv
  have hquiet : T.snapshots = 0 → T.trail = #[] := fun _ => rfl
  have hall : ∀ v ∈ (T.resolveDeep t).1.vars, T.isGeneralized v.id = true := by decide
  have huses : T.Uses [c, c, c] S := .unify (.copy t 2 .start) (by decide) (by decide)
  have h := ((instances_fresh_and_independent hT t 2).2 hquiet hall _ S 0 huses).1
  have hsize : S.size - T.size = 1 := by
    simp only [S, T, t, a, b, c]
    cbv
  have hbinding : S.binding? 2 = some .number := by
    simp only [S, T, t, a, b, c]
    cbv
  exact ⟨hT, hquiet, hall, huses, by decide, hbinding, hsize ▸ h⟩

end Table

end Reified
