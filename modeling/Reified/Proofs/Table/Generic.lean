import Mathlib.Data.Set.Function
import Reified.Proofs.Table.Monomorphic
import Reified.Proofs.Table.MostGeneral

/-!
# Solutions of later tables

A table grows by further variables and by bindings. What is done to it determines a relation on assignments if
the solutions of the later table are those of the earlier one that satisfy it, whatever is assigned to the
variables that are new. Unification determines an equation, and instantiation determines that a type is an
instance of a generic one.

## Main definitions

* `Table.Onward` — a later table over more variables
* `Table.Determines` — the later table determines a relation
* `Table.HasInstance` — the instances of a generic type under an assignment

## Main results

* `Table.hasInstance_iff` — instances are the same for later tables
* `Table.determines_unify`, `Table.determines_instantiate`
* `Table.exists_renaming` — **tables with the same solutions** differ in a renaming
-/

namespace Reified

namespace Ty

variable {σ τ : TyVar → Ty} {t : Ty}

/-- Substitutions that make the same of a type are the same on its variables. -/
theorem eq_of_subst_eq (h : t.subst σ = t.subst τ) : ∀ v ∈ t.vars, σ v = τ v := by
  induction t with
  | var v =>
    intro w hw
    rwa [List.mem_singleton.mp hw]
  | name n => nofun
  | array t ih => exact ih (Ty.array.inj h)
  | tuple ts ih =>
    simp only [subst, substList_eq, Ty.tuple.injEq, List.map_inj_left] at h
    simp only [vars, varsList_eq, List.mem_flatMap]
    exact fun v ⟨t, ht, hv⟩ => ih t ht (h t ht) v hv
  | record fs ih =>
    simp only [subst, substFields_eq, Ty.record.injEq, List.map_inj_left, Prod.mk.injEq] at h
    simp only [vars, varsFields_eq, List.mem_flatMap]
    exact fun v ⟨f, hf, hv⟩ => ih f hf (h f hf).2 v hv
  | fn ps r k ihp ihr =>
    simp only [subst, substList_eq, Ty.fn.injEq, List.map_inj_left] at h
    simp only [vars, varsList_eq, List.mem_append, List.mem_flatMap]
    rintro v (⟨t, ht, hv⟩ | hv)
    · exact ihp t ht (h.1 t ht) v hv
    · exact ihr h.2.1 v hv
  | union a b iha ihb =>
    obtain ⟨ha, hb⟩ := Ty.union.inj h
    exact fun v hv => (List.mem_append.mp hv).elim (iha ha v) (ihb hb v)
  | binding n t ih => exact ih (Ty.binding.inj h).2

/-- Only a variable becomes a variable. -/
theorem exists_var_of_subst_eq {v : TyVar} (h : t.subst σ = .var v) : ∃ w, t = .var w := by
  cases t with
  | var w => exact ⟨w, rfl⟩
  | _ => cases h

/-- **Types that are instances of each other** differ in the names of their variables. -/
theorem exists_renaming {ι : Type} {a b : ι → Ty} (hσ : ∀ i, (a i).subst σ = b i)
    (hτ : ∀ i, (b i).subst τ = a i) : ∃ ρ : TyVar → TyVar, (∀ i, (a i).subst (fun v => .var (ρ v)) = b i) ∧
      Set.InjOn ρ {v | ∃ i, v ∈ (a i).vars} := by
  have hback : ∀ i, ∀ v ∈ (a i).vars, (σ v).subst τ = .var v := fun i => by
    refine eq_of_subst_eq (t := a i) (σ := fun v => (σ v).subst τ) (τ := .var) ?_
    rw [← subst_subst, hσ, hτ, subst_var]
  have hvar : ∀ v, ∃ w, (∃ i, v ∈ (a i).vars) → σ v = .var w := fun v => by
    by_cases hv : ∃ i, v ∈ (a i).vars
    · obtain ⟨i, hv⟩ := hv
      obtain ⟨w, hw⟩ := exists_var_of_subst_eq (hback i v hv)
      exact ⟨w, fun _ => hw⟩
    · exact ⟨v, fun h => absurd h hv⟩
  choose ρ hρ using hvar
  refine ⟨ρ, fun i => ?_, ?_⟩
  · rw [← hσ i]
    exact (subst_congr fun v hv => hρ v ⟨i, hv⟩).symm
  · rintro v ⟨i, hv⟩ w ⟨j, hw⟩ heq
    have h₁ := hback i v hv
    rw [hρ v ⟨i, hv⟩, heq, ← hρ w ⟨j, hw⟩, hback j w hw] at h₁
    exact (Ty.var.inj h₁).symm

end Ty

/-- Types over the variables are the same under assignments that agree on these. -/
theorem Ty.Over.subst_congr {vs : List TyVar} {t : Ty} (ht : t.Over vs) {θ θ' : TyVar → Ty}
    (hθ : ∀ v ∈ vs, θ v = θ' v) : t.erase.subst θ = t.erase.subst θ' :=
  Ty.subst_congr fun v hv => hθ v (ht.vars v (Ty.vars_erase t ▸ hv))

namespace Table

variable {us vs ws : List TyVar} {T S U : Table} {t u : Ty} {θ θ' : TyVar → Ty} {τ : Ty}

/-! ## Later tables -/

/-- A later table in which generalized variables are as they were, and what was monomorphic is so. -/
structure Upholds (T S : Table) : Prop extends T.Preserves S where
  monomorphic : ∀ t, T.Monomorphic t → S.Monomorphic t

theorem Upholds.refl (hT : T.Tame) : T.Upholds T :=
  ⟨⟨.refl hT, le_rfl, fun _ => rfl, fun _ _ h => h⟩, fun _ h => h⟩

theorem Upholds.trans (h : T.Upholds S) (h' : S.Upholds U) : T.Upholds U :=
  ⟨h.toPreserves.trans h'.toPreserves, fun t ht => h'.monomorphic t (h.monomorphic t ht)⟩

theorem Respects.upholds (h : T.Respects S) (hg : T.Grows S) : T.Upholds S :=
  ⟨⟨hg, h.size.ge, h.marks, h.generalized⟩, fun _ => h.monomorphic⟩

/-- A later table over more variables. The new ones are flexible. -/
structure Onward (vs : List TyVar) (T : Table) (ws : List TyVar) (S : Table) : Prop where
  more : vs <+: ws
  inv : S.Inv ws
  extend : T.Extends S
  upholds : T.Upholds S
  flexible : ∀ v ∈ ws, v ∉ vs → v.rigid = false

theorem Inv.tame (hT : T.Inv vs) : T.Tame := ⟨hT.acyclic, hT.quiet⟩

namespace Onward

theorem refl (hT : T.Inv vs) : T.Onward vs vs T :=
  ⟨List.prefix_rfl, hT, (Same.refl T).extends, .refl hT.tame, fun _ hv hn => absurd hv hn⟩

theorem trans (h : T.Onward us vs S) (h' : S.Onward vs ws U) : T.Onward us ws U where
  more := h.more.trans h'.more
  inv := h'.inv
  extend := h.extend.trans h'.extend
  upholds := h.upholds.trans h'.upholds
  flexible v hv hn := by
    by_cases hmem : v ∈ vs
    · exact h.flexible v hmem hn
    · exact h'.flexible v hv hmem

theorem subset (h : T.Onward us vs S) : us ⊆ vs := h.more.subset

theorem unionFree (h : T.Onward us vs S) (ht : (T.deep t).UnionFree) : (S.deep t).UnionFree := by
  obtain ⟨δ, hδ, hd⟩ := h.extend.subst
  rw [hd]
  exact Ty.unionFree_subst.mpr ⟨ht, fun v _ => hδ v⟩

/-- Only new variables are given values. -/
theorem fixesRigid (h : T.Onward us vs S) (hθ : ∀ v ∈ us, θ' v = θ v) (hfix : FixesRigid us θ) :
    FixesRigid vs θ' := fun v hv hr => by
  by_cases hmem : v ∈ us
  · exact (hθ v hmem).trans (hfix v hmem hr)
  · exact absurd hr (by rw [h.flexible v hv hmem]; exact nofun)

end Onward

/-! ## Relations that are determined -/

/-- The later table has those solutions that satisfy a relation between what is assigned to the old variables
and what is read off in the later table. -/
structure Determines {β : Type} (vs : List TyVar) (T : Table) (ws : List TyVar) (S : Table)
    (read : (TyVar → Ty) → β) (R : (TyVar → Ty) → β → Prop) : Prop extends T.Onward vs ws S where
  sound : ∀ θ, S.Solves Ty.erase ws θ → T.Solves Ty.erase vs θ ∧ R θ (read θ)
  complete : ∀ θ b, T.Solves Ty.erase vs θ → R θ b →
    ∃ θ', (∀ v ∈ vs, θ' v = θ v) ∧ S.Solves Ty.erase ws θ' ∧ read θ' = b

/-- What is asked of the types that are unified: no unions, and no generalized variables. -/
structure Fit (vs : List TyVar) (T : Table) (t : Ty) : Prop where
  written : t.Over vs
  unionFree : (T.deep t).UnionFree
  monomorphic : T.Monomorphic t

namespace Fit

theorem onward (h : T.Fit vs t) (hS : T.Onward vs ws S) : S.Fit ws t where
  written := h.written.mono fun _ hv => hS.subset hv
  unionFree := hS.unionFree h.unionFree
  monomorphic := hS.upholds.monomorphic t h.monomorphic

theorem part (h : T.Fit vs t) {c : Ty} (hc : c.Part t) : T.Fit vs c :=
  ⟨h.written.part hc, (hc.subst _).unionFree h.unionFree, h.monomorphic.part hc⟩

theorem name (n : String) : T.Fit vs (.name n) := ⟨.name n, trivial, nofun⟩

theorem array (h : T.Fit vs t) : T.Fit vs (.array t) := ⟨h.written.array, h.unionFree, h.monomorphic⟩

theorem tuple {ts : List Ty} (h : ∀ t ∈ ts, T.Fit vs t) : T.Fit vs (.tuple ts) where
  written := .tuple fun t ht => (h t ht).written
  unionFree := by
    rw [deep_tuple]
    exact (Ty.unionFreeList_iff _).mpr (List.forall_mem_map.mpr fun t ht => (h t ht).unionFree)
  monomorphic := monomorphic_iff_vars.mpr fun v hv => by
    rw [Ty.vars, Ty.varsList_eq] at hv
    obtain ⟨t, ht, hv⟩ := List.mem_flatMap.mp hv
    exact monomorphic_iff_vars.mp (h t ht).monomorphic v hv

theorem record {fs : List (String × Ty)} (hsorted : Fields.Sorted fs) (h : ∀ f ∈ fs, T.Fit vs f.2) :
    T.Fit vs (.record fs) where
  written := .record hsorted fun f hf => (h f hf).written
  unionFree := by
    rw [deep_record]
    exact (Ty.unionFreeFields_iff _).mpr (List.forall_mem_map.mpr fun f hf => (h f hf).unionFree)
  monomorphic := monomorphic_iff_vars.mpr fun v hv => by
    rw [Ty.vars, Ty.varsFields_eq] at hv
    obtain ⟨f, hf, hv⟩ := List.mem_flatMap.mp hv
    exact monomorphic_iff_vars.mp (h f hf).monomorphic v hv

end Fit

/-- **Unification determines an equation**; if it fails, no assignment solves it that leaves rigid variables
alone. -/
theorem determines_unify (hT : T.Inv vs) (ht : T.Fit vs t) (hu : T.Fit vs u) : match T.unify t u with
    | .ok _ S => T.Determines vs vs S (fun _ => ()) fun θ _ => Equates t u θ
    | .error _ _ => ∀ θ, T.Solves Ty.erase vs θ → FixesRigid vs θ → ¬ Equates t u θ := by
  have hdecides := unify_decides hT ht.written hu.written ht.unionFree hu.unionFree
  have hrespects := hT.tame.respects_unify ht.monomorphic hu.monomorphic
  have hgrows := hT.tame.unify t u
  cases hunify : T.unify t u with
  | ok _ S =>
    rw [hunify] at hdecides hrespects hgrows
    exact
      { more := List.prefix_rfl
        inv := hdecides.inv
        extend := hdecides.extend
        upholds := hrespects.upholds hgrows
        flexible := fun _ hv hn => absurd hv hn
        sound := fun θ hθ => (hdecides.solves θ).mp hθ
        complete := fun θ _ hθ hE => ⟨θ, fun _ _ => rfl, (hdecides.solves θ).mpr ⟨hθ, hE⟩, rfl⟩ }
  | error e S =>
    rw [hunify] at hdecides
    exact hdecides

/-- Looking for a representative determines nothing. -/
theorem onward_resolve (hT : T.Inv vs) (ht : T.Fit vs t) : T.Onward vs vs (T.resolve t).2 := by
  have hagrees := (resolve_spec hT ht.written).1
  have hrespects := ((Respects.changes T).toShortcuts.resolve (.refl hT.tame) ht.monomorphic).2
  exact ⟨List.prefix_rfl, hagrees.inv, hagrees.same.extends, hrespects.upholds (hT.tame.resolve t).1,
    fun _ hv hn => absurd hv hn⟩

/-! ## Further variables -/

/-- A table that says the same with new variables, which are flexible. -/
theorem onward_append {new : List TyVar} (hS : S.Inv (vs ++ new)) (hb : ∀ id, S.isBound id = T.isBound id)
    (hd : ∀ t, S.deep t = T.deep t) (hupholds : T.Upholds S) (hnew : ∀ v ∈ new, v.rigid = false) :
    T.Onward vs (vs ++ new) S where
  more := List.prefix_append vs new
  inv := hS
  extend := by
    refine ⟨fun id hid => ?_, .var, fun _ => trivial, fun t => by rw [hd, Ty.subst_var]⟩
    rwa [← isBound_eq_false, hb, isBound_eq_false] at hid
  upholds := hupholds
  flexible v hv hn := hnew v ((List.mem_append.mp hv).resolve_left hn)

/-- New variables that are unbound may stand for anything. -/
theorem solves_append (vs : List TyVar) {new : List TyVar} (hd : ∀ t, S.deep t = T.deep t)
    (hnew : ∀ v ∈ new, T.binding? v.id = none) :
    S.Solves Ty.erase (vs ++ new) θ ↔ T.Solves Ty.erase vs θ := by
  simp only [Solves, hd]
  refine ⟨fun h v hv => h v (List.mem_append_left _ hv), fun h v hv => ?_⟩
  rcases List.mem_append.mp hv with hv | hv
  · exact h v hv
  · rw [deep_var_of_unbound (hnew v hv)]
    rfl

theorem determines_newVar (hT : T.Inv vs) (name : String) (level : Nat) :
    T.Determines vs (vs ++ [(T.newVar name false false level).1]) (T.newVar name false false level).2
      (fun θ => θ (T.newVar name false false level).1) (fun _ _ => True) ∧
    (T.newVar name false false level).2.Fit (vs ++ [(T.newVar name false false level).1])
      (.var (T.newVar name false false level).1) := by
  let v := (T.newVar name false false level).1
  have hb := binding?_newVar (T := T) name false false level
  have hd := deep_congr hT.acyclic hb
  have hmarks := isGeneralized_newVar (T := T) name false false level
  have hinv := hT.newVar name false false level
  have hupholds : T.Upholds (T.newVar name false false level).2 := by
    refine ⟨⟨hT.tame.newVar name false false level, by simp, hmarks, fun id _ hu => (hb id).trans hu⟩, ?_⟩
    exact fun t ht => ht.congr (hd t) hmarks
  have hu : T.binding? v.id = none := binding?_of_size_le le_rfl
  have hnew : v ∉ vs := fun hv => absurd (hT.lt_size hv) (Nat.lt_irrefl T.size)
  have honward := onward_append hinv (fun id => by simp only [isBound, hb]) hd hupholds
    (List.forall_mem_singleton.mpr rfl)
  have hsolves {θ : TyVar → Ty} := @solves_append _ _ θ vs _ hd (List.forall_mem_singleton.mpr hu)
  refine ⟨{ honward with
    sound := fun θ hθ => ⟨hsolves.mp hθ, trivial⟩
    complete := fun θ b hθ _ => ?_ }, .var (List.mem_append_right _ (List.mem_singleton_self v)), ?_, ?_⟩
  · have hold : ∀ w ∈ vs, Function.update θ v b w = θ w := fun w hw =>
      Function.update_of_ne (ne_of_mem_of_not_mem hw hnew) _ _
    refine ⟨Function.update θ v b, hold, hsolves.mpr fun w hw => ?_, Function.update_self v b θ⟩
    rw [hold w hw, hθ w hw]
    exact ((hT.over_deep (.var hw)).subst_congr hold).symm
  · rw [hd, deep_var_of_unbound hu]
    trivial
  · rw [monomorphic_var_of_unbound ((hb v.id).trans hu), hmarks]
    exact isGeneralized_of_size_le le_rfl

/-! ## Instances -/

/-- A type is an instance of a generic one: generalized variables stand for anything, the others for what is
assigned to them. -/
def HasInstance (T : Table) (t : Ty) (θ : TyVar → Ty) (τ : Ty) : Prop :=
  ∃ μ : TyVar → Ty, (T.deep t).erase.subst (fun v => if T.isGeneralized v.id then μ v else θ v) = τ

/-- Only what is assigned to the variables of the table matters. -/
theorem HasInstance.congr (hT : T.Inv vs) (ht : t.Over vs) (hθ : ∀ v ∈ vs, θ v = θ' v)
    (h : T.HasInstance t θ τ) : T.HasInstance t θ' τ := by
  obtain ⟨μ, rfl⟩ := h
  refine ⟨μ, (hT.over_deep ht).subst_congr fun v hv => ?_⟩
  rw [hθ v hv]

/-- **Instances are the same for later tables**, under the assignments that solve these. -/
theorem Onward.hasInstance_iff (hS : T.Onward vs ws S) (hT : T.Inv vs) (ht : t.Over vs)
    (hθ : S.Solves Ty.erase ws θ) : S.HasInstance t θ τ ↔ T.HasInstance t θ τ := by
  have hmarks := hS.upholds.marks
  have key (μ : TyVar → Ty) : (S.deep t).erase.subst (fun v => if S.isGeneralized v.id then μ v else θ v) =
      (T.deep t).erase.subst (fun v => if T.isGeneralized v.id then μ v else θ v) := by
    rw [← hS.upholds.grows.deep, deep_eq_subst (T := S), Ty.erase_subst, Ty.subst_subst]
    refine Ty.subst_congr fun v hv => ?_
    rw [Ty.vars_erase] at hv
    have hu := unbound_of_mem_vars_deep hT.acyclic hv
    cases hg : T.isGeneralized v.id with
    | true =>
      rw [deep_var_of_unbound (hS.upholds.generalized v.id hg hu)]
      exact if_pos ((hmarks v.id).trans hg)
    | false =>
      -- nothing generalized remains in what the variable has become
      have hmono := hS.upholds.monomorphic _ ((monomorphic_var_of_unbound hu).mpr hg)
      have hvs := (hT.over_deep ht).vars v hv
      rw [if_neg Bool.false_ne_true, hθ v (hS.subset hvs)]
      refine Ty.subst_congr fun w hw => if_neg ?_
      rw [hmono w (Ty.vars_erase _ ▸ hw)]
      exact Bool.false_ne_true
  simp only [HasInstance, key]

/-- **Instantiation determines** that its answer is an instance. -/
theorem determines_instantiate (hT : T.Inv vs) (ht : t.Over vs) (hf : (T.deep t).UnionFree) (level : Nat) :
    T.Determines vs (vs ++ (T.instantiate t level).2.1) (T.instantiate t level).2.2
      (fun θ => (T.instantiate t level).1.erase.subst θ) (T.HasInstance t) ∧
    (T.instantiate t level).2.2.Fit (vs ++ (T.instantiate t level).2.1) (T.instantiate t level).1 := by
  obtain ⟨S, hmade, heq⟩ := T.instantiate_eq hT.acyclic t level
  have hinv := hT.instantiate ht level
  obtain ⟨hmono, hmonos⟩ := monomorphic_instantiate hT.acyclic t level
  have hpreserves := hT.tame.preserves_instantiate t level
  obtain ⟨ρ, hρ⟩ := isInstance_instantiate hT.acyclic t level
  have htype := hρ.type
  have hfresh := hρ.fresh
  rw [(steady_resolveDeep hT.acyclic t).1] at htype hfresh
  have hd : ∀ u, (T.instantiate t level).2.2.deep u = T.deep u := heq ▸ hmade.deep
  have hb : ∀ id, (T.instantiate t level).2.2.isBound id = T.isBound id := heq ▸ hmade.isBound
  have hcopies : ∀ v ∈ (T.deep t).vars, T.isGeneralized v.id = true →
      v ∈ (T.deep t).distinctVars.filter fun v => T.isGeneralized v.id := fun v hv hg => by
    obtain ⟨w, hw, hid⟩ := Ty.exists_mem_firstOccurrences hv
    have hover := (hT.over_deep ht).vars
    obtain rfl := hT.eq_of_id (hover w (Ty.mem_firstOccurrences hw).1) (hover v hv) hid
    exact List.mem_filter.mpr ⟨hw, hg⟩
  have hnew : ∀ w ∈ (T.instantiate t level).2.1, T.size ≤ w.id ∧ w.rigid = false := fun w hw => by
    refine ⟨(List.mem_range'_1.mp (hρ.numbers ▸ List.mem_map_of_mem hw)).1, ?_⟩
    rw [hfresh] at hw
    obtain ⟨v, hv, rfl⟩ := List.mem_map.mp hw
    obtain ⟨hv, hg⟩ := List.mem_filter.mp hv
    exact (hρ.copy v ((steady_resolveDeep hT.acyclic t).1 ▸ hv) hg).2.2
  have honward := onward_append hinv hb hd ⟨hpreserves, hmonos⟩ fun w hw => (hnew w hw).2
  have hsolves {θ : TyVar → Ty} := @solves_append _ _ θ vs _ hd fun w hw => binding?_of_size_le (hnew w hw).1
  refine ⟨{ honward with sound := fun θ hθ => ⟨hsolves.mp hθ, fun v => θ (ρ v), ?_⟩, complete := ?_ }, ?_⟩
  · rw [htype, Ty.erase_subst, Ty.subst_subst]
    refine Ty.subst_congr fun v hv => ?_
    split
    · rfl
    · next hg =>
      show θ v = θ (ρ v)
      rw [hρ.kept v (Bool.not_eq_true _ ▸ hg)]
  · rintro θ τ hθ ⟨μ, rfl⟩
    -- a copy gets what the variable that it replaces stands for
    let L := (T.deep t).distinctVars.filter fun v => T.isGeneralized v.id
    have hinj : Set.InjOn ρ {v | v ∈ L} := by
      have hnodup : ((T.instantiate t level).2.1.map (·.id)).Nodup := hρ.numbers ▸ List.nodup_range'
      exact List.inj_on_of_nodup_map (hfresh ▸ hnodup.of_map)
    let κ : TyVar → Ty := fun w => if w ∈ vs then θ w else μ (Function.invFunOn ρ {v | v ∈ L} w)
    have hold : ∀ w ∈ vs, κ w = θ w := fun w hw => if_pos hw
    have hcopy : ∀ v ∈ L, κ (ρ v) = μ v := fun v hv => by
      have hnot : ρ v ∉ vs := fun hmem => by
        have := hT.lt_size hmem
        have := (hnew (ρ v) (hfresh ▸ List.mem_map_of_mem hv)).1
        omega
      rw [show κ (ρ v) = _ from if_neg hnot, hinj.leftInvOn_invFunOn hv]
    refine ⟨κ, hold, hsolves.mpr fun w hw => ?_, ?_⟩
    · rw [hold w hw, hθ w hw]
      exact ((hT.over_deep (.var hw)).subst_congr hold).symm
    · rw [htype, Ty.erase_subst, Ty.subst_subst]
      refine Ty.subst_congr fun v hv => ?_
      rw [Ty.vars_erase] at hv
      show κ (ρ v) = _
      split
      · next hg => exact hcopy v (hcopies v hv hg)
      · next hg =>
        rw [hρ.kept v (Bool.not_eq_true _ ▸ hg)]
        exact hold v ((hT.over_deep ht).vars v hv)
  · have hmem : ∀ v ∈ (T.deep t).vars, ρ v ∈ vs ++ (T.instantiate t level).2.1 ∧ T.binding? (ρ v).id = none :=
      fun v hv => by
        cases hg : T.isGeneralized v.id with
        | true =>
          have hw : ρ v ∈ (T.instantiate t level).2.1 := hfresh ▸ List.mem_map_of_mem (hcopies v hv hg)
          exact ⟨List.mem_append_right _ hw, binding?_of_size_le (hnew _ hw).1⟩
        | false =>
          rw [hρ.kept v hg]
          exact ⟨List.mem_append_left _ ((hT.over_deep ht).vars v hv), unbound_of_mem_vars_deep hT.acyclic hv⟩
    refine ⟨?_, ?_, hmono⟩
    · rw [htype]
      exact (hT.over_deep ht).subst fun v hv => .var (hmem v hv).1
    · rw [hd, htype, deep_eq_subst, Ty.subst_subst]
      refine Ty.unionFree_subst.mpr ⟨hf, fun v hv => ?_⟩
      show (T.deep (.var (ρ v))).UnionFree
      rw [deep_var_of_unbound (hmem v hv).2]
      trivial

/-! ## Tables with the same solutions -/

/-- The solution of a table that leaves its unbound variables alone. -/
def solution (T : Table) (v : TyVar) : Ty := (T.deep (.var v)).erase

theorem erase_deep (t : Ty) : (T.deep t).erase = t.erase.subst T.solution := by
  rw [deep_eq_subst, Ty.erase_subst]
  rfl

theorem Inv.solves_solution (hT : T.Inv vs) : T.Solves Ty.erase vs T.solution := by
  have h := solves_subst_deep hT.acyclic Ty.natural_erase vs .var
  simp only [Ty.subst_var] at h
  exact h

theorem Inv.fixesRigid_solution (hT : T.Inv vs) : FixesRigid vs T.solution := fun v hv hr => by
  rw [solution, deep_var_of_unbound (hT.now.rigid v hv hr), Ty.erase]

/-- What is assigned to the old variables in a solution of the later table. -/
theorem Solves.subst_solution (hS : S.Solves Ty.erase ws θ) {v : TyVar} (hv : v ∈ ws) :
    (S.solution v).subst θ = θ v := (hS v hv).symm

/-- **Tables that determine the same** differ in a renaming of variables, which leaves rigid ones alone. -/
theorem Determines.exists_renaming {β : Type} {read read' : (TyVar → Ty) → β} {R : (TyVar → Ty) → β → Prop}
    {ws' : List TyVar} (h : T.Determines vs ws S read R) (h' : T.Determines vs ws' U read' R) :
    ∃ ρ : TyVar → TyVar, (∀ v ∈ vs, (S.solution v).subst (fun w => .var (ρ w)) = U.solution v) ∧
      Set.InjOn ρ {w | ∃ v ∈ vs, w ∈ (S.solution v).vars} ∧ ∀ v ∈ vs, v.rigid = true → ρ v = v := by
  -- the solution of each of the tables is an instance of what the other one says
  have hinstance {ws ws' : List TyVar} {S U : Table} {read read' : (TyVar → Ty) → β}
      (h : T.Determines vs ws S read R) (h' : T.Determines vs ws' U read' R) :
      ∃ σ : TyVar → Ty, ∀ v ∈ vs, (S.solution v).subst σ = U.solution v := by
    obtain ⟨hsol, hR⟩ := h'.sound _ h'.inv.solves_solution
    obtain ⟨σ, hσ, hS, -⟩ := h.complete _ _ hsol hR
    exact ⟨σ, fun v hv => (hS.subst_solution (h.subset hv)).trans (hσ v hv)⟩
  obtain ⟨σ, hσ⟩ := hinstance h h'
  obtain ⟨τ, hτ⟩ := hinstance h' h
  obtain ⟨ρ, hρ, hinj⟩ := Ty.exists_renaming (ι := {v // v ∈ vs}) (a := fun v => S.solution v)
    (b := fun v => U.solution v) (fun v => hσ v v.2) fun v => hτ v v.2
  refine ⟨ρ, fun v hv => hρ ⟨v, hv⟩, hinj.mono ?_, fun v hv hr => ?_⟩
  · rintro w ⟨v, hv, hw⟩
    exact ⟨⟨v, hv⟩, hw⟩
  · have heq := hρ ⟨v, hv⟩
    rw [h.inv.fixesRigid_solution v (h.subset hv) hr, h'.inv.fixesRigid_solution v (h'.subset hv) hr] at heq
    exact Ty.var.inj heq

end Table

end Reified
