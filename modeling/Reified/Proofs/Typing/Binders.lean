import Reified.Proofs.Typing.Contained

/-!
# Written types, parameters and patterns above a base

The actions of the checker that do not look into expressions: what written types stand for, what a call
puts in place of inferred parameters, and what functions and patterns bind names to.

## Main results

* `Scope.vars_interpret` — where the variables of a written type come from
* `Check.contains_typeExpr`, `Check.contains_instantiateImplicit` — live types
* `Check.contains_hoist`, `Check.contains_paramTypes`, `Check.contains_pattern` — names for live types
-/

namespace Reified

/-! ## Written types -/

namespace Scope

variable {s : Scope}

mutual

/-- The variables of what a written type stands for come from the types in scope. -/
theorem vars_interpret : (t : TypeExpr) → {u : Ty} → s.interpret t = .ok u →
    ∀ v ∈ u.vars, ∃ n w, s.lookupType n = some w ∧ v ∈ w.vars
  | .name n span, u, hu, v, hv => by
    rw [interpret] at hu
    split at hu
    · next t ht =>
      cases hu
      exact ⟨n, u, ht, hv⟩
    · split at hu
      · cases hu
        exact absurd hv List.not_mem_nil
      · cases hu
  | .array t, u, hu, v, hv => by
    rw [interpret] at hu
    obtain ⟨w, hw, hu⟩ := exists_of_bind_eq_ok hu
    cases hu
    exact vars_interpret t hw v hv
  | .tuple ts, u, hu, v, hv => by
    rw [interpret] at hu
    obtain ⟨ws, hws, hu⟩ := exists_of_bind_eq_ok hu
    cases hu
    exact vars_interpretList ts hws v hv
  | .record fs, u, hu, v, hv => by
    rw [interpret] at hu
    obtain ⟨ws, hws, hu⟩ := exists_of_bind_eq_ok hu
    cases hu
    exact vars_interpretFields fs hws v hv
  | .fn ps r, u, hu, v, hv => by
    rw [interpret] at hu
    obtain ⟨ws, hws, hu⟩ := exists_of_bind_eq_ok hu
    obtain ⟨w, hw, hu⟩ := exists_of_bind_eq_ok hu
    cases hu
    exact (List.mem_append.mp hv).elim (vars_interpretList ps hws v) (vars_interpret r hw v)
  | .union a b, u, hu, v, hv => by
    rw [interpret] at hu
    obtain ⟨w, hw, hu⟩ := exists_of_bind_eq_ok hu
    obtain ⟨w', hw', hu⟩ := exists_of_bind_eq_ok hu
    cases hu
    exact (List.mem_append.mp hv).elim (vars_interpret a hw v) (vars_interpret b hw' v)

theorem vars_interpretList : (ts : List TypeExpr) → {us : List Ty} → s.interpretList ts = .ok us →
    ∀ v ∈ Ty.varsList us, ∃ n w, s.lookupType n = some w ∧ v ∈ w.vars
  | [], us, hu, v, hv => by
    cases hu
    exact absurd hv List.not_mem_nil
  | t :: ts, us, hu, v, hv => by
    rw [interpretList] at hu
    obtain ⟨w, hw, hu⟩ := exists_of_bind_eq_ok hu
    obtain ⟨ws, hws, hu⟩ := exists_of_bind_eq_ok hu
    cases hu
    exact (List.mem_append.mp hv).elim (vars_interpret t hw v) (vars_interpretList ts hws v)

theorem vars_interpretFields : (fs : List (String × TypeExpr)) → {us : List (String × Ty)} →
    s.interpretFields fs = .ok us → ∀ v ∈ Ty.varsFields us, ∃ n w, s.lookupType n = some w ∧ v ∈ w.vars
  | [], us, hu, v, hv => by
    cases hu
    exact absurd hv List.not_mem_nil
  | (name, t) :: fs, us, hu, v, hv => by
    rw [interpretFields] at hu
    obtain ⟨w, hw, hu⟩ := exists_of_bind_eq_ok hu
    obtain ⟨ws, hws, hu⟩ := exists_of_bind_eq_ok hu
    cases hu
    exact (List.mem_append.mp hv).elim (vars_interpret t hw v) (vars_interpretFields fs hws v)

end

end Scope

namespace Check

open Checker (Held Left)

variable {α β : Type} {B : Base} {p q r : Position} {known : Table → Prop}

theorem contains_typeExpr (t : TypeExpr) :
    Contains B p p known (fun r T => B.Live T r) (typeExpr t) := by
  intro s hs hk
  cases ht : s.scope.interpret t with
  | ok u =>
    rw [typeExpr_of_ok ht]
    refine ⟨hs, hs.later, fun T hT => hT.live _ le_rfl _ (Table.Remains.of_parts fun v hv => ?_)⟩
    obtain ⟨n, w, hw, hv⟩ := Scope.vars_interpret t ht v hv
    exact ⟨w, hv, hs.covers.lookupType hw⟩
  | error e =>
    rw [typeExpr_of_error ht]
    exact hs.left

theorem contains_optionalType (name : String) (t : Option TypeExpr) :
    Contains B p p known (fun r T => B.Live T r) (optionalType name t) := by
  cases t with
  | some t => exact contains_typeExpr t
  | none => exact contains_freshVar name

theorem contains_typeValue (t : TypeExpr) (span : Span) :
    Contains B p p known Anything (typeValue t span) := by
  refine (contains_typeExpr t).bind fun _ => Contains.get.bind fun s => ?_
  dsimp only
  split
  · exact .fail _ _
  · exact .pure fun _ _ => trivial

/-! ## Implicit parameters -/

theorem contains_openSlots (span : Span) (types : List Ty) (image : List (Nat × Ty))
    (slots : List Ty) (htypes : ∀ T, known T → ∀ t ∈ types, B.Live T t)
    (himage : ∀ T, known T → ∀ x ∈ image, B.Live T x.2) :
    Contains B p p known (fun r T => ∀ x ∈ r.1, B.Live T x.2) (openSlots span types image slots) := by
  induction types generalizing image slots known with
  | nil => exact .pure himage
  | cons slot rest ih =>
    have hhead : ∀ T, known T → B.Live T slot := fun T hk => htypes T hk slot List.mem_cons_self
    have hinner : ∀ T, known T → B.Live T slot.slotType.2 := fun T hk => by
      cases slot with
      | binding n t => exact (hhead T hk).part .inner
      | _ => exact hhead T hk
    rw [openSlots_cons]
    refine (contains_resolve hinner).bind fun inner => (contains_newVar _ true false).bind fun v => ?_
    split
    · refine ih _ _ (fun T hk t ht => htypes T hk.1.1 t (List.mem_cons_of_mem _ ht)) fun T hk => ?_
      exact List.forall_mem_cons.mpr ⟨hk.2, himage T hk.1.1⟩
    · refine (contains_unify span (fun T hk => hk.2) fun T hk => hk.1.2).bind fun _ => ?_
      exact ih _ _ (fun T hk t ht => htypes T hk.1.1.1 t (List.mem_cons_of_mem _ ht)) fun T hk =>
        himage T hk.1.1.1

theorem contains_substituteAll (image : List (Nat × Ty)) (done types : List Ty)
    (himage : ∀ T, known T → ∀ x ∈ image, B.Live T x.2)
    (hdone : ∀ T, known T → ∀ t ∈ done, B.Live T t) (htypes : ∀ T, known T → ∀ t ∈ types, B.Live T t) :
    Contains B p p known (fun r T => ∀ t ∈ r, B.Live T t) (substituteAll image done types) := by
  induction types generalizing done known with
  | nil => exact .pure fun T hk t ht => hdone T hk t (List.mem_reverse.mp ht)
  | cons t types ih =>
    rw [substituteAll]
    refine (contains_substitute (fun T hk => htypes T hk t List.mem_cons_self) himage).bind fun u => ?_
    refine ih _ (fun T hk => himage T hk.1) (fun T hk => ?_) fun T hk t ht =>
      htypes T hk.1 t (List.mem_cons_of_mem _ ht)
    exact List.forall_mem_cons.mpr ⟨hk.2, hdone T hk.1⟩

theorem contains_instantiateImplicit (params : List Ty) (result : Ty) (implicit : Nat) (span : Span)
    (hparams : ∀ T, known T → ∀ t ∈ params, B.Live T t) (hresult : ∀ T, known T → B.Live T result) :
    Contains B p p known (fun r T => (∀ t ∈ r.1, B.Live T t) ∧ B.Live T r.2.1)
      (instantiateImplicit params result implicit span) := by
  unfold instantiateImplicit
  split
  · exact .pure fun T hk => ⟨hparams T hk, hresult T hk⟩
  · refine (contains_openSlots span _ _ _ (fun T hk t ht => hparams T hk t (List.mem_of_mem_take ht))
      fun _ _ => List.forall_mem_nil _).bind fun r => ?_
    refine (contains_substituteAll _ _ _ (fun T hk => hk.2) (fun _ _ => List.forall_mem_nil _)
      fun T hk => hparams T hk.1).bind fun ts => ?_
    refine (contains_substitute (fun T hk => hresult T hk.1.1) fun T hk => hk.1.2).bind fun u => ?_
    exact .pure fun T hk => ⟨hk.1.2, hk.2⟩

/-! ## Expected types -/

theorem contains_expectedForm {expected : Option Ty} (h : ∀ T, known T → ∀ t ∈ expected, B.Live T t) :
    Contains B p p known (fun r T => ∀ t ∈ r, B.Live T t) (expectedForm expected) := by
  cases expected with
  | some t =>
    refine (contains_resolve fun T hk => h T hk t rfl).map fun T _ u hu => ?_
    rintro _ ⟨⟩
    exact hu
  | none => exact .pure fun _ _ t ht => absurd ht (Option.not_mem_none t)

theorem contains_completion {expected : Ty} (rest : List Decl) (h : ∀ T, known T → B.Live T expected) :
    Contains B p p known (fun r T => B.Live T r) (completion expected rest) := by
  unfold completion
  split
  · exact .pure h
  · exact contains_freshVar ""

/-- A unification at the end of a check. -/
theorem contains_unless {c : Prop} [Decidable c] {t u : Ty} {span : Span} {a : α}
    (ht : ∀ T, known T → B.Live T t) (hu : ∀ T, known T → B.Live T u) :
    Contains B p p known Anything (do
      unless c do unify t u span
      return a) := by
  split
  · exact .pure fun _ _ => trivial
  · exact (contains_unify span ht hu).bind fun _ => .pure fun _ _ => trivial

/-! ## Functions and patterns -/

theorem contains_hoist (ds : List Decl) : Contains B p.inScope p.inScope known Anything (hoist ds) := by
  induction ds generalizing known with
  | nil => exact .pure fun _ _ => trivial
  | cons d ds ih =>
    cases d with
    | fn head body =>
      rw [hoist]
      refine (contains_freshVar _).bind fun t => ?_
      exact (contains_bindValue _ fun T hk => hk.2.scheme).bind fun _ => ih
    | letDecl d => rw [hoist_letDecl]; exact ih
    | stmt s => rw [hoist_stmt]; exact ih

theorem contains_bindTypeParams (names : List String) :
    Contains B p.inScope p.inScope known Anything (bindTypeParams names) := by
  induction names generalizing known with
  | nil => exact .pure fun _ _ => trivial
  | cons name names ih =>
    rw [bindTypeParams]
    refine (contains_newVar name false true).bind fun t => ?_
    exact (contains_bindType name fun T hk => hk.2).bind fun _ => ih

theorem contains_paramTypes (done : List Ty) (implicit : Nat) (ps : List Param)
    (hdone : ∀ T, known T → ∀ t ∈ done, B.Live T t) :
    Contains B p.inScope p.inScope known (fun r T => ∀ t ∈ r.1, B.Live T t)
      (paramTypes done implicit ps) := by
  induction ps generalizing done implicit known with
  | nil => exact .pure fun T hk t ht => hdone T hk t (List.mem_reverse.mp ht)
  | cons param ps ih =>
    have hbind : ∀ {known}, (∀ T, known T → ∀ t ∈ done, B.Live T t) →
        Contains B p.inScope p.inScope known (fun r T => ∀ t ∈ r.1, B.Live T t) (do
          let v ← newVar param.name true true
          bindType param.name v
          paramTypes (.binding param.name v :: done) (implicit + 1) ps) := fun hdone => by
      refine (contains_newVar param.name true true).bind fun v => ?_
      refine (contains_bindType param.name fun T hk => hk.2).bind fun _ => ih _ _ fun T hk => ?_
      exact List.forall_mem_cons.mpr ⟨hk.1.2.binding, hdone T hk.1.1⟩
    rw [paramTypes]
    split
    · split
      · exact (Contains.fail _ _ : Contains B _ p.inScope _ Anything _).bind fun _ =>
          hbind fun T hk => hdone T hk.1
      · exact hbind hdone
    · refine (contains_optionalType param.name param.annotation).bind fun t => ih _ _ fun T hk => ?_
      exact List.forall_mem_cons.mpr ⟨hk.2, hdone T hk.1⟩

theorem contains_bindParams (ps : List Param) (types : List Ty)
    (htypes : ∀ T, known T → ∀ t ∈ types, B.Live T t) :
    Contains B p.inScope p.inScope known Anything (bindParams ps types) := by
  induction ps generalizing types known with
  | nil => exact .pure fun _ _ => trivial
  | cons param ps ih =>
    cases types with
    | nil => exact .pure fun _ _ => trivial
    | cons t types =>
      rw [bindParams]
      refine (contains_bindValue _ fun T hk => ?_).bind fun _ => ih _ fun T hk u hu =>
        htypes T hk.1 u (List.mem_cons_of_mem _ hu)
      split
      · exact Table.Remains.name _
      · exact (htypes T hk t List.mem_cons_self).scheme

section pattern

variable [Policy]

mutual

/-- Matching against a live type binds names to live types. -/
theorem contains_pattern : (pat : Pattern) → ∀ {known : Table → Prop} {t : Ty},
    (∀ T, known T → B.Live T t) → Contains B p.inScope p.inScope known Anything (pattern t pat)
  | .ident name _, known, t, ht => by
    rw [pattern]
    exact contains_bindValue name fun T hk => (ht T hk).scheme
  | .any _, known, t, ht => by
    rw [pattern]
    exact .pure fun _ _ => trivial
  | .literal v span, known, t, ht => by
    rw [pattern]
    refine contains_unify span ht fun T _ => ?_
    cases v <;> exact Table.Remains.name _
  | .object entries span, known, t, ht => by
    rw [pattern]
    refine (contains_resolve ht).bind fun u => ?_
    split
    · next fs =>
      exact contains_entryPatterns entries (fun T hk => ht T hk.1) fun T hk f hf =>
        hk.2.part (.record hf)
    · exact (contains_unknown span).bind fun _ => contains_freshPatterns entries
    · exact (contains_unknown span).bind fun _ => contains_freshPatterns entries
    · exact (contains_resolveDeep fun T hk => hk.2.scheme).bind fun _ => .fail _ _

theorem contains_entryPatterns : (entries : List (String × Pattern)) →
    ∀ {known : Table → Prop} {t : Ty} {fs : List (String × Ty)} {span : Span},
    (∀ T, known T → B.Live T t) → (∀ T, known T → ∀ f ∈ fs, B.Live T f.2) →
    Contains B p.inScope p.inScope known Anything (entryPatterns t fs span entries)
  | [], known, t, fs, span, _, _ => by
    rw [entryPatterns]
    exact .pure fun _ _ => trivial
  | (name, pat) :: entries, known, t, fs, span, ht, hfs => by
    rw [entryPatterns]
    split
    · exact (contains_resolveDeep fun T hk => (ht T hk).scheme).bind fun _ => .fail _ _
    · next u hu =>
      refine (contains_pattern pat fun T hk => hfs T hk _ (Fields.mem_of_get?_eq_some hu)).bind
        fun _ => ?_
      exact contains_entryPatterns entries (fun T hk => ht T hk.1) fun T hk => hfs T hk.1

theorem contains_freshPatterns : (entries : List (String × Pattern)) → ∀ {known : Table → Prop},
    Contains B p.inScope p.inScope known Anything (freshPatterns entries)
  | [], known => by
    rw [freshPatterns]
    exact .pure fun _ _ => trivial
  | (name, pat) :: entries, known => by
    rw [freshPatterns]
    refine (contains_freshVar name).bind fun t => ?_
    exact (contains_pattern pat fun T hk => hk.2).bind fun _ => contains_freshPatterns entries

end

end pattern

end Check

end Reified
