import Reified.Proofs.Table.Live
import Reified.Proofs.Table.Monomorphic
import Reified.Proofs.Table.Reflexive

/-!
# A variable that is left out

As long as an unbound variable occurs in no binding and in none of the types that are computed with, nothing
binds it and it gets into no binding. New variables are others.

## Main definitions

* `Ty.Omits` — the variable does not occur in the type
* `Table.Omits` — the variable is unbound, and occurs in no binding

## Main results

* `Table.Omits.unify`, `Table.Omits.instantiate`, … — the operations on a table
* `Table.omits_newVar` — a new variable
* `Table.Omits.unify_self` — the variable itself can be unified with any type without it
-/

namespace Reified

/-- The variable does not occur in the type. -/
def Ty.Omits (id : Nat) (t : Ty) : Prop := ∀ w ∈ t.vars, w.id ≠ id

namespace Ty

variable {id : Nat} {t : Ty}

theorem Part.omits {c : Ty} (hc : c.Part t) (ht : t.Omits id) : c.Omits id :=
  fun w hw => ht w (hc.vars_subset hw)

theorem omits_var {v : TyVar} : (Ty.var v).Omits id ↔ v.id ≠ id := by
  simp [Omits, vars]

theorem omits_name (n : String) : (Ty.name n).Omits id := nofun

theorem Omits.array (h : t.Omits id) : (Ty.array t).Omits id := h

theorem Omits.binding (h : t.Omits id) (n : String) : (Ty.binding n t).Omits id := h

theorem omits_tuple {ts : List Ty} (h : ∀ t ∈ ts, t.Omits id) : (Ty.tuple ts).Omits id := fun w hw => by
  rw [vars, varsList_eq] at hw
  obtain ⟨t, ht, hw⟩ := List.mem_flatMap.mp hw
  exact h t ht w hw

theorem omits_record {fs : List (String × Ty)} (h : ∀ f ∈ fs, f.2.Omits id) : (Ty.record fs).Omits id :=
  fun w hw => by
    rw [vars, varsFields_eq] at hw
    obtain ⟨f, hf, hw⟩ := List.mem_flatMap.mp hw
    exact h f hf w hw

theorem omits_fn {ps : List Ty} {r : Ty} {k : Nat} (hps : ∀ t ∈ ps, t.Omits id) (hr : r.Omits id) :
    (Ty.fn ps r k).Omits id := fun w hw => by
  rw [vars] at hw
  exact (List.mem_append.mp hw).elim (omits_tuple hps w) (hr w)

theorem omits_union {a b : Ty} (ha : a.Omits id) (hb : b.Omits id) : (Ty.union a b).Omits id := fun w hw => by
  rw [vars] at hw
  exact (List.mem_append.mp hw).elim (ha w) (hb w)

end Ty

namespace Table

/-- The variable is one of the table, unbound, and occurs in no binding. -/
structure Omits (id : Nat) (T : Table) : Prop where
  tame : T.Tame
  known : id < T.size
  unbound : T.binding? id = none
  bindings : ∀ w t, T.binding? w = some t → t.Omits id

/-- An unbound variable has itself as an instance, or a new variable if it is generalized. -/
theorem instantiate_unbound {T : Table} {v : TyVar} (h : T.binding? v.id = none) (level : Nat) :
    T.instantiate (.var v) level = if T.isGeneralized v.id then
      (.var ⟨T.size, v.name, v.inferred, false⟩, [⟨T.size, v.name, v.inferred, false⟩],
        (T.newVar v.name v.inferred false level).2) else (.var v, [], T) := by
  have hresolve : T.resolve (.var v) = (.var v, T) := follow_of_unbound h T.size
  have hwithin : instantiateWithin level (T.size + 1) (.var v) ⟨T, []⟩ =
      if T.isGeneralized v.id then Instance.copy level v ⟨T, []⟩ else (.var v, ⟨T, []⟩) := by
    rw [instantiateWithin, Ty.replaceVarsM, Instance.resolveVar_bind, hresolve]
    dsimp only
    rw [Instance.isGeneralized_bind]
    split <;> rfl
  unfold Table.instantiate
  rw [hwithin]
  cases T.isGeneralized v.id <;> rfl

/-- The copy of a generalized variable is a new one. -/
theorem size_le_renamed {T : Table} {ws : List TyVar} {w : TyVar} (hw : w ∈ ws) (hg : T.isGeneralized w.id = true) :
    T.size ≤ (T.renamed ws w).id := by
  obtain ⟨x, hx, hid⟩ := exists_marked hw hg
  obtain ⟨i, hi, rfl⟩ := List.getElem_of_mem hx
  rw [← renamed_eq_of_id (mem_marked hx).1 (mem_marked hx).2 hid, renamed_getElem hi]
  exact Nat.le_add_right _ _

/-- What stands for a variable has an unbound variable as an instance. -/
theorem instantiate_var {T : Table} (hT : T.Acyclic) {t : Ty} {u : TyVar} (h : T.deep t = .var u) (level : Nat) :
    ∃ w, (T.instantiate t level).1 = .var w ∧ (T.instantiate t level).2.2.binding? w.id = none := by
  obtain ⟨S, hmade, heq⟩ := T.instantiate_eq hT t level
  have hu : u ∈ (T.deep t).vars := h ▸ List.mem_singleton_self u
  refine ⟨T.renamed (T.deep t).vars u, ?_, ?_⟩
  · rw [heq, h]
    rfl
  · rw [heq]
    refine isBound_eq_false.mp ((hmade.isBound _).trans (isBound_eq_false.mpr ?_))
    cases hg : T.isGeneralized u.id with
    | false =>
      rw [renamed_of_not hg]
      exact unbound_of_mem_vars_deep hT hu
    | true => exact binding?_of_size_le (size_le_renamed hu hg)

/-- A variable can be bound to a type that it does not occur in. -/
theorem exists_bind_eq_ok {T : Table} (hT : T.Acyclic) {v : TyVar} {t : Ty} (hnot : ¬ T.Reaches t v.id) :
    ∃ T', T.bind v t = .ok () T' := by
  have hchecks := checks_occurs hT v.id (T.level v.id) t
  unfold Table.bind
  generalize T.occurs v.id (T.level v.id) t = r at hchecks
  obtain ⟨occurs, T'⟩ := r
  cases occurs with
  | true => exact absurd (hchecks.1.mp rfl) hnot
  | false => exact ⟨_, rfl⟩

/-- A new variable is unbound, and occurs nowhere. -/
theorem omits_newVar {T : Table} (hT : T.Healthy) (name : String) (inferred rigid : Bool) (level : Nat) :
    (T.newVar name inferred rigid level).2.Omits T.size where
  tame := (hT.tame.newVar name inferred rigid level).tame
  known := (size_newVar name inferred rigid level).symm ▸ Nat.lt_succ_self _
  unbound := (binding?_newVar name inferred rigid level T.size).trans (binding?_of_size_le le_rfl)
  bindings w t ht x hx := (hT.below_binding w t (binding?_newVar name inferred rigid level w ▸ ht) x hx).ne

namespace Omits

variable {id : Nat} {T U : Table} {t u : Ty}

/-- A table with the same bindings. -/
theorem of_binding?_eq (h : T.Omits id) (hU : U.Tame) (hsize : T.size ≤ U.size)
    (hb : ∀ w, U.binding? w = T.binding? w) : U.Omits id where
  tame := hU
  known := h.known.trans_le hsize
  unbound := (hb id).trans h.unbound
  bindings w t ht := h.bindings w t (hb w ▸ ht)

/-- Another variable may be bound. -/
theorem setBinding (h : T.Omits id) {v : TyVar} (hv : v.id ≠ id) (hT : (T.setBinding v.id t).Tame)
    (ht : t.Omits id) : (T.setBinding v.id t).Omits id := by
  by_cases hlt : v.id < T.size
  · refine ⟨hT, (size_setBinding v.id t).symm ▸ h.known, ?_, fun w u hu => ?_⟩
    · rw [binding?_setBinding hlt, if_neg hv.symm]
      exact h.unbound
    · rw [binding?_setBinding hlt] at hu
      split at hu
      · exact Option.some.inj hu ▸ ht
      · exact h.bindings w u hu
  · rw [Table.setBinding, if_neg hlt]
    exact h

/-- Unification of types without the variable leaves it out. -/
theorem changes (id : Nat) : Changes (Omits id) (Ty.Omits id) where
  acyclic h := h.tame.acyclic
  bound h _ hb := h.bindings _ _ hb
  var ht hv := Ty.omits_var.mpr (ht _ hv)
  shortcut h hv ht _ _ hacyclic := h.setBinding (Ty.omits_var.mp hv) (h.tame.setBinding hacyclic) ht
  lower {T w level} h _ _ :=
    h.of_binding?_eq (h.tame.setLevel w level) (size_setLevel w level).ge (binding?_setLevel w level)
  quiet h := h.tame.quiet
  part hc ht := hc.omits ht
  snapshot h := h.of_binding?_eq h.tame.snapshot le_rfl fun _ => rfl
  commit {T} h := by
    have hsize : T.commit.size = T.size := congrArg Array.size T.entries_commit
    exact h.of_binding?_eq h.tame.commit hsize.ge binding?_commit
  bind h hv ht _ hu hnot _ :=
    h.setBinding (Ty.omits_var.mp hv) (Advances.setBinding h.tame hu hnot).grows.tame ht

theorem newVar (h : T.Omits id) (name : String) (inferred rigid : Bool) (level : Nat) :
    (T.newVar name inferred rigid level).2.Omits id :=
  h.of_binding?_eq (h.tame.newVar name inferred rigid level).tame (by simp)
    (binding?_newVar name inferred rigid level)

theorem generalize (h : T.Omits id) (w : Nat) : (T.generalize w).Omits id :=
  h.of_binding?_eq (h.tame.generalize w).tame (size_generalize w).ge (binding?_generalize w)

theorem creates (id level : Nat) : Creates (fun _ => Omits id) (fun _ => Ty.Omits id) level where
  shortcuts _ := (changes id).toShortcuts
  mono _ ht := ht
  newVar name inferred h := h.newVar name inferred false level

theorem unify (h : T.Omits id) (ht : t.Omits id) (hu : u.Omits id) : (T.unify t u).table.Omits id :=
  (changes id).unify h ht hu

theorem resolve (h : T.Omits id) (ht : t.Omits id) : (T.resolve t).1.Omits id ∧ (T.resolve t).2.Omits id :=
  (changes id).resolve h ht

/-- It does not occur in what a type without it stands for. -/
theorem deep (h : T.Omits id) (ht : t.Omits id) : (T.deep t).Omits id :=
  forall_vars_deep h.tame.acyclic (P := fun w => w.id ≠ id) (fun w t _ ht => h.bindings w.id t ht) ht

theorem resolveDeep (h : T.Omits id) (ht : t.Omits id) :
    (T.resolveDeep t).1.Omits id ∧ (T.resolveDeep t).2.Omits id :=
  ⟨(steady_resolveDeep h.tame.acyclic t).1 ▸ h.deep ht, (changes id).resolveDeep h ht⟩

theorem substitute (h : T.Omits id) (ht : t.Omits id) {image : List (Nat × Ty)}
    (himage : ∀ x ∈ image, x.2.Omits id) :
    (T.substitute t image).1.Omits id ∧ (T.substitute t image).2.Omits id := by
  refine ⟨?_, (changes id).substitute h ht image⟩
  rw [substitute_eq h.tame.acyclic]
  intro w hw
  obtain ⟨v, hv, hw⟩ := Ty.mem_vars_subst.mp hw
  cases hlookup : image.lookup v.id with
  | some u =>
    obtain ⟨before, after, rfl, -⟩ := List.lookup_eq_some_iff.mp hlookup
    rw [hlookup] at hw
    exact himage (v.id, u) (by simp) w hw
  | none =>
    rw [hlookup] at hw
    exact List.eq_of_mem_singleton hw ▸ h.deep ht v hv

theorem instantiate (h : T.Omits id) (ht : t.Omits id) (level : Nat) :
    (T.instantiate t level).1.Omits id ∧ (T.instantiate t level).2.2.Omits id := by
  have htable := @Creates.instantiate T _ _ level [] (creates id level) h t ht
  refine ⟨?_, htable⟩
  obtain ⟨S, -, heq⟩ := T.instantiate_eq h.tame.acyclic t level
  rw [heq]
  intro w hw
  obtain ⟨v, hv, hw⟩ := Ty.mem_vars_subst.mp hw
  obtain rfl := List.eq_of_mem_singleton hw
  cases hg : T.isGeneralized v.id with
  | false =>
    rw [renamed_of_not hg]
    exact h.deep ht v hv
  | true => exact (h.known.trans_le (size_le_renamed hv hg)).ne'

/-- The variable itself has itself as an instance, or a new variable once it is generalized. -/
theorem instantiate_self (h : T.Omits id) {v : TyVar} (hv : v.id = id) (level : Nat) :
    ((T.instantiate (.var v) level).1 = .var v ∨ (T.instantiate (.var v) level).1.Omits id) ∧
      (T.instantiate (.var v) level).2.2.Omits id := by
  subst hv
  rw [instantiate_unbound h.unbound]
  split
  · exact ⟨.inr (Ty.omits_var.mpr h.known.ne'), h.newVar v.name v.inferred false level⟩
  · exact ⟨.inl rfl, h⟩

theorem unify_self_of_resolved (h : T.Omits id) {v : TyVar} (hv : v.id = id) (hr : v.rigid = false)
    (ht : t.Omits id) (hres : T.Resolved t) : ∃ T', T.unify t (.var v) = .ok () T' := by
  have hunbound : T.binds (.var v) = false := isBound_eq_false.mpr (hv ▸ h.unbound)
  have hself : ∀ {t : Ty}, t.Omits id → ∃ T', T.bind v t = .ok () T' := fun ht =>
    exists_bind_eq_ok h.tame.acyclic <| by
      rintro ⟨w, hw, hid⟩
      exact h.deep ht w hw (hid.trans hv)
  induction t with
  | binding m u ih =>
    rw [unify_of_binds_eq_false h.tame.acyclic hres.binds hunbound]
    simpa [Ty.meet, unifies] using ih ht hres
  | var w =>
    have hne : w.id ≠ v.id := hv ▸ Ty.omits_var.mp ht
    rw [unify_of_binds_eq_false h.tame.acyclic hres.binds hunbound]
    cases hw : w.rigid with
    | true => simpa [Ty.meet, hne, hw, hr] using hself ht
    | false =>
      have hnot : ¬ T.Reaches (.var v) w.id := by
        rintro ⟨x, hx, hid⟩
        rw [deep_var_of_unbound (hv ▸ h.unbound)] at hx
        exact hne (hid.symm.trans (congrArg TyVar.id (List.eq_of_mem_singleton hx)))
      simpa [Ty.meet, hne, hw] using exists_bind_eq_ok h.tame.acyclic hnot
  | _ =>
    rw [unify_of_binds_eq_false h.tame.acyclic hres.binds hunbound]
    simpa [Ty.meet, hr] using hself ht

/-- If it is flexible, any type without it can be unified with it. -/
theorem unify_self (h : T.Omits id) (ht : t.Omits id) {v : TyVar} (hv : v.id = id) (hr : v.rigid = false) :
    ∃ T', T.unify t (.var v) = .ok () T' := by
  obtain ⟨T', hok⟩ := h.unify_self_of_resolved hv hr (h.deep ht) (resolved_deep h.tame.acyclic t)
  have hagrees : (T.unify t (.var v)).Agrees (T.unify (T.deep t) (.var v)) :=
    unify_agrees (.refl h.tame.acyclic) (T.deep_deep h.tame.acyclic t) rfl
  rw [hok] at hagrees
  obtain ⟨T'', _, hok', -, -⟩ | ⟨_, _, _, _, -, herror⟩ := hagrees.cases
  · exact ⟨T'', hok'⟩
  · cases herror

end Omits

end Table

end Reified
