import Reified.Proofs.Table.Omits

/-!
# A sealed variable

The variables of a signature are generalized when the signature is stored, and from then on every type that is
computed with has copies in their place. So nothing binds them and they get into no binding, whatever is unified and
of whatever types instances are made.

## Main definitions

* `Table.Sealed` — the variable is generalized, unbound, and occurs in no binding

## Main results

* `Table.Sealed.unify`, `Table.Sealed.instantiate`, … — the operations on a table
-/

namespace Reified.Table

/-- The variable is generalized, unbound, and occurs in no binding. -/
structure Sealed (id : Nat) (T : Table) : Prop where
  omits : T.Omits id
  generalized : T.isGeneralized id = true

namespace Sealed

variable {id : Nat} {T : Table} {t u : Ty}

/-- Unification of types without the variable leaves it sealed. -/
theorem changes (id : Nat) : Changes (Sealed id) (Ty.Omits id) where
  acyclic h := h.omits.tame.acyclic
  bound h _ hb := h.omits.bindings _ _ hb
  var := (Omits.changes id).var
  shortcut h hv ht hb hdeep hacyclic :=
    ⟨(Omits.changes id).shortcut h.omits hv ht hb hdeep hacyclic, (isGeneralized_setBinding ..).trans h.generalized⟩
  lower h hv hlt := ⟨(Omits.changes id).lower h.omits hv hlt, (isGeneralized_setLevel ..).trans h.generalized⟩
  quiet h := h.omits.tame.quiet
  part := (Omits.changes id).part
  snapshot h := ⟨(Omits.changes id).snapshot h.omits, h.generalized⟩
  commit {T} h := by
    refine ⟨(Omits.changes id).commit h.omits, ?_⟩
    rw [isGeneralized, entries_commit]
    exact h.generalized
  bind h hv ht hd hu hnot hocc :=
    ⟨(Omits.changes id).bind h.omits hv ht hd hu hnot hocc, (isGeneralized_setBinding ..).trans h.generalized⟩

theorem unify (h : T.Sealed id) (ht : t.Omits id) (hu : u.Omits id) : (T.unify t u).table.Sealed id :=
  (changes id).unify h ht hu

theorem resolve (h : T.Sealed id) (ht : t.Omits id) : (T.resolve t).1.Omits id ∧ (T.resolve t).2.Sealed id :=
  (changes id).resolve h ht

/-- Any type may be resolved, since the variable stands for itself. -/
theorem table_resolve (h : T.Sealed id) (t : Ty) : (T.resolve t).2.Sealed id := by
  cases hbinds : T.binds t with
  | false => rwa [resolve_of_binds_eq_false h.omits.tame.acyclic hbinds]
  | true =>
    refine (h.resolve ?_).2
    cases t with
    | var v =>
      refine Ty.omits_var.mpr fun hv => ?_
      rw [binds, hv, isBound_eq_false.mpr h.omits.unbound] at hbinds
      cases hbinds
    | _ => cases hbinds

theorem resolveDeep (h : T.Sealed id) (ht : t.Omits id) :
    (T.resolveDeep t).1.Omits id ∧ (T.resolveDeep t).2.Sealed id :=
  ⟨(h.omits.resolveDeep ht).1, (changes id).resolveDeep h ht⟩

theorem newVar (h : T.Sealed id) (name : String) (inferred rigid : Bool) (level : Nat) :
    (Ty.var (T.newVar name inferred rigid level).1).Omits id ∧ (T.newVar name inferred rigid level).2.Sealed id :=
  ⟨Ty.omits_var.mpr h.omits.known.ne', h.omits.newVar name inferred rigid level,
    (isGeneralized_newVar ..).trans h.generalized⟩

theorem generalize (h : T.Sealed id) (w : Nat) : (T.generalize w).Sealed id := by
  refine ⟨h.omits.generalize w, ?_⟩
  by_cases hw : w < T.size
  · rw [isGeneralized_generalize hw, h.generalized, Bool.or_true]
  · rw [isGeneralized_generalize_of_ne (by have := h.omits.known; omega)]
    exact h.generalized

/-- Settling variables marks some of them and moves others to outer frames. -/
theorem settle (h : T.Sealed id) (depth : Nat) (ids : List Nat) (F : Frames) (done : List Nat) :
    (Frames.settle depth ids F T done).2.2.Sealed id := by
  induction ids generalizing F T done with
  | nil => exact h
  | cons w ids ih =>
    rw [Frames.settle]
    split
    · exact ih h _ _
    · split
      · exact ih (h.generalize w) _ _
      · exact ih h _ _

theorem pop (h : T.Sealed id) (F : Frames) : (F.pop T).2.2.Sealed id := by
  rw [Frames.pop]
  split
  · exact h
  · exact h.settle _ _ _ _

/-- **It occurs in no instance** of whatever type: there is a copy in its place. -/
theorem instantiate (h : T.Sealed id) (t : Ty) (level : Nat) :
    (T.instantiate t level).1.Omits id ∧ (T.instantiate t level).2.2.Sealed id := by
  have htame := (h.omits.tame.instantiate t level).tame
  obtain ⟨S, hmade, heq⟩ := T.instantiate_eq h.omits.tame.acyclic t level
  rw [heq] at htame ⊢
  have hunbound : S.table.binding? id = none := by
    rw [← isBound_eq_false, hmade.isBound, isBound_eq_false]
    exact h.omits.unbound
  refine ⟨fun w hw => ?_, ⟨htame, ?_, hunbound, fun w u hu => ?_⟩, (hmade.marks id).trans h.generalized⟩
  · obtain ⟨v, hv, hw⟩ := Ty.mem_vars_subst.mp hw
    obtain rfl := List.eq_of_mem_singleton hw
    cases hg : T.isGeneralized v.id with
    | false =>
      rw [renamed_of_not hg]
      exact fun heq => Bool.false_ne_true (hg.symm.trans (heq ▸ h.generalized))
    | true => exact (h.omits.known.trans_le (size_le_renamed hv hg)).ne'
  · rw [show S.table.size = _ from hmade.size]
    exact Nat.lt_add_right _ h.omits.known
  · -- what the variable is bound to stands for the same as before, and the unbound one would still be in it
    have hvar : (Ty.var ⟨w, "", false, false⟩).Omits id := Ty.omits_var.mpr fun heq : w = id => by
      rw [← heq, hu] at hunbound
      cases hunbound
    have hdeep : (S.table.deep u).Omits id := by
      rw [← deep_var_of_binding htame.acyclic (v := ⟨w, "", false, false⟩) hu, hmade.deep]
      exact h.omits.deep hvar
    intro x hx heq
    refine hdeep x ?_ heq
    rw [deep_eq_subst]
    exact Ty.mem_vars_subst.mpr ⟨x, hx, by rw [deep_var_of_unbound (heq ▸ hunbound)]; exact List.mem_singleton_self x⟩

end Sealed

end Reified.Table
