import Reified.Proofs.Table.Changes

/-!
# Resolution only observes

Looking a type up writes shortcuts into the table. Nobody can tell: whatever is asked of the table
afterwards gets the answer that it would have got before. So types can be resolved at any time and in any
order, also in the middle of error messages.

## Main definitions

* `Table.Undisturbed` — two tables with the same answers to all questions

## Main results

* `Table.undisturbed_resolve`, `Table.undisturbed_resolveDeep` — looking a type up
* `Table.resolution_observes` — the answers, and what they have to do with each other
-/

namespace Reified

namespace Table

variable {T T' : Table}

/-- The second table answers as the first one does: what a type stands for, and the level, the mark and the
state of each variable. -/
structure Undisturbed (T T' : Table) : Prop where
  resolved : ∀ u, (T'.resolveDeep u).1 = (T.resolveDeep u).1
  level : ∀ id, T'.level id = T.level id
  isBound : ∀ id, T'.isBound id = T.isBound id
  isGeneralized : ∀ id, T'.isGeneralized id = T.isGeneralized id

/-- Tables that say the same and have the same levels and marks give the same answers. -/
theorem Same.undisturbed (h : T.Same T') (hT : T.Acyclic)
    (hentries : ∀ id, T'.level id = T.level id ∧ T'.isGeneralized id = T.isGeneralized id) :
    T.Undisturbed T' where
  resolved u := by
    rw [(steady_resolveDeep (h.acyclic hT) u).1, (steady_resolveDeep hT u).1, h.deep]
  level id := (hentries id).1
  isBound := h.isBound
  isGeneralized id := (hentries id).2

/-- Taking the representative of a type disturbs nothing. -/
theorem undisturbed_resolve (hT : T.Acyclic) (t : Ty) : T.Undisturbed (T.resolve t).2 :=
  (steady_resolve hT t).1.same.undisturbed hT (level_resolve hT t)

theorem level_resolveDeep (hT : T.Acyclic) (t : Ty) (w : Nat) :
    (T.resolveDeep t).2.level w = T.level w ∧
      (T.resolveDeep t).2.isGeneralized w = T.isGeneralized w :=
  ((shortcuts_level T.level T.isGeneralized).resolveDeep ⟨hT, fun _ => ⟨rfl, rfl⟩⟩ trivial).2 w

/-- Resolving a type at every depth disturbs nothing. -/
theorem undisturbed_resolveDeep (hT : T.Acyclic) (t : Ty) : T.Undisturbed (T.resolveDeep t).2 :=
  (steady_resolveDeep hT t).2.same.undisturbed hT (level_resolveDeep hT t)

/-- **Resolution only observes.** It disturbs nothing, what it finds is not bound, and nothing more is found
by looking again. -/
theorem resolution_observes (hT : T.Acyclic) (t : Ty) :
    T.Undisturbed (T.resolve t).2 ∧ T.Undisturbed (T.resolveDeep t).2 ∧
    (∀ v, (T.resolve t).1 = .var v → T.isBound v.id = false) ∧
    (∀ v ∈ (T.resolveDeep t).1.vars, T.isBound v.id = false) ∧
    (T.resolveDeep t).1 = ((T.resolve t).2.resolveDeep (T.resolve t).1).1 ∧
    ((T.resolveDeep t).2.resolveDeep (T.resolveDeep t).1).1 = (T.resolveDeep t).1 := by
  have h := undisturbed_resolve hT t
  have hd := undisturbed_resolveDeep hT t
  obtain ⟨-, hdeep, hfinal⟩ := steady_resolve hT t
  have hcomputes (u : Ty) : (T.resolveDeep u).1 = T.deep u := (steady_resolveDeep hT u).1
  refine ⟨h, hd, fun v hv => ?_, fun v hv => ?_, ?_, ?_⟩
  · rw [hv] at hfinal
    exact (h.isBound v.id).symm.trans hfinal
  · rw [hcomputes] at hv
    exact isBound_eq_false.mpr (unbound_of_mem_vars_deep hT hv)
  · rw [h.resolved, hcomputes, hcomputes, hdeep]
  · rw [hd.resolved, hcomputes, hcomputes, deep_deep hT]

/-- One step through a chain of three variables is shortened, and the chain still ends where it did. -/
theorem resolution_observes_chain :
    let a : TyVar := ⟨0, "a", false, false⟩
    let T : Table := ⟨#[⟨1, some (.var ⟨1, "b", false, false⟩), false⟩,
      ⟨1, some (.var ⟨2, "c", false, false⟩), false⟩, ⟨1, some .string, true⟩], #[], 0⟩
    T.Acyclic ∧ (T.resolve (.var a)).2.binding? 0 = some .string ∧ T.binding? 0 ≠ some .string ∧
      T.Undisturbed (T.resolve (.var a)).2 := by
  have hT : Table.Acyclic ⟨#[⟨1, some (.var ⟨1, "b", false, false⟩), false⟩,
      ⟨1, some (.var ⟨2, "c", false, false⟩), false⟩, ⟨1, some .string, true⟩], #[], 0⟩ := by
    refine ⟨fun id => 3 - id, fun v t hv w hw => ?_⟩
    match v with
    | 0 => cases hv; simp [Ty.vars] at hw; subst hw; decide
    | 1 => cases hv; simp [Ty.vars] at hw; subst hw; decide
    | 2 => cases hv; simp [Ty.string, Ty.vars] at hw
    | n + 3 => simp [binding?] at hv
  exact ⟨hT, by decide, by decide, (resolution_observes hT _).1⟩

end Table

end Reified
