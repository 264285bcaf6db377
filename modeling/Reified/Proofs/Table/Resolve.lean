import Reified.Proofs.Table.Invariant
import Reified.Proofs.Table.Search

/-!
# Resolution

Resolving a type may take shortcuts in the table, and nothing else: the table afterwards agrees with
the one before, and keeps the invariant.

Instantiating and substituting keep the invariant, the former over a list of variables that the
copies were added to.

## Main definitions

* `Table.Represents` — what the representative of a variable satisfies in a table with the invariant

## Main results

* `Table.represents_follow`, `Table.represents_resolve` — representatives
* `Table.resolveDeep_spec` — `resolveDeep` computes `deep`
* `Table.Inv.instantiate`, `Table.Inv.substitute` — the invariant
-/

namespace Reified

namespace Ty

section replace

variable {S : Type} {rule : TyVar → StateM S Ty} {keep : S → Prop}

mutual

/-- A traversal keeps what its rule keeps. -/
theorem replaceVarsM_keeps : (t : Ty) → (∀ v ∈ t.vars, ∀ s, keep s → keep (rule v s).2) →
    ∀ s, keep s → keep (t.replaceVarsM rule s).2
  | .var v, h, s, hs => h v (by simp [vars]) s hs
  | .name n, _, s, hs => hs
  | .array t, h, s, hs => replaceVarsM_keeps t h s hs
  | .tuple ts, h, s, hs => replaceListM_keeps ts h s hs
  | .record fs, h, s, hs => replaceFieldsM_keeps fs h s hs
  | .fn ps r k, h, s, hs => by
    have h1 := replaceListM_keeps ps (fun v hv => h v (List.mem_append_left _ hv)) s hs
    exact replaceVarsM_keeps r (fun v hv => h v (List.mem_append_right _ hv)) _ h1
  | .union a b, h, s, hs => by
    have h1 := replaceVarsM_keeps a (fun v hv => h v (List.mem_append_left _ hv)) s hs
    exact replaceVarsM_keeps b (fun v hv => h v (List.mem_append_right _ hv)) _ h1
  | .binding n t, h, s, hs => replaceVarsM_keeps t h s hs

theorem replaceListM_keeps : (ts : List Ty) →
    (∀ v ∈ varsList ts, ∀ s, keep s → keep (rule v s).2) →
    ∀ s, keep s → keep (replaceListM rule ts s).2
  | [], _, s, hs => hs
  | t :: ts, h, s, hs => by
    have h1 := replaceVarsM_keeps t (fun v hv => h v (List.mem_append_left _ hv)) s hs
    exact replaceListM_keeps ts (fun v hv => h v (List.mem_append_right _ hv)) _ h1

theorem replaceFieldsM_keeps : (fs : List (String × Ty)) →
    (∀ v ∈ varsFields fs, ∀ s, keep s → keep (rule v s).2) →
    ∀ s, keep s → keep (replaceFieldsM rule fs s).2
  | [], _, s, hs => hs
  | (n, t) :: fs, h, s, hs => by
    have h1 := replaceVarsM_keeps t (fun v hv => h v (List.mem_append_left _ hv)) s hs
    exact replaceFieldsM_keeps fs (fun v hv => h v (List.mem_append_right _ hv)) _ h1

end

end replace

end Ty

namespace Table

variable {vs : List TyVar} {T T' : Table}

/-! ## Representatives -/

/-- What the representative `r.1` of a variable `v` satisfies in a table with the invariant, `r.2`
being the table after the search. -/
structure Represents (vs : List TyVar) (T : Table) (v : TyVar) (r : Ty × Table) : Prop
    extends T.Finds v r where
  inv : r.2.Inv vs
  written : r.1.Over vs

theorem Represents.agrees {v : TyVar} {r : Ty × Table} (h : T.Represents vs v r) :
    T.Agrees vs r.2 :=
  ⟨h.inv, h.steady.same⟩

/-- The search for a representative keeps the invariant. -/
theorem represents_follow {rank : Nat → Nat} (hr : T.Ranks rank) (hT : T.Inv vs) {n : Nat}
    {v : TyVar} (hv : v ∈ vs) (hn : rank v.id ≤ n) : T.Represents vs v (follow n T (.var v)) := by
  induction n generalizing v with
  | zero => exact ⟨finds_follow hr hn, hT, .var hv⟩
  | succ n ih =>
    have hfinds := finds_follow hr hn
    rw [follow] at hfinds ⊢
    cases hb : T.binding? v.id with
    | none =>
      rw [hb] at hfinds
      exact ⟨hfinds, hT, .var hv⟩
    | some s =>
      rw [hb] at hfinds
      have hover := hT.now.written _ _ hb
      cases s with
      | var w =>
        have hlt := hr.lt _ _ hb w (by simp [Ty.vars])
        have hw := ih (hover.vars w (by simp [Ty.vars])) (by omega)
        simp only at hfinds ⊢
        split
        · next heq =>
          rw [if_pos heq] at hfinds
          exact ⟨hfinds, hw.inv, hw.written⟩
        · next heq =>
          rw [if_neg heq] at hfinds
          refine ⟨hfinds, ?_, hw.written⟩
          have hid := hw.inv.lt_size hv
          refine hw.inv.setBinding hid ⟨fun x u hx => ?_, fun x hx hrigid => ?_, ?_⟩
          · rw [binding?_setBinding hid] at hx
            by_cases hxv : x = v.id
            · rw [if_pos hxv, Option.some.injEq] at hx
              exact hx ▸ hw.written
            · exact hw.inv.now.written x u (by simpa [hxv] using hx)
          · exact hfinds.steady.same.unbound_iff.mpr (hT.now.rigid x hx hrigid)
          · exact hfinds.steady.acyclic hT.acyclic
      | name m => exact ⟨hfinds, hT, hover⟩
      | array t => exact ⟨hfinds, hT, hover⟩
      | tuple ts => exact ⟨hfinds, hT, hover⟩
      | record fs => exact ⟨hfinds, hT, hover⟩
      | fn ps r k => exact ⟨hfinds, hT, hover⟩
      | union a b => exact ⟨hfinds, hT, hover⟩
      | binding m t => exact ⟨hfinds, hT, hover⟩

theorem represents_resolve (hT : T.Inv vs) {v : TyVar} (hv : v ∈ vs) :
    T.Represents vs v (T.resolve (.var v)) := by
  obtain ⟨rank, hr⟩ := hT.acyclic.exists_ranks
  exact represents_follow hr hT hv (hr.le_size _)

/-- **The representative of a type** in a table with the invariant. -/
theorem resolve_spec (hT : T.Inv vs) {t : Ty} (ht : t.Over vs) :
    T.Agrees vs (T.resolve t).2 ∧ (T.resolve t).1.Over vs ∧
      T.deep (T.resolve t).1 = T.deep t ∧ (T.resolve t).2.binds (T.resolve t).1 = false := by
  by_cases h : ∃ v, t = .var v
  · obtain ⟨v, rfl⟩ := h
    have hv := represents_resolve hT (ht.vars v (by simp [Ty.vars]))
    exact ⟨hv.agrees, hv.written, hv.deep, hv.final⟩
  · rw [resolve_of_not_var fun v hv => h ⟨v, hv⟩]
    exact ⟨.refl hT, ht, rfl, binds_eq_false.mpr fun v hv => absurd ⟨v, hv⟩ h⟩

/-! ## Resolved types -/

theorem Instance.resolveVar_bind {α : Type} (v : TyVar) (f : Ty → StateM Instance α)
    (S : Instance) : (Instance.resolveVar v >>= f) S =
      f (S.table.resolve (.var v)).1 ⟨(S.table.resolve (.var v)).2, S.copies⟩ := rfl

theorem Instance.isGeneralized_bind {α : Type} (v : TyVar) (f : Bool → StateM Instance α)
    (S : Instance) : (Instance.isGeneralized v >>= f) S = f (S.table.isGeneralized v.id) S := rfl

theorem deepen_inv {n : Nat} {t : Ty} (ht : t.Over vs) (hT : T.Inv vs) :
    (deepen n t T).2.Inv vs := by
  induction n generalizing t T with
  | zero => exact hT
  | succ n ih =>
    rw [deepen]
    refine Ty.replaceVarsM_keeps t (fun v hv S hS => ?_) T hT
    have hvr := represents_resolve hS (ht.vars v hv)
    rw [resolveVar_bind]
    generalize S.resolve (.var v) = r at hvr ⊢
    obtain ⟨u, S'⟩ := r
    dsimp only
    split
    · exact hvr.inv
    · exact ih hvr.written hvr.inv

/-- **`resolveDeep` computes the deep type** and keeps the invariant. -/
theorem resolveDeep_spec (hT : T.Inv vs) {t : Ty} (ht : t.Over vs) :
    (T.resolveDeep t).1 = T.deep t ∧ T.Agrees vs (T.resolveDeep t).2 := by
  obtain ⟨hdeep, hsteady⟩ := steady_resolveDeep hT.acyclic t
  exact ⟨hdeep, deepen_inv ht hT, hsteady.same⟩

/-! ## Instances and substitution -/

theorem substituteWithin_inv {image : List (Nat × Ty)} {n : Nat} {t : Ty} (ht : t.Over vs)
    (hT : T.Inv vs) : (substituteWithin image n t T).2.Inv vs := by
  induction n generalizing t T with
  | zero => exact hT
  | succ n ih =>
    rw [substituteWithin]
    refine Ty.replaceVarsM_keeps t (fun v hv S hS => ?_) T hT
    have hvr := represents_resolve hS (ht.vars v hv)
    rw [resolveVar_bind]
    generalize S.resolve (.var v) = r at hvr ⊢
    obtain ⟨u, S'⟩ := r
    dsimp only
    split
    · exact hvr.inv
    · exact ih hvr.written hvr.inv

theorem Inv.substitute (hT : T.Inv vs) {t : Ty} (ht : t.Over vs) (image : List (Nat × Ty)) :
    (T.substitute t image).2.Inv vs :=
  substituteWithin_inv ht hT

/-- The variables that a list of copies adds, in the order in which they were made. -/
def Instance.fresh (copies : List (Nat × TyVar)) : List TyVar :=
  copies.reverse.map Prod.snd

theorem Instance.fresh_append (copies new : List (Nat × TyVar)) :
    fresh (new ++ copies) = fresh copies ++ fresh new := by
  simp [fresh]

theorem instantiateWithin_inv (level : Nat) {n : Nat} {t : Ty} {S : Instance} (ht : t.Over vs)
    (hS : S.table.Inv vs) :
    ∃ new, (instantiateWithin level n t S).2.copies = new ++ S.copies ∧
      (instantiateWithin level n t S).2.table.Inv (vs ++ Instance.fresh new) := by
  induction n generalizing vs t S with
  | zero => exact ⟨[], rfl, (List.append_nil vs).symm ▸ hS⟩
  | succ n ih =>
    rw [instantiateWithin]
    refine @Ty.replaceVarsM_keeps _ _ (fun S' : Instance => ∃ new, S'.copies = new ++ S.copies ∧
      S'.table.Inv (vs ++ Instance.fresh new)) t (fun v hv S' => ?_) S
      ⟨[], rfl, by simpa [Instance.fresh] using hS⟩
    rintro ⟨new, hc, hI⟩
    have hvr := represents_resolve hI (List.mem_append_left _ (ht.vars v hv))
    rw [Instance.resolveVar_bind]
    generalize S'.table.resolve (.var v) = r at hvr ⊢
    obtain ⟨u, T'⟩ := r
    dsimp only
    split
    · next w =>
      rw [Instance.isGeneralized_bind]
      split
      · -- a generalized variable is replaced by its copy
        rw [Instance.copy]
        simp only
        split
        · exact ⟨new, hc, hvr.inv⟩
        · refine ⟨(w.id, _) :: new, congrArg _ hc, ?_⟩
          have := hvr.inv.newVar w.name w.inferred false level
          simpa [Instance.fresh] using this
      · exact ⟨new, hc, hvr.inv⟩
    · obtain ⟨new', hc', hI'⟩ := ih (S := ⟨T', S'.copies⟩) hvr.written hvr.inv
      refine ⟨new' ++ new, ?_, ?_⟩
      · rw [hc', hc, List.append_assoc]
      · rw [Instance.fresh_append, ← List.append_assoc]
        exact hI'

theorem Inv.instantiate (hT : T.Inv vs) {t : Ty} (ht : t.Over vs) (level : Nat) :
    (T.instantiate t level).2.2.Inv (vs ++ (T.instantiate t level).2.1) := by
  obtain ⟨new, hc, hI⟩ := instantiateWithin_inv level (n := T.size + 1) (S := ⟨T, []⟩) ht hT
  rw [List.append_nil] at hc
  show (instantiateWithin level (T.size + 1) t ⟨T, []⟩).2.table.Inv
    (vs ++ Instance.fresh (instantiateWithin level (T.size + 1) t ⟨T, []⟩).2.copies)
  rw [hc]
  exact hI

end Table

end Reified
