import Reified.Proofs.Table.Unify

/-!
# Tables only learn

No operation of the checker takes anything back that a table says of a type: resolved in the table
before it and then in the table after it, a type is the same as resolved in the table after it at
once. The bindings that the attempt at a union makes before it fails are no exception, since they are
undone before anything else is resolved.

## Main definitions

* `Table.Tame` — no cycle among the bindings, and nothing to undo unless a snapshot is open
* `Table.Grows` — a tame table that knows all that another one knows

## Main results

* `Table.Tame.unify` — unification only learns, whether it succeeds or not
* `Table.Tame.resolve`, `Table.Tame.resolveDeep`, `Table.Tame.instantiate`, … — the other operations
-/

namespace Reified

namespace Table

variable {T T' : Table}

/-- There is no cycle among the bindings, and nothing is on the trail unless a snapshot is open. -/
structure Tame (T : Table) : Prop where
  acyclic : T.Acyclic
  quiet : T.snapshots = 0 → T.trail = #[]

/-- A tame table that knows all that another one knows: what is resolved in that one can as well be
resolved from the start. -/
structure Grows (T T' : Table) : Prop where
  tame : T'.Tame
  deep : ∀ t, T'.deep (T.deep t) = T'.deep t

namespace Grows

theorem refl (hT : T.Tame) : T.Grows T := ⟨hT, deep_deep hT.acyclic⟩

theorem trans {T₁ T₂ T₃ : Table} (h : T₁.Grows T₂) (h' : T₂.Grows T₃) : T₁.Grows T₃ :=
  ⟨h'.tame, fun t => by rw [← h'.deep (T₁.deep t), h.deep, h'.deep]⟩

/-- Types that are the same for a table are the same for every later one. -/
theorem deep_eq (h : T.Grows T') {t u : Ty} (htu : T.deep t = T.deep u) :
    T'.deep t = T'.deep u := by
  rw [← h.deep t, htu, h.deep]

/-- Nothing is learnt from marks and new variables. -/
theorem of_binding?_eq (hT : T.Tame) (hs : T'.snapshots = T.snapshots) (ht : T'.trail = T.trail)
    (hb : ∀ id, T'.binding? id = T.binding? id) : T.Grows T' where
  tame :=
    ⟨hT.acyclic.imp fun _ hr v t hv => hr v t (hb v ▸ hv), fun hq => ht.trans (hT.quiet (hs ▸ hq))⟩
  deep t := by
    rw [deep_congr hT.acyclic hb, deep_congr hT.acyclic hb, deep_deep hT.acyclic]

end Grows

theorem Same.deep_deep (h : T.Same T') (hT : T.Acyclic) (t : Ty) :
    T'.deep (T.deep t) = T'.deep t := by
  rw [h.deep, h.deep, Table.deep_deep hT]

theorem Steady.grows (h : T.Steady T') (hT : T.Tame) : T.Grows T' where
  tame := ⟨h.acyclic hT.acyclic, fun hq => by
    have hzero := h.restores.snapshots.symm.trans hq
    rw [h.restores.quiet hzero, hT.quiet hzero]⟩
  deep := h.same.deep_deep hT.acyclic

/-! ## Unification -/

/-- What a step of a unification makes of a table: it learns, and what it does can be undone. -/
structure Advances (T T' : Table) : Prop where
  grows : T.Grows T'
  restores : T.Restores T'

namespace Advances

theorem trans {T₁ T₂ T₃ : Table} (h : T₁.Advances T₂) (h' : T₂.Advances T₃) : T₁.Advances T₃ :=
  ⟨h.grows.trans h'.grows, h.restores.trans h'.restores⟩

theorem of_steady (h : T.Steady T') (hT : T.Tame) : T.Advances T' := ⟨h.grows hT, h.restores⟩

/-- Binding a variable that does not remain in the type. -/
theorem setBinding (hT : T.Tame) {id : Nat} {t : Ty} (hu : T.binding? id = none)
    (ht : ¬ T.Reaches t id) : T.Advances (T.setBinding id t) := by
  have hrestores := Restores.setBinding T id t
  refine ⟨?_, hrestores⟩
  by_cases hid : id < T.size
  · refine ⟨⟨hT.acyclic.setBinding hid hu ht, fun hq => ?_⟩, fun u => ?_⟩
    · rw [hrestores.snapshots] at hq
      rw [hrestores.quiet hq, hT.quiet hq]
    · rw [deep_setBinding hT.acyclic hid hu ht, deep_setBinding hT.acyclic hid hu ht,
        deep_deep hT.acyclic]
  · rw [Table.setBinding, if_neg hid]
    exact .refl hT

theorem bind (hT : T.Tame) {v : TyVar} {t : Ty} (hv : T.binds (.var v) = false) :
    T.Advances (T.bind v t).table := by
  obtain ⟨hiff, hsteady⟩ := checks_occurs hT.acyclic v.id (T.level v.id) t
  have hS := Advances.of_steady hsteady hT
  unfold Table.bind
  generalize T.occurs v.id (T.level v.id) t = r at hiff hsteady hS
  obtain ⟨b, S⟩ := r
  cases b with
  | true =>
    exact hS.trans (.of_steady (steady_resolveDeep hS.grows.tame.acyclic t).2 hS.grows.tame)
  | false =>
    refine hS.trans (.setBinding hS.grows.tame ?_ fun hreaches => ?_)
    · exact hsteady.same.unbound_iff.mpr (isBound_eq_false.mp hv)
    · rw [Reaches, hsteady.same.deep] at hreaches
      exact absurd (hiff.mpr hreaches) Bool.false_ne_true

theorem resolveDeep (hT : T.Tame) (t : Ty) : T.Advances (T.resolveDeep t).2 :=
  .of_steady (steady_resolveDeep hT.acyclic t).2 hT

theorem mismatch (hT : T.Tame) (a b : Ty) : T.Advances (T.mismatch a b).table :=
  have h := resolveDeep hT a
  h.trans (resolveDeep h.grows.tame b)

theorem missingField (hT : T.Tame) (field : String) (a : Ty) :
    T.Advances (T.missingField field a).table :=
  resolveDeep hT a

theorem stable : Stable Tame Advances (fun _ => True) fun T t => T.binds t = false where
  part _ _ := trivial
  keeps _ h := h.grows.tame
  refl hT := ⟨.refl hT, .refl _⟩
  trans := trans
  snapshot hT := ⟨hT.acyclic, fun hq => absurd hq (Nat.succ_ne_zero _)⟩
  rollback hT h := by
    rw [h.restores.rollback_eq hT.quiet]
    exact ⟨.refl hT, .refl _⟩
  commit {T T'} hT h := by
    have hb : ∀ id, T'.commit.binding? id = T'.binding? id := fun id => by
      unfold Table.commit close
      split <;> rfl
    have hrestores := h.restores.commit hT.quiet
    have hacyclic := h.grows.tame.acyclic
    refine ⟨⟨⟨hacyclic.imp fun _ hr v t hv => hr v t (hb v ▸ hv), fun hq => ?_⟩, fun t => ?_⟩,
      hrestores⟩
    · rw [hrestores.snapshots] at hq
      rw [hrestores.quiet hq, hT.quiet hq]
    · have hsame : ∀ id, T.snapshot.2.binding? id = T.binding? id := fun _ => rfl
      have hsnap := deep_congr hT.acyclic hsame t
      rw [deep_congr hacyclic hb, deep_congr hacyclic hb, ← hsnap, h.grows.deep]
  unbound h := h
  resolve hT _ := ⟨trivial, .of_steady (steady_resolve hT.acyclic _).1 hT⟩
  resolve_final {T a b} hT _ _ := by
    obtain ⟨h₁, -, hf₁⟩ := steady_resolve hT.acyclic a
    obtain ⟨h₂, -, hf₂⟩ := steady_resolve (h₁.acyclic hT.acyclic) b
    exact ⟨(h₂.same.binds _).trans hf₁, hf₂⟩
  mismatch hT _ _ := mismatch hT _ _
  missingField field hT _ := missingField hT field _
  bind hT _ hv _ _ := bind hT hv

end Advances

/-! ## The operations of the checker -/

namespace Tame

/-- **Unification only learns**, whether it succeeds or not. -/
theorem unify (hT : T.Tame) (a b : Ty) : T.Grows (T.unify a b).table :=
  (Advances.stable.unify hT trivial trivial).grows

theorem resolve (hT : T.Tame) (t : Ty) :
    T.Grows (T.resolve t).2 ∧ T.deep (T.resolve t).1 = T.deep t :=
  have h := steady_resolve hT.acyclic t
  ⟨h.1.grows hT, h.2.1⟩

theorem resolveDeep (hT : T.Tame) (t : Ty) :
    T.Grows (T.resolveDeep t).2 ∧ (T.resolveDeep t).1 = T.deep t :=
  have h := steady_resolveDeep hT.acyclic t
  ⟨h.2.grows hT, h.1⟩

theorem newVar (hT : T.Tame) (name : String) (inferred rigid : Bool) (level : Nat) :
    T.Grows (T.newVar name inferred rigid level).2 :=
  .of_binding?_eq hT rfl rfl (binding?_newVar name inferred rigid level)

theorem generalize (hT : T.Tame) (id : Nat) : T.Grows (T.generalize id) :=
  .of_binding?_eq hT rfl rfl (binding?_generalize id)

theorem substitute (hT : T.Tame) (t : Ty) (image : List (Nat × Ty)) :
    T.Grows (T.substitute t image).2 := by
  suffices key : ∀ n t S, T.Grows S → T.Grows (substituteWithin image n t S).2 from
    key _ t T (.refl hT)
  intro n
  induction n with
  | zero => exact fun _ _ h => h
  | succ n ih =>
    intro t S hS
    rw [substituteWithin]
    refine Ty.replaceVarsM_keeps t (fun v _ S hS => ?_) S hS
    have h := hS.trans (resolve hS.tame (.var v)).1
    rw [resolveVar_bind]
    generalize S.resolve (.var v) = r at h ⊢
    obtain ⟨u, S'⟩ := r
    dsimp only
    split
    · exact h
    · exact ih _ _ h

theorem instantiate (hT : T.Tame) (t : Ty) (level : Nat) :
    T.Grows (T.instantiate t level).2.2 := by
  suffices key : ∀ n t S, T.Grows S.table → T.Grows (instantiateWithin level n t S).2.table from
    key (T.size + 1) t ⟨T, []⟩ (.refl hT)
  intro n
  induction n with
  | zero => exact fun _ _ h => h
  | succ n ih =>
    intro t S hS
    rw [instantiateWithin]
    refine @Ty.replaceVarsM_keeps _ _ (fun S : Instance => T.Grows S.table) t
      (fun v _ S hS => ?_) S hS
    have h := hS.trans (resolve hS.tame (.var v)).1
    rw [Instance.resolveVar_bind]
    generalize S.table.resolve (.var v) = r at h ⊢
    obtain ⟨u, T'⟩ := r
    dsimp only
    split
    · next w =>
      rw [Instance.isGeneralized_bind]
      split
      · -- a generalized variable is replaced by its copy
        rw [Instance.copy]
        simp only
        split
        · exact h
        · exact h.trans (h.tame.newVar w.name w.inferred false level)
      · exact h
    · exact ih _ ⟨T', S.copies⟩ h

end Tame

end Table

end Reified
