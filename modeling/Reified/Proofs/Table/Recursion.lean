import Mathlib.Data.Finset.Card
import Reified.Proofs.Table.Descent
import Reified.Proofs.Table.Rollback

/-!
# Unification terminates

No argument of a unification gets smaller: a variable is replaced by a large type when it is resolved, and
when it is bound, all types in which it remains get larger. What does get smaller is a pair: the number of
unbound variables, and, as long as that stays the same, the size of the two types with every bound variable
replaced. A failed attempt at a member of a union gives variables back, but to a table that is as it was before
the attempt.

So the recursion of `Meeting` returns wherever there is no cycle among the bindings, and the bounded
unification computes its answer: the bound is never reached.

## Main definitions

* `Table.Knows` — a table that knows all that another one knows
* `Table.Continues` — such a table in which everything since can be undone
* `Table.Passed` — the variables passed on the way to a type
* `Table.heads`, `Table.lookedUp` — the representatives of two types, and the table after the search
* `Table.measure` — what gets smaller

## Main results

* `Table.continues_unifyWithin` — what a unification leaves
* `Table.unifyWithin_congr` — the bound makes no difference
* `Table.unify_eq` — unification solves the equation of its recursion
* `Table.unify_induction` — induction along the recursion
* `Table.unification_terminates` — it returns, and leaves no cycle
-/

namespace Reified

namespace Table

variable {T T' : Table}

/-! ## More and more is known -/

/-- There is no cycle among the bindings of the second table, which binds at least the variables that the first
one binds and resolves what that one has resolved as if it were the first to do so. -/
structure Knows (T T' : Table) : Prop where
  acyclic : T'.Acyclic
  size : T'.size = T.size
  unbound : ∀ id, T'.binding? id = none → T.binding? id = none
  deep : ∀ t, T'.deep (T.deep t) = T'.deep t

namespace Knows

theorem refl (hT : T.Acyclic) : T.Knows T := ⟨hT, rfl, fun _ => id, deep_deep hT⟩

theorem trans {T₁ T₂ T₃ : Table} (h : T₁.Knows T₂) (h' : T₂.Knows T₃) : T₁.Knows T₃ where
  acyclic := h'.acyclic
  size := h'.size.trans h.size
  unbound id hid := h.unbound id (h'.unbound id hid)
  deep t := by rw [← h'.deep (T₁.deep t), h.deep, h'.deep]

theorem of_same (hT : T.Acyclic) (h : T.Same T') : T.Knows T' where
  acyclic := h.acyclic hT
  size := h.size
  unbound _ := h.unbound_iff.mp
  deep := h.deep_deep hT

theorem of_binding?_eq (hT : T.Acyclic) (hs : T'.size = T.size)
    (hb : ∀ id, T'.binding? id = T.binding? id) : T.Knows T' :=
  of_same hT (same_of_binding?_eq hT hs hb)

/-- A variable that does not remain in the type is bound to it. -/
theorem setBinding (hT : T.Acyclic) {id : Nat} {t : Ty} (hu : T.binding? id = none)
    (ht : ¬ T.Reaches t id) : T.Knows (T.setBinding id t) := by
  by_cases hid : id < T.size
  · refine ⟨hT.setBinding hid hu ht, size_setBinding id t, fun v hv => ?_, fun u => ?_⟩
    · rw [binding?_setBinding hid] at hv
      split at hv
      · simp at hv
      · exact hv
    · rw [deep_setBinding hT hid hu ht, deep_setBinding hT hid hu ht, deep_deep hT]
  · rw [Table.setBinding, if_neg hid]
    exact refl hT

end Knows

/-- The number of unbound variables. -/
def free (T : Table) : Nat := ((Finset.range T.size).filter fun id => T.isBound id = false).card

/-- Nobody forgets a binding. If none is added, then the second table says the same of every type. -/
theorem Knows.free_lt_or_deep_eq (h : T.Knows T') (hT : T.Acyclic) :
    T'.free < T.free ∨ T'.free = T.free ∧ ∀ t, T'.deep t = T.deep t := by
  let unbound (S : Table) : Finset Nat := (Finset.range S.size).filter fun id => S.isBound id = false
  have hsub : unbound T' ⊆ unbound T := fun id hid => by
    simp only [unbound, Finset.mem_filter, Finset.mem_range, isBound_eq_false] at hid ⊢
    exact ⟨h.size ▸ hid.1, h.unbound id hid.2⟩
  rcases (Finset.card_le_card hsub).lt_or_eq with hlt | heq
  · exact .inl hlt
  · refine .inr ⟨heq, fun t => ?_⟩
    have hsame := Finset.eq_of_subset_of_card_le hsub heq.ge
    have hiff (id : Nat) : T.binding? id = none → T'.binding? id = none := fun hid => by
      by_cases hlt : id < T.size
      · have hmem : id ∈ unbound T := by
          simp only [unbound, Finset.mem_filter, Finset.mem_range, isBound_eq_false]
          exact ⟨hlt, hid⟩
        rw [← hsame] at hmem
        exact isBound_eq_false.mp (Finset.mem_filter.mp hmem).2
      · exact binding?_of_size_le (h.size ▸ Nat.le_of_not_lt hlt)
    -- what remains in the first table remains in the second one
    rw [← h.deep t, deep_eq_subst]
    conv_rhs => rw [← Ty.subst_var (T.deep t)]
    exact Ty.subst_congr fun w hw =>
      deep_var_of_unbound (hiff _ (unbound_of_mem_vars_deep hT hw))

/-! ## What a unification leaves -/

/-- The second table knows all that the first one knows, and what happened in between can be undone while a
snapshot is open. -/
structure Continues (T T' : Table) : Prop extends T.Knows T' where
  snapshots : T'.snapshots = T.snapshots
  since : 0 < T.snapshots → T.Since [] T'

namespace Continues

theorem refl (hT : T.Acyclic) : T.Continues T := ⟨.refl hT, rfl, fun _ => .refl T⟩

theorem trans {T₁ T₂ T₃ : Table} (h : T₁.Continues T₂) (h' : T₂.Continues T₃) : T₁.Continues T₃ where
  toKnows := h.toKnows.trans h'.toKnows
  snapshots := h'.snapshots.trans h.snapshots
  since hs := (h.since hs).trans (h'.since (h.snapshots.symm ▸ hs))

theorem of_steady (hT : T.Acyclic) (h : T.Steady T') (hs : 0 < T.snapshots → T.Since [] T') :
    T.Continues T' :=
  ⟨.of_same hT h.same, h.restores.snapshots, hs⟩

theorem resolve (hT : T.Acyclic) (t : Ty) : T.Continues (T.resolve t).2 :=
  .of_steady hT (steady_resolve hT t).1 fun hs => since_resolve hs t

theorem resolveDeep (hT : T.Acyclic) (t : Ty) : T.Continues (T.resolveDeep t).2 :=
  .of_steady hT (steady_resolveDeep hT t).2 fun hs => since_resolveDeep hs t

theorem mismatch (hT : T.Acyclic) (a b : Ty) : T.Continues (T.mismatch a b).table :=
  have h := resolveDeep hT a
  h.trans (resolveDeep h.acyclic b)

theorem bind (hT : T.Acyclic) {v : TyVar} (hv : T.binds (.var v) = false) (t : Ty) :
    T.Continues (T.bind v t).table := by
  refine ⟨?_, ?_, fun hs => since_bind hs v t⟩ <;>
    obtain ⟨hiff, hsteady⟩ := checks_occurs hT v.id (T.level v.id) t <;>
    unfold Table.bind <;>
    generalize T.occurs v.id (T.level v.id) t = r at hiff hsteady ⊢ <;>
    obtain ⟨b, S⟩ := r <;>
    have hS := hsteady.acyclic hT <;>
    cases b
  · refine (Knows.of_same hT hsteady.same).trans (.setBinding hS ?_ fun hreaches => ?_)
    · exact hsteady.same.unbound_iff.mpr (isBound_eq_false.mp hv)
    · rw [Reaches, hsteady.same.deep] at hreaches
      exact absurd (hiff.mpr hreaches) Bool.false_ne_true
  · exact (Knows.of_same hT hsteady.same).trans (resolveDeep hS t).toKnows
  · exact (snapshots_setBinding v.id t).trans hsteady.restores.snapshots
  · exact (resolveDeep hS t).snapshots.trans hsteady.restores.snapshots

/-- A rollback leads back to the bindings of the snapshot. -/
theorem rollback (hT : T.Acyclic) (h : T.snapshot.2.Continues T') :
    T.Continues (T'.rollback T.snapshot.1) := by
  have hback := (h.since (Nat.succ_pos _)).rollback_eq
  rw [close_snapshot_grow, grow_nil] at hback
  rw [hback]
  refine ⟨.of_binding?_eq hT rfl fun _ => rfl, rfl, fun hs => ?_⟩
  rw [if_neg hs.ne']
  exact .refl T

theorem commit (hT : T.Acyclic) (h : T.snapshot.2.Continues T') : T.Continues T'.commit := by
  have hb : ∀ id, T'.commit.binding? id = T'.binding? id := fun id => by
    unfold Table.commit close
    split <;> rfl
  have hs : T'.commit.size = T'.size := by
    unfold Table.commit close
    split <;> rfl
  have hsnap : T.Knows T.snapshot.2 := .of_binding?_eq hT rfl fun _ => rfl
  refine ⟨(hsnap.trans h.toKnows).trans (.of_binding?_eq h.acyclic hs hb), ?_, fun hs => ?_⟩
  · have hopen : T'.snapshots = T.snapshots + 1 := h.snapshots
    unfold Table.commit close
    split
    · dsimp only
      omega
    · dsimp only
      omega
  · exact (h.since (Nat.succ_pos _)).commit hs

theorem stable : Stable Acyclic Continues (fun _ => True) fun T t => T.binds t = false where
  part _ _ := trivial
  keeps _ h := h.acyclic
  refl := refl
  trans := trans
  snapshot hT := hT
  rollback hT h := h.rollback hT
  commit hT h := h.commit hT
  unbound h := h
  resolve hT _ := ⟨trivial, resolve hT _⟩
  resolve_final {T a b} hT _ _ := by
    obtain ⟨h₁, -, hf₁⟩ := steady_resolve hT a
    obtain ⟨h₂, -, hf₂⟩ := steady_resolve (h₁.acyclic hT) b
    exact ⟨(h₂.same.binds _).trans hf₁, hf₂⟩
  mismatch hT _ _ := mismatch hT _ _
  missingField _ hT _ := resolveDeep hT _
  bind hT _ hv _ _ := bind hT hv _

end Continues

/-- What a unification leaves, whether it succeeds or not and however many steps it is allowed. -/
theorem continues_unifyWithin (n : Nat) (hT : T.Acyclic) (a b : Ty) :
    T.Continues (unifyWithin n a b T).table :=
  Unified.leaves_self.mp (Continues.stable.outcomes.unifyWithin n a b T hT trivial trivial)

/-! ## The calls that are made -/

/-- The parts of what two types stand for are smaller. -/
theorem size_deep_lt {a b : Ty} {p : Ty × Ty} (h : a.Descends b p) :
    (T.deep p.1).size + (T.deep p.2).size < (T.deep a).size + (T.deep b).size := by
  have hpart {c t : Ty} (hc : c.Part t) : (T.deep c).size < (T.deep t).size := (hc.subst _).size_lt
  cases h with
  | left hc => have := hpart hc; dsimp only; omega
  | right hd => have := hpart hd; dsimp only; omega
  | both hc hd => have := hpart hc; have := hpart hd; dsimp only; omega

section calls

variable {f : Ty × Ty × Table → Unified} {a b : Ty}

theorem asks_unifyAll (hf : ∀ p : Ty × Ty × Table, p.2.2.Acyclic → p.2.2.Continues (f p).table)
    (missing : Option (String × Ty)) {ps : List (Ty × Ty)} (hT : T.Acyclic) :
    (unifyAll missing ps T).Asks f fun p => (p.1, p.2.1) ∈ ps ∧ T.Knows p.2.2 := by
  induction ps generalizing T with
  | nil => trivial
  | cons p ps ih =>
    have h := hf (p.1, p.2, T) hT
    refine ⟨⟨by simp, .refl hT⟩, ?_⟩
    cases hr : f (p.1, p.2, T) with
    | error e S => trivial
    | ok _ S =>
      rw [hr] at h
      exact (ih h.acyclic).mono fun q hq => ⟨List.mem_cons_of_mem _ hq.1, h.toKnows.trans hq.2⟩

/-- Whatever is called for is about the pairs that are posed, in a table that has forgotten nothing. -/
theorem asks_handle (hf : ∀ p : Ty × Ty × Table, p.2.2.Acyclic → p.2.2.Continues (f p).table)
    (hT : T.Acyclic) (m : Meeting) :
    (handle a b T m).Asks f fun p => m.Poses (p.1, p.2.1) ∧ T.Knows p.2.2 := by
  cases m with
  | all pairs missing => exact asks_unifyAll hf missing hT
  | either p q =>
    have h : T.snapshot.2.Continues (f (p.1, p.2, T.snapshot.2)).table := hf (p.1, p.2, T.snapshot.2) hT
    refine ⟨⟨.inl rfl, .of_binding?_eq hT rfl fun _ => rfl⟩, ?_⟩
    cases hr : f (p.1, p.2, T.snapshot.2) with
    | ok _ S => trivial
    | error e S =>
      rw [hr] at h
      have hback := (Continues.rollback hT h).toKnows
      refine ⟨⟨.inr rfl, hback⟩, ?_⟩
      cases hr : f (q.1, q.2, S.rollback T.snapshot.1) <;> trivial
  | _ => trivial

end calls

/-! ## The bound makes no difference -/

/-- The variables of `V` have been passed on the way to the type: they are bound, the type is none of them,
and it is not larger than any of them, whatever replaces what the table leaves unbound. -/
structure Passed (T : Table) (V : Finset Nat) (t : Ty) : Prop where
  isBound : ∀ x ∈ V, T.isBound x = true
  fresh : ∀ v, t = .var v → v.id ∉ V
  size_le : ∀ x ∈ V, ∀ θ : TyVar → Ty,
    ((T.deep t).subst θ).size ≤ ((T.deep (.var ⟨x, "", false, false⟩)).subst θ).size

/-- A bound variable is known by its number. -/
theorem deep_var_eq (hT : T.Acyclic) {v : TyVar} (hv : T.isBound v.id = true) :
    T.deep (.var ⟨v.id, "", false, false⟩) = T.deep (.var v) := by
  obtain ⟨s, hs⟩ := isBound_eq_true.mp hv
  rw [deep_var_of_binding hT hs, deep_var_of_binding (v := ⟨v.id, "", false, false⟩) hT hs]

namespace Passed

variable {V : Finset Nat} {t : Ty}

theorem empty (t : Ty) : T.Passed ∅ t where
  isBound x hx := absurd hx (Finset.notMem_empty x)
  fresh v _ := Finset.notMem_empty v.id
  size_le x hx := absurd hx (Finset.notMem_empty x)

theorem card_le (h : T.Passed V t) : V.card ≤ T.size := by
  have hsub : V ⊆ Finset.range T.size := fun x hx => by
    obtain ⟨s, hs⟩ := isBound_eq_true.mp (h.isBound x hx)
    exact Finset.mem_range.mpr (lt_size_of_binding? hs)
  exact (Finset.card_le_card hsub).trans (Finset.card_range _).le

theorem part (hT : T.Acyclic) (h : T.Passed V t) {c : Ty} (hc : c.Part t) : T.Passed V c where
  isBound := h.isBound
  fresh v hv hmem := by
    have hlt : (T.deep c).size < (T.deep t).size := (hc.subst _).size_lt
    have hle := h.size_le v.id hmem .var
    rw [Ty.subst_var, Ty.subst_var, deep_var_eq hT (h.isBound _ hmem), ← hv] at hle
    omega
  size_le x hx θ := (hc.subst _ |>.subst θ).size_lt.le.trans (h.size_le x hx θ)

/-- What a table says that knows more is obtained by a substitution. -/
theorem mono (h : T.Passed V t) (hknows : T.Knows T') : T'.Passed V t where
  isBound x hx := by
    cases hb : T'.isBound x with
    | true => rfl
    | false =>
      have hbound := h.isBound x hx
      rw [isBound_eq_false.mpr (hknows.unbound x (isBound_eq_false.mp hb))] at hbound
      exact hbound
  fresh := h.fresh
  size_le x hx θ := by
    have hdeep (u : Ty) : T'.deep u = (T.deep u).subst fun v => T'.deep (.var v) := by
      rw [← hknows.deep u, deep_eq_subst]
    rw [hdeep t, hdeep (.var _), Ty.subst_subst, Ty.subst_subst]
    exact h.size_le x hx _

/-- **No variable is passed twice.** When the representative of a bound variable is taken, one more variable
has been passed. -/
theorem resolve (hT : T.Acyclic) (h : T.Passed V t) :
    ∃ V', V'.card = V.card + (if T.binds t then 1 else 0) ∧
      (T.resolve t).2.Passed V' (T.resolve t).1 := by
  obtain ⟨hsteady, hdeep, hfinal⟩ := steady_resolve hT t
  have hd (u : Ty) : (T.resolve t).2.deep u = T.deep u := hsteady.same.deep u
  -- whatever has been passed is bound, and the representative is not
  have key {V' : Finset Nat} (hbound : ∀ x ∈ V', T.isBound x = true)
      (hle : ∀ x ∈ V', ∀ θ : TyVar → Ty,
        ((T.deep t).subst θ).size ≤ ((T.deep (.var ⟨x, "", false, false⟩)).subst θ).size) :
      (T.resolve t).2.Passed V' (T.resolve t).1 := by
    refine ⟨fun x hx => (hsteady.same.isBound x).trans (hbound x hx), fun v hv hmem => ?_,
      fun x hx θ => ?_⟩
    · rw [hv] at hfinal
      have hbound := hbound _ hmem
      rw [← hsteady.same.isBound] at hbound
      exact Bool.false_ne_true (hfinal.symm.trans hbound)
    · rw [hd, hd, hdeep]
      exact hle x hx θ
  cases hb : T.binds t with
  | false => exact ⟨V, rfl, key h.isBound h.size_le⟩
  | true =>
    obtain ⟨v, rfl⟩ : ∃ v, t = .var v := by
      cases t with
      | var v => exact ⟨v, rfl⟩
      | _ => simp [binds] at hb
    have hbound : T.isBound v.id = true := hb
    refine ⟨insert v.id V, by simp [Finset.card_insert_of_notMem (h.fresh v rfl)],
      key (fun x hx => ?_) fun x hx θ => ?_⟩
    · rcases Finset.mem_insert.mp hx with rfl | hx
      · exact hbound
      · exact h.isBound x hx
    · rcases Finset.mem_insert.mp hx with rfl | hx
      · rw [deep_var_eq hT hbound]
      · exact h.size_le x hx θ

theorem descends (hT : T.Acyclic) {W : Finset Nat} {a b : Ty} (ha : T.Passed V a) (hb : T.Passed W b)
    {p : Ty × Ty} (h : a.Descends b p) : T.Passed V p.1 ∧ T.Passed W p.2 := by
  cases h with
  | left hc => exact ⟨ha.part hT hc, hb⟩
  | right hd => exact ⟨ha, hb.part hT hd⟩
  | both hc hd => exact ⟨ha.part hT hc, hb.part hT hd⟩

end Passed

theorem continues_within (n : Nat) (p : Ty × Ty × Table) (hT : p.2.2.Acyclic) :
    p.2.2.Continues (within n p).table :=
  continues_unifyWithin n hT p.1 p.2.1

/-- Unification through numbers of bindings, both of which are enough for all the variables that have not been
passed, gives one result. -/
theorem unifyWithin_congr (n n' : Nat) (a b : Ty) (T : Table) {V W : Finset Nat} (hT : T.Acyclic)
    (ha : T.Passed V a) (hb : T.Passed W b) (hn : 2 * T.size < n + V.card + W.card)
    (hn' : 2 * T.size < n' + V.card + W.card) : unifyWithin n a b T = unifyWithin n' a b T := by
  -- two representatives: all that is asked for is asked about their parts
  have hforms {n n' : Nat} {a b : Ty} {S : Table} {V W : Finset Nat} (hS : S.Acyclic) (ha : S.Passed V a)
      (hb : S.Passed W b)
      (ih : ∀ p R, a.Descends b p → S.Knows R → R.Passed V p.1 → R.Passed W p.2 →
        unifyWithin n p.1 p.2 R = unifyWithin n' p.1 p.2 R) :
      unifyForms n a b S = unifyForms n' a b S := by
    rw [unifyForms_eq, unifyForms_eq]
    refine Calling.eval_congr ((asks_handle (continues_within n) hS _).mono fun p hp => ?_)
    have hdescends := Ty.descends_of_poses hp.1
    obtain ⟨hc, hd⟩ := ha.descends hS hb hdescends
    exact ih (p.1, p.2.1) p.2.2 hdescends hp.2 (hc.mono hp.2) (hd.mono hp.2)
  rw [unifyWithin.eq_def n, unifyWithin.eq_def n']
  split
  · next h =>
    have hV := ha.card_le
    have hW := hb.card_le
    obtain ⟨m, rfl⟩ : ∃ m, n = m + 1 := ⟨n - 1, by omega⟩
    obtain ⟨m', rfl⟩ : ∃ m, n' = m + 1 := ⟨n' - 1, by omega⟩
    dsimp only
    have hka := Continues.resolve hT a
    have hkb := Continues.resolve hka.acyclic b
    obtain ⟨V', hV', ha'⟩ := ha.resolve hT
    obtain ⟨W', hW', hb'⟩ := (hb.mono hka.toKnows).resolve hka.acyclic
    have hsize : (((T.resolve a).2).resolve b).2.size = T.size := hkb.size.trans hka.size
    have hcard : V.card + W.card + 1 ≤ V'.card + W'.card := by
      rw [hV', hW', (steady_resolve hT a).1.same.binds]
      rcases (Bool.or_eq_true _ _).mp h with h | h
      · rw [if_pos h]
        omega
      · rw [if_pos h]
        omega
    refine hforms hkb.acyclic (ha'.mono hkb.toKnows) hb' fun p R _ hR hc hd => ?_
    have hRsize := hR.size
    exact unifyWithin_congr m m' p.1 p.2 R hR.acyclic hc hd (by omega) (by omega)
  · refine hforms hT ha hb fun p R hp hR hc hd => ?_
    have hRsize := hR.size
    have hlt := hp.sizeOf_lt
    exact unifyWithin_congr n n' p.1 p.2 R hR.acyclic hc hd (by omega) (by omega)
termination_by (n, sizeOf a + sizeOf b)

/-! ## The recursion -/

/-- Unification as a function of the problem. -/
def unifies (p : Ty × Ty × Table) : Unified := p.2.2.unify p.1 p.2.1

theorem continues_unify (p : Ty × Ty × Table) (hT : p.2.2.Acyclic) : p.2.2.Continues (unifies p).table :=
  continues_unifyWithin _ hT p.1 p.2.1

/-- What is not bound is its own representative. -/
theorem resolve_of_binds_eq_false (hT : T.Acyclic) {t : Ty} (ht : T.binds t = false) :
    T.resolve t = (t, T) := by
  cases t with
  | var v => exact (finds_resolve hT v).unbound (isBound_eq_false.mp ht)
  | _ => exact resolve_of_not_var nofun

theorem unifyBody_eq_handle (hT : T.Acyclic) {a b : Ty} (ha : T.binds a = false) (hb : T.binds b = false) :
    unifyBody (a, b, T) = handle a b T (a.meet b) := by
  rw [unifyBody, resolve_of_binds_eq_false hT ha]
  dsimp only
  rw [resolve_of_binds_eq_false hT hb]

/-- **Unification solves the equation of its recursion.** -/
theorem unify_eq (hT : T.Acyclic) (a b : Ty) :
    T.unify a b = (unifyBody (a, b, T)).eval unifies := by
  have hka := Continues.resolve hT a
  have hkb := Continues.resolve hka.acyclic b
  have hsize : (((T.resolve a).2).resolve b).2.size = T.size := hkb.size.trans hka.size
  -- the bound that is left is enough for the parts
  have key {n : Nat} {V W : Finset Nat} {a b : Ty} {S : Table} (hS : S.Acyclic) (ha : S.Passed V a)
      (hb : S.Passed W b) (hn : 2 * S.size < n + V.card + W.card) :
      unifyForms n a b S = (handle a b S (a.meet b)).eval unifies := by
    rw [unifyForms_eq]
    refine Calling.eval_congr ((asks_handle (continues_within n) hS _).mono fun p hp => ?_)
    obtain ⟨hc, hd⟩ := ha.descends hS hb (Ty.descends_of_poses hp.1)
    have hRsize := hp.2.size
    exact unifyWithin_congr n _ _ _ _ hp.2.acyclic (hc.mono hp.2) (hd.mono hp.2) (by omega) (by omega)
  obtain ⟨V, hV, ha⟩ := (Passed.empty a).resolve hT
  obtain ⟨W, hW, hb⟩ := ((Passed.empty b).mono hka.toKnows).resolve hka.acyclic
  rw [unify, unifyWithin.eq_def]
  split
  · next h =>
    have hn : 2 * ((T.resolve a).2.resolve b).2.size < 2 * T.size + V.card + W.card := by
      rw [hV, hW, (steady_resolve hT a).1.same.binds, hsize]
      rcases (Bool.or_eq_true _ _).mp h with h | h
      · rw [if_pos h, Finset.card_empty]
        omega
      · rw [if_pos h, Finset.card_empty]
        omega
    exact key hkb.acyclic (ha.mono hkb.toKnows) hb hn
  · next h =>
    rw [Bool.or_eq_true, not_or, Bool.not_eq_true, Bool.not_eq_true] at h
    rw [unifyBody_eq_handle hT h.1 h.2]
    exact key hT (Passed.empty a) (Passed.empty b) (by omega)

/-- The number of unbound variables, and the size of what the two types stand for. -/
def measure (p : Ty × Ty × Table) : Nat × Nat :=
  (p.2.2.free, (p.2.2.deep p.1).size + (p.2.2.deep p.2.1).size)

/-- The table in which both types have been looked up. -/
def lookedUp (T : Table) (a b : Ty) : Table := ((T.resolve a).2.resolve b).2

/-- The representatives of two types, looked up one after the other. -/
def heads (T : Table) (a b : Ty) : Ty × Ty := ((T.resolve a).1, ((T.resolve a).2.resolve b).1)

theorem unifyBody_eq (a b : Ty) (T : Table) : unifyBody (a, b, T) =
    handle (T.heads a b).1 (T.heads a b).2 (T.lookedUp a b) ((T.heads a b).1.meet (T.heads a b).2) := rfl

theorem same_lookedUp (hT : T.Acyclic) (a b : Ty) : T.Same (T.lookedUp a b) :=
  have h := (steady_resolve hT a).1
  h.same.trans (steady_resolve (h.acyclic hT) b).1.same

theorem deep_heads (hT : T.Acyclic) (a b : Ty) :
    T.deep (T.heads a b).1 = T.deep a ∧ T.deep (T.heads a b).2 = T.deep b := by
  obtain ⟨hsteady, hdeep, -⟩ := steady_resolve hT a
  refine ⟨hdeep, ?_⟩
  rw [heads, ← hsteady.same.deep, (steady_resolve (hsteady.acyclic hT) b).2.1, hsteady.same.deep]

theorem binds_heads (hT : T.Acyclic) (a b : Ty) :
    T.binds (T.heads a b).1 = false ∧ T.binds (T.heads a b).2 = false := by
  obtain ⟨hsteady, -, hfinal⟩ := steady_resolve hT a
  obtain ⟨hsteady', -, hfinal'⟩ := steady_resolve (hsteady.acyclic hT) b
  refine ⟨(hsteady.same.binds _).symm.trans hfinal, ?_⟩
  rw [heads, ← hsteady.same.binds, ← hsteady'.same.binds]
  exact hfinal'

/-- Whatever is asked for when two types meet is smaller, in every table that knows more. -/
theorem measure_lt (hT : T.Acyclic) {a b : Ty} {p : Ty × Ty} {R : Table}
    (hp : ((T.heads a b).1.meet (T.heads a b).2).Poses p) (hR : (T.lookedUp a b).Knows R) :
    Prod.Lex (· < ·) (· < ·) (measure (p.1, p.2, R)) (measure (a, b, T)) := by
  have hknows := (Knows.of_same hT (same_lookedUp hT a b)).trans hR
  rcases hknows.free_lt_or_deep_eq hT with hlt | ⟨heq, hdeep⟩
  · exact .left _ _ hlt
  · have hlt := size_deep_lt (T := T) (Ty.descends_of_poses hp)
    rw [(deep_heads hT a b).1, (deep_heads hT a b).2] at hlt
    simp only [measure, heq, hdeep]
    exact .right _ hlt

/-- **Induction along the recursion**: what holds of two types in a table if it holds of all that is asked for
when they meet holds of all types, wherever there is no cycle among the bindings. -/
theorem unify_induction {motive : Ty → Ty → Table → Prop}
    (step : ∀ a b T, T.Acyclic → (∀ p R, ((T.heads a b).1.meet (T.heads a b).2).Poses p →
      (T.lookedUp a b).Knows R → motive p.1 p.2 R) → motive a b T)
    (a b : Ty) (T : Table) (hT : T.Acyclic) : motive a b T := by
  induction h : measure (a, b, T) using (Prod.lex Nat.lt_wfRel Nat.lt_wfRel).wf.induction
    generalizing a b T with
  | _ m ih =>
    subst h
    exact step a b T hT fun p R hp hR => ih _ (measure_lt hT hp hR) p.1 p.2 R hR.acyclic rfl

/-- Whatever a unification calls for is smaller. -/
theorem asks_unifyBody (hT : T.Acyclic) (a b : Ty) : (unifyBody (a, b, T)).Asks unifies fun p =>
    p.2.2.Acyclic ∧ Prod.Lex (· < ·) (· < ·) (measure p) (measure (a, b, T)) := by
  rw [unifyBody_eq]
  refine (asks_handle continues_unify ((same_lookedUp hT a b).acyclic hT) _).mono fun p hp => ?_
  exact ⟨hp.2.acyclic, measure_lt hT hp.1 hp.2⟩

/-- **Unification returns**, after finitely many calls, what `unify` computes. -/
theorem returns_unify (hT : T.Acyclic) (a b : Ty) :
    ∃ n, Calling.Returns unifyBody (unifyBody (a, b, T)) n (T.unify a b) :=
  Calling.terminates (P := fun p : Ty × Ty × Table => p.2.2.Acyclic) (f := unifies)
    (fun p hp => (unify_eq hp p.1 p.2.1).symm) (fun p hp => asks_unifyBody hp p.1 p.2.1) (a, b, T) hT

/-- **Unification terminates** wherever there is no cycle among the bindings, and leaves none. It solves the
equation of its recursion, in which every call is about a smaller problem, so that it returns after finitely
many calls, and so do the lookups that it makes. -/
theorem unification_terminates (hT : T.Acyclic) (a b : Ty) :
    T.unify a b = (unifyBody (a, b, T)).eval unifies ∧
    ((unifyBody (a, b, T)).Asks unifies fun p =>
      p.2.2.Acyclic ∧ Prod.Lex (· < ·) (· < ·) (measure p) (measure (a, b, T))) ∧
    (∃ n, Calling.Returns unifyBody (unifyBody (a, b, T)) n (T.unify a b)) ∧
    (T.unify a b).table.Acyclic ∧
    (∀ t, ∃ n, Calling.Returns followBody (followBody (t, T)) n (T.resolve t)) ∧
    (∀ t, ∃ n, Calling.Returns deepBody (deepBody (t, T)) n (T.resolveDeep t)) ∧
    ∀ id level t, ∃ n,
      Calling.Returns (occursBody id level) (occursBody id level (t, T)) n (T.occurs id level t) :=
  ⟨unify_eq hT a b, asks_unifyBody hT a b, returns_unify hT a b, (continues_unify (a, b, T) hT).acyclic,
    returns_resolve hT, returns_resolveDeep hT, returns_occurs hT⟩

/-- The first variable stands for an array of the second one, so that the first member of the union does not
unify with it: the attempt binds the second variable, and gives it back. -/
theorem unification_terminates_union :
    let b : TyVar := ⟨1, "b", false, false⟩
    let T : Table := ⟨#[⟨1, some (.array (.tuple [.var b, .var b])), false⟩, ⟨1, none, false⟩], #[], 0⟩
    let l : Ty := .array (.tuple [.number, .string])
    T.Acyclic ∧ ∃ n, Calling.Returns unifyBody
      (unifyBody (.union l (.array (.tuple [.number, .number])), .var ⟨0, "a", false, false⟩, T)) n
      (T.unify (.union l (.array (.tuple [.number, .number]))) (.var ⟨0, "a", false, false⟩)) := by
  have hT : Table.Acyclic ⟨#[⟨1, some (.array (.tuple [.var ⟨1, "b", false, false⟩,
      .var ⟨1, "b", false, false⟩])), false⟩, ⟨1, none, false⟩], #[], 0⟩ := by
    refine ⟨fun id => 1 - id, fun v t hv w hw => ?_⟩
    match v with
    | 0 => cases hv; simp [Ty.vars] at hw; subst hw; decide
    | 1 => cases hv
    | n + 2 => simp [binding?] at hv
  exact ⟨hT, (unification_terminates hT _ _).2.2.1⟩

end Table

end Reified
