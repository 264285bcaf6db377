import Reified.Proofs.Table.Deep
import Reified.Ty.Unify

/-!
# Looking types up

Following bindings, resolving a type at every depth and the occurs check change a table only by
shortcuts and by levels. The table afterwards says the same of every type, and a rollback to a
snapshot that was open before is not disturbed: walking back along what was added to the trail leads
to the very table that one started from. Nothing is asked of the table but that there is no cycle
among its bindings, and nothing of the types.

## Main definitions

* `Table.Restores` — walking back leads from one table to another
* `Table.Steady` — a table that says the same and from which walking back leads to the other
* `Table.Finds` — what the representative of a variable satisfies

## Main results

* `Table.Restores.rollback_eq` — rolling back gives the table of the snapshot
* `Table.finds_resolve`, `Table.steady_resolveDeep` — representatives, deep types
* `Table.checks_occurs` — the occurs check decides whether a variable remains in a type
-/

namespace Reified

namespace Table

variable {T T' : Table}

/-! ## Walking back to a table -/

/-- As many snapshots are open in both tables. If there are any, what the second table has more on
its trail leads back to the first one. -/
structure Restores (T T' : Table) : Prop where
  snapshots : T'.snapshots = T.snapshots
  quiet : T.snapshots = 0 → T'.trail = T.trail
  back : 0 < T.snapshots → ∃ n, T'.trail.size = T.trail.size + n ∧ T'.undoLast n = T

namespace Restores

theorem refl (T : Table) : T.Restores T :=
  ⟨rfl, fun _ => rfl, fun _ => ⟨0, rfl, rfl⟩⟩

theorem trans {T₁ T₂ T₃ : Table} (h : T₁.Restores T₂) (h' : T₂.Restores T₃) : T₁.Restores T₃ where
  snapshots := h'.snapshots.trans h.snapshots
  quiet hq := (h'.quiet (h.snapshots.trans hq)).trans (h.quiet hq)
  back hs := by
    obtain ⟨m, hm, hback⟩ := h.back hs
    obtain ⟨n, hn, hback'⟩ := h'.back (h.snapshots.symm ▸ hs)
    exact ⟨n + m, by omega, by rw [← undoLast_add, hback', hback]⟩

theorem setBinding (T : Table) (id : Nat) (t : Ty) : T.Restores (T.setBinding id t) := by
  by_cases hid : id < T.size
  · refine ⟨snapshots_setBinding id t, fun hq => ?_, fun hs => ⟨1, ?_, ?_⟩⟩
    · simp [Table.setBinding, hid, note, hq]
    · simp [Table.setBinding, hid, note, hs]
    · exact undoLast_setBinding hid hs t 0
  · rw [Table.setBinding, if_neg hid]
    exact .refl T

theorem setLevel (T : Table) (id level : Nat) : T.Restores (T.setLevel id level) := by
  by_cases hid : id < T.size
  · refine ⟨snapshots_setLevel id level, fun hq => ?_, fun hs => ⟨1, ?_, ?_⟩⟩
    · simp [Table.setLevel, hid, note, hq]
    · simp [Table.setLevel, hid, note, hs]
    · exact undoLast_setLevel hid hs level 0
  · rw [Table.setLevel, if_neg hid]
    exact .refl T

/-- Walking back does not look at the number of open snapshots. -/
theorem undoLast_snapshots (T : Table) (k n : Nat) :
    ({ T with snapshots := k } : Table).undoLast n = { T.undoLast n with snapshots := k } := by
  induction n generalizing T with
  | zero => rfl
  | succ n ih =>
    rw [undoLast, undoLast]
    cases T.trail.back? with
    | none => rfl
    | some u =>
      cases u with
      | binding => exact ih (undo { T with trail := T.trail.pop } (.binding ..))
      | level => exact ih (undo { T with trail := T.trail.pop } (.level ..))

/-- **Rolling back gives the table of the snapshot.** -/
theorem rollback_eq (h : T.snapshot.2.Restores T') (hq : T.snapshots = 0 → T.trail = #[]) :
    T'.rollback T.snapshot.1 = T := by
  obtain ⟨n, hn, hback⟩ := h.back (Nat.succ_pos _)
  have hsize : T'.trail.size - T.snapshot.1.length = n := by
    rw [hn]
    exact Nat.add_sub_cancel_left _ _
  rw [rollback, hsize, hback, close]
  obtain ⟨entries, trail, snapshots⟩ := T
  split
  · next hle =>
    obtain rfl : snapshots = 0 := Nat.le_zero.mp (Nat.le_of_succ_le_succ hle)
    obtain rfl : trail = #[] := hq rfl
    rfl
  · rfl

/-- What was done since a snapshot can be undone after the snapshot is closed, if another one is
open. -/
theorem commit (h : T.snapshot.2.Restores T') (hq : T.snapshots = 0 → T.trail = #[]) :
    T.Restores T'.commit := by
  have hsnap : T'.snapshots = T.snapshots + 1 := h.snapshots
  obtain ⟨n, hn, hback⟩ := h.back (Nat.succ_pos _)
  rw [Table.commit, close]
  split
  · have hzero : T.snapshots = 0 := by omega
    exact ⟨hzero.symm, fun _ => (hq hzero).symm, fun hs => absurd hzero hs.ne'⟩
  · have hpred : T'.snapshots - 1 = T.snapshots := by omega
    rw [hpred]
    exact ⟨rfl, fun hzero => by omega, fun _ => ⟨n, hn, by rw [undoLast_snapshots, hback]; rfl⟩⟩

end Restores

/-! ## Steady changes -/

/-- The second table says the same of every type, and walking back leads to the first. -/
structure Steady (T T' : Table) : Prop where
  same : T.Same T'
  restores : T.Restores T'

namespace Steady

theorem refl (T : Table) : T.Steady T := ⟨.refl T, .refl T⟩

theorem trans {T₁ T₂ T₃ : Table} (h : T₁.Steady T₂) (h' : T₂.Steady T₃) : T₁.Steady T₃ :=
  ⟨h.same.trans h'.same, h.restores.trans h'.restores⟩

theorem acyclic (h : T.Steady T') (hT : T.Acyclic) : T'.Acyclic := h.same.acyclic hT

theorem setLevel (hT : T.Acyclic) (id level : Nat) : T.Steady (T.setLevel id level) :=
  ⟨same_of_binding?_eq hT (size_setLevel id level) (binding?_setLevel id level),
    .setLevel T id level⟩

end Steady

theorem Same.binds (h : T.Same T') (t : Ty) : T'.binds t = T.binds t := by
  cases t with
  | var v => exact h.isBound v.id
  | _ => rfl

/-! ## Representatives -/

theorem binds_eq_false {t : Ty} : T.binds t = false ↔ ∀ v, t = .var v → T.binding? v.id = none := by
  cases t <;> simp [binds, isBound]

/-- What the representative `r.1` of a variable `v` satisfies, `r.2` being the table after the
search. -/
structure Finds (T : Table) (v : TyVar) (r : Ty × Table) : Prop where
  steady : T.Steady r.2
  deep : T.deep r.1 = T.deep (.var v)
  final : r.2.binds r.1 = false
  unbound : T.binding? v.id = none → r = (.var v, T)
  /-- The representative of a bound variable is further along the bindings. -/
  lt : ∀ t, T.binding? v.id = some t → ∀ rank, T.Ranks rank →
    ∀ w ∈ r.1.vars, rank w.id < rank v.id

theorem finds_self {v : TyVar} (hb : T.binding? v.id = none) : T.Finds v (.var v, T) where
  steady := .refl T
  deep := rfl
  final := isBound_eq_false.mpr hb
  unbound _ := rfl
  lt t ht := absurd (hb.symm.trans ht) (by simp)

/-- An unbound variable is its own representative. -/
theorem follow_of_unbound {v : TyVar} (h : T.binding? v.id = none) (n : Nat) :
    follow n T (.var v) = (.var v, T) := by
  cases n with
  | zero => rfl
  | succ n => rw [follow, h]

/-- **The search for a representative.** As many steps as the rank of the variable suffice. -/
theorem finds_follow {rank : Nat → Nat} (hr : T.Ranks rank) {n : Nat} {v : TyVar}
    (hn : rank v.id ≤ n) : T.Finds v (follow n T (.var v)) := by
  have hT := hr.acyclic
  induction n generalizing v with
  | zero =>
    have hb : T.binding? v.id = none := by
      cases hb : T.binding? v.id with
      | none => rfl
      | some t => exact absurd (hr.bound _ _ hb) (by omega)
    exact finds_self hb
  | succ n ih =>
    rw [follow]
    cases hb : T.binding? v.id with
    | none => exact finds_self hb
    | some s =>
      have hdeep := deep_var_of_binding hT hb
      have step : ∀ {t : Ty}, T.deep t = T.deep s → T.binds t = false →
          (∀ rank, T.Ranks rank → ∀ w ∈ t.vars, rank w.id < rank v.id) →
          T.Finds v (t, T) := fun hd hf hlt =>
        ⟨.refl T, hd.trans hdeep.symm, hf, fun h => absurd (h.symm.trans hb) (by simp),
          fun _ _ => hlt⟩
      cases s with
      | var w =>
        have hlt : ∀ rank, T.Ranks rank → rank w.id < rank v.id := fun rank hr =>
          hr.lt _ _ hb w (by simp [Ty.vars])
        have hw := ih (v := w) (by have := hlt rank hr; omega)
        have hlt' : ∀ rank, T.Ranks rank → ∀ x ∈ (follow n T (.var w)).1.vars,
            rank x.id < rank v.id := fun rank hr x hx => by
          cases hbw : T.binding? w.id with
          | none =>
            rw [hw.unbound hbw] at hx
            simp only [Ty.vars, List.mem_singleton] at hx
            exact hx ▸ hlt rank hr
          | some u => exact (hw.lt u hbw rank hr x hx).trans (hlt rank hr)
        have hne : T.binding? v.id ≠ none := by simp [hb]
        simp only
        split
        · exact ⟨hw.steady, hw.deep.trans hdeep.symm, hw.final, fun h => absurd h hne,
            fun _ _ => hlt'⟩
        · -- the shortcut from `v` to the representative of `w`
          obtain ⟨u, hu⟩ := isBound_eq_true.mp
            ((hw.steady.same.isBound v.id).trans (isBound_eq_true.mpr ⟨_, hb⟩))
          have hd : (follow n T (.var w)).2.deep (follow n T (.var w)).1 =
              (follow n T (.var w)).2.deep u := by
            rw [← deep_var_of_binding (hw.steady.acyclic hT) hu, hw.steady.same.deep,
              hw.steady.same.deep, hw.deep, hdeep]
          have hsame := hw.steady.same.setBinding hT hu hd hlt'
          refine ⟨⟨hsame, hw.steady.restores.trans (.setBinding _ _ _)⟩,
            hw.deep.trans hdeep.symm, ?_, fun h => absurd h hne, fun _ _ => hlt'⟩
          rw [hsame.binds, ← hw.steady.same.binds]
          exact hw.final
      | name m => exact step rfl rfl fun rank hr => hr.lt _ _ hb
      | array t => exact step rfl rfl fun rank hr => hr.lt _ _ hb
      | tuple ts => exact step rfl rfl fun rank hr => hr.lt _ _ hb
      | record fs => exact step rfl rfl fun rank hr => hr.lt _ _ hb
      | fn ps r k => exact step rfl rfl fun rank hr => hr.lt _ _ hb
      | union a b => exact step rfl rfl fun rank hr => hr.lt _ _ hb
      | binding m t => exact step rfl rfl fun rank hr => hr.lt _ _ hb

theorem finds_resolve (hT : T.Acyclic) (v : TyVar) : T.Finds v (T.resolve (.var v)) := by
  obtain ⟨rank, hr⟩ := hT.exists_ranks
  exact finds_follow hr (hr.le_size _)

theorem resolve_of_not_var {t : Ty} (h : ∀ v, t ≠ .var v) : T.resolve t = (t, T) := by
  unfold resolve
  cases t with
  | var v => exact absurd rfl (h v)
  | _ => cases T.size <;> rfl

namespace Finds

variable {v w : TyVar} {r : Ty × Table}

/-- A representative that is a variable stands for itself. -/
theorem deep_var (h : T.Finds v r) (hw : r.1 = .var w) :
    T.deep (.var v) = .var w ∧ T.binding? w.id = none := by
  have hb := h.steady.same.unbound_iff.mp (binds_eq_false.mp h.final w hw)
  rw [← h.deep, hw]
  exact ⟨deep_var_of_unbound hb, hb⟩

/-- Only bound variables have a representative that is not a variable. -/
theorem bound (h : T.Finds v r) (hr : ∀ w, r.1 ≠ .var w) : ∃ t, T.binding? v.id = some t := by
  cases hb : T.binding? v.id with
  | none => exact absurd (by rw [h.unbound hb]) (hr v)
  | some t => exact ⟨t, rfl⟩

end Finds

/-- **The representative of a type.** It stands for the same and is not a bound variable. -/
theorem steady_resolve (hT : T.Acyclic) (t : Ty) :
    T.Steady (T.resolve t).2 ∧ T.deep (T.resolve t).1 = T.deep t ∧
      (T.resolve t).2.binds (T.resolve t).1 = false := by
  by_cases h : ∃ v, t = .var v
  · obtain ⟨v, rfl⟩ := h
    have hv := finds_resolve hT v
    exact ⟨hv.steady, hv.deep, hv.final⟩
  · rw [resolve_of_not_var fun v hv => h ⟨v, hv⟩]
    exact ⟨.refl T, rfl, binds_eq_false.mpr fun v hv => absurd ⟨v, hv⟩ h⟩

/-! ## Ranks after a change -/

section ranks

variable {rank : Nat → Nat}

theorem Ranks.resolve (hr : T.Ranks rank) (t : Ty) : (T.resolve t).2.Ranks rank :=
  (steady_resolve hr.acyclic t).1.same.ranks rank hr

theorem Ranks.setLevel (hr : T.Ranks rank) (id level : Nat) : (T.setLevel id level).Ranks rank :=
  (Steady.setLevel hr.acyclic id level).same.ranks rank hr

theorem Ranks.newVar (hr : T.Ranks rank) (name : String) (inferred rigid : Bool) (level : Nat) :
    (T.newVar name inferred rigid level).2.Ranks rank := by
  have hb := binding?_newVar (T := T) name inferred rigid level
  refine ⟨fun v hv => hr.unbound v (hb v ▸ hv), fun v t hv => hr.bound v t (hb v ▸ hv), fun v => ?_,
    fun v t hv => hr.lt v t (hb v ▸ hv)⟩
  rw [size_newVar]
  exact Nat.le_succ_of_le (hr.le_size v)

end ranks

/-! ## Deep types -/

theorem resolveVar_bind {α : Type} (v : TyVar) (f : Ty → StateM Table α) (T : Table) :
    (resolveVar v >>= f) T = f (T.resolve (.var v)).1 (T.resolve (.var v)).2 := rfl

theorem steady_deepen {rank : Nat → Nat} (hr : T.Ranks rank) {n : Nat} {t : Ty}
    (hn : ∀ w ∈ t.vars, rank w.id < n) (hT' : T.Steady T') :
    (deepen n t T').1 = T.deep t ∧ T.Steady (deepen n t T').2 := by
  induction n generalizing t T' with
  | zero =>
    refine ⟨?_, hT'⟩
    show t = _
    rw [deep_eq_subst, Ty.subst_congr (τ := .var) fun x hx => absurd (hn x hx) (Nat.not_lt_zero _),
      Ty.subst_var]
  | succ n ih =>
    rw [deepen, deep_eq_subst]
    refine Ty.replaceVarsM_eq_subst t (fun v hv S hS => ?_) T' hT'
    have hvr := finds_resolve (hS.acyclic hr.acyclic) v
    have hsteady := hS.trans hvr.steady
    rw [resolveVar_bind]
    generalize S.resolve (.var v) = r at hvr hsteady ⊢
    obtain ⟨u, S'⟩ := r
    dsimp only
    split
    · refine ⟨?_, hsteady⟩
      rw [← hS.same.deep, (hvr.deep_var rfl).1]
      rfl
    · next hnot =>
      obtain ⟨s, hs⟩ := hvr.bound hnot
      rw [← hS.same.deep, ← hvr.deep, hS.same.deep]
      refine ih (fun w hw => ?_) hsteady
      have h1 := hvr.lt s hs rank (hS.same.ranks rank hr) w hw
      have h2 := hn v hv
      omega

/-- **`resolveDeep` computes the deep type** and changes nothing. -/
theorem steady_resolveDeep (hT : T.Acyclic) (t : Ty) :
    (T.resolveDeep t).1 = T.deep t ∧ T.Steady (T.resolveDeep t).2 := by
  obtain ⟨rank, hr⟩ := hT.exists_ranks
  exact steady_deepen hr (fun w _ => Nat.lt_succ_of_le (hr.le_size _)) (.refl T)

/-- A type whose variables are unbound is resolved as it is. -/
theorem resolveDeep_of_unbound {t : Ty} (h : ∀ v ∈ t.vars, T.binding? v.id = none) :
    T.resolveDeep t = (t, T) := by
  suffices key : (T.resolveDeep t).1 = t.subst .var ∧ (T.resolveDeep t).2 = T by
    rw [Ty.subst_var] at key
    exact Prod.ext key.1 key.2
  rw [resolveDeep, deepen]
  refine @Ty.replaceVarsM_eq_subst Table _ (· = T) .var t (fun v hv S hS => ?_) T rfl
  obtain rfl : S = T := hS
  rw [resolveVar_bind, resolve, follow_of_unbound (h v hv)]
  exact ⟨rfl, rfl⟩

/-! ## The occurs check -/

section occurs

variable {id level : Nat} {rank : Nat → Nat}

/-- What an occurs check for `t` gives in a table that says the same as `T`. -/
def Checks (T : Table) (id : Nat) (t : Ty) (r : Bool × Table) : Prop :=
  (r.1 = true ↔ T.Reaches t id) ∧ T.Steady r.2

theorem checks_lowerUntil {n : Nat} {within : Ty → Table → Bool × Table} (hr : T.Ranks rank)
    (hwithin : ∀ t S, (∀ x ∈ t.vars, rank x.id < n) → T.Steady S → T.Checks id t (within t S))
    {ws : List TyVar} (hws : ∀ w ∈ ws, rank w.id < n + 1) (hT' : T.Steady T') :
    ((lowerUntil id level within ws T').1 = true ↔ ∃ w ∈ ws, T.Reaches (.var w) id) ∧
      T.Steady (lowerUntil id level within ws T').2 := by
  induction ws generalizing T' with
  | nil => exact ⟨by simp [lowerUntil], hT'⟩
  | cons v ws ih =>
    obtain ⟨hn, hws⟩ := List.forall_mem_cons.mp hws
    have hvr := finds_resolve (hT'.acyclic hr.acyclic) v
    have hdeep : T.deep (.var v) = T.deep (T'.resolve (.var v)).1 := by
      rw [← hT'.same.deep, ← hvr.deep, hT'.same.deep]
    have hsteady := hT'.trans hvr.steady
    rw [lowerUntil]
    generalize T'.resolve (.var v) = r at hvr hdeep hsteady ⊢
    obtain ⟨u, S⟩ := r
    simp only [List.exists_mem_cons_iff]
    split
    · next w S heq =>
      obtain ⟨rfl, rfl⟩ := Prod.mk.inj heq
      have hreach : T.Reaches (.var v) id ↔ w.id = id := by
        rw [Reaches, ← hT'.same.deep, (hvr.deep_var rfl).1]
        simp [Ty.vars]
      split
      · next hid => exact ⟨by simp [hreach, hid], hsteady⟩
      · next hid =>
        simp only [hreach, hid, false_or]
        split
        · exact ih hws (hsteady.trans (.setLevel (hsteady.acyclic hr.acyclic) w.id level))
        · exact ih hws hsteady
    · next t S hnot heq =>
      obtain ⟨rfl, rfl⟩ := Prod.mk.inj heq
      have hreach : T.Reaches (.var v) id ↔ T.Reaches u id := by
        rw [Reaches, hdeep]; rfl
      obtain ⟨s, hs⟩ := hvr.bound fun w hw => hnot w hw
      have hin := hwithin u S (fun x hx => by
        have := hvr.lt s hs rank (hT'.same.ranks rank hr) x hx
        omega) hsteady
      rw [hreach, ← hin.1]
      split
      · next S' hin' =>
        rw [hin'] at hin ⊢
        exact ⟨by simp, hin.2⟩
      · next S' hin' =>
        rw [hin'] at hin ⊢
        simpa using ih hws hin.2

theorem checks_occursWithin (hr : T.Ranks rank) {n : Nat} {t : Ty}
    (hn : ∀ x ∈ t.vars, rank x.id < n) (hT' : T.Steady T') :
    T.Checks id t (occursWithin id level n t T') := by
  induction n generalizing t T' with
  | zero =>
    refine ⟨?_, hT'⟩
    rw [reaches_iff]
    simp only [occursWithin, Bool.false_eq_true, false_iff, not_exists, not_and]
    exact fun w hw => absurd (hn w hw) (Nat.not_lt_zero _)
  | succ n ih =>
    rw [Checks, reaches_iff, occursWithin]
    exact checks_lowerUntil hr (fun t S hn hS => ih hn hS) hn hT'

/-- **The occurs check decides whether the variable remains in the type.** -/
theorem checks_occurs (hT : T.Acyclic) (id level : Nat) (t : Ty) :
    T.Checks id t (T.occurs id level t) := by
  obtain ⟨rank, hr⟩ := hT.exists_ranks
  exact checks_occursWithin hr (fun w _ => Nat.lt_succ_of_le (hr.le_size _)) (.refl T)

end occurs

end Table

end Reified
