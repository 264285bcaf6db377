import Mathlib.Data.Finset.Card
import Reified.Proofs.Table.Entries
import Reified.Proofs.Ty.Subst

/-!
# What a table says of a type

`deep` replaces every bound variable by what it stands for. It is a pure function of the bindings,
and everything that is proved about resolution and unification is said in terms of it: chains of
bindings, the order in which they were made and the shortcuts that resolution takes are invisible
to it.

Without a cycle among the bindings every variable can be given a rank that decreases along them.
`Ranks` is a rank that is zero for unbound variables and bounded by the number of variables; it is
what makes the bounds on the number of steps in `follow` and `deepen` never be reached.

## Main definitions

* `Table.Acyclic`, `Table.Ranks` — no cycle among the bindings
* `Table.deep` — the type with every bound variable replaced
* `Table.Solves` — an assignment of types to variables that agrees with all bindings
* `Table.Same` — another table that says the same of every type

## Main results

* `Table.deep_var_of_unbound`, `Table.deep_var_of_binding` — the equations of `deep`
* `Table.deep_setBinding` — a new binding substitutes in what the table said before
* `Table.Same.setBinding` — a shortcut changes nothing
-/

namespace Reified

namespace Table

variable {T T' : Table}

/-! ## Ranks -/

/-- There is no cycle among the bindings: some rank decreases from each bound variable to the
variables of its type. -/
def Acyclic (T : Table) : Prop :=
  ∃ rank : Nat → Nat, ∀ v t, T.binding? v = some t → ∀ w ∈ t.vars, rank w.id < rank v

/-- A rank that decreases along bindings, zero exactly where there is none, and bounded. -/
structure Ranks (T : Table) (rank : Nat → Nat) : Prop where
  unbound : ∀ v, T.binding? v = none → rank v = 0
  bound : ∀ v t, T.binding? v = some t → 0 < rank v
  le_size : ∀ v, rank v ≤ T.size
  lt : ∀ v t, T.binding? v = some t → ∀ w ∈ t.vars, rank w.id < rank v

theorem Ranks.acyclic {rank : Nat → Nat} (h : T.Ranks rank) : T.Acyclic :=
  ⟨rank, h.lt⟩

open Classical in
/-- Counting the bound variables of no higher rank gives a bounded rank. -/
theorem Acyclic.exists_ranks (h : T.Acyclic) : ∃ rank, T.Ranks rank := by
  obtain ⟨rank, hr⟩ := h
  let below : Nat → Finset Nat := fun v =>
    (Finset.range T.size).filter fun w => T.isBound w = true ∧ rank w ≤ rank v
  have mem_self : ∀ {v t}, T.binding? v = some t → v ∈ below v := fun {v t} hv => by
    simp only [below, Finset.mem_filter, Finset.mem_range]
    exact ⟨lt_size_of_binding? hv, isBound_eq_true.mpr ⟨t, hv⟩, le_rfl⟩
  refine ⟨fun v => if T.isBound v = true then (below v).card else 0,
    ⟨fun v hv => ?_, fun v t hv => ?_, fun v => ?_, fun v t hv w hw => ?_⟩⟩
  · simp [isBound_eq_false.mpr hv]
  · have hb := isBound_eq_true.mpr ⟨t, hv⟩
    simpa [hb] using Finset.card_pos.mpr ⟨v, mem_self hv⟩
  · split
    · exact (Finset.card_filter_le _ _).trans (Finset.card_range _).le
    · exact Nat.zero_le _
  · have hb := isBound_eq_true.mpr ⟨t, hv⟩
    have hlt := hr v t hv w hw
    simp only [hb, if_true]
    split
    · refine Finset.card_lt_card ⟨fun x hx => ?_, fun hsub => ?_⟩
      · simp only [below, Finset.mem_filter] at hx ⊢
        exact ⟨hx.1, hx.2.1, hx.2.2.trans hlt.le⟩
      · have := hsub (mem_self hv)
        simp only [below, Finset.mem_filter] at this
        omega
    · exact Finset.card_pos.mpr ⟨v, mem_self hv⟩

/-! ## Deep types -/

/-- The type with bound variables replaced through at most `n` bindings on each path. -/
def deepWithin (T : Table) : Nat → Ty → Ty
  | 0, t => t
  | n + 1, t => t.subst fun v =>
    match T.binding? v.id with
    | none => .var v
    | some s => T.deepWithin n s

/-- The type with every bound variable replaced by what it stands for. -/
def deep (T : Table) (t : Ty) : Ty := T.deepWithin (T.size + 1) t

/-- Enough steps give the same as any other number that is enough. -/
theorem deepWithin_eq {rank : Nat → Nat} (hT : T.Ranks rank) {m n : Nat} {t : Ty}
    (hm : ∀ w ∈ t.vars, rank w.id < m) (hn : ∀ w ∈ t.vars, rank w.id < n) :
    T.deepWithin m t = T.deepWithin n t := by
  induction m generalizing n t with
  | zero =>
    have hnone : ∀ w, w ∉ t.vars := fun w hw => absurd (hm w hw) (Nat.not_lt_zero _)
    cases n with
    | zero => rfl
    | succ n =>
      rw [deepWithin, deepWithin, Ty.subst_congr (τ := .var) fun w hw => absurd hw (hnone w),
        Ty.subst_var]
  | succ m ih =>
    cases n with
    | zero =>
      have hnone : ∀ w, w ∉ t.vars := fun w hw => absurd (hn w hw) (Nat.not_lt_zero _)
      rw [deepWithin, deepWithin, Ty.subst_congr (τ := .var) fun w hw => absurd hw (hnone w),
        Ty.subst_var]
    | succ n =>
      rw [deepWithin, deepWithin]
      refine Ty.subst_congr fun w hw => ?_
      cases hb : T.binding? w.id with
      | none => rfl
      | some s =>
        have hlt := hT.lt _ _ hb
        have h1 := hm w hw
        have h2 := hn w hw
        exact ih (fun x hx => by have := hlt x hx; omega) fun x hx => by have := hlt x hx; omega

theorem deep_eq_deepWithin {rank : Nat → Nat} (hT : T.Ranks rank) {n : Nat} {t : Ty}
    (hn : ∀ w ∈ t.vars, rank w.id < n) : T.deepWithin n t = T.deep t :=
  deepWithin_eq hT hn fun w _ => Nat.lt_succ_of_le (hT.le_size w.id)

theorem deep_eq_subst (t : Ty) : T.deep t = t.subst fun v => T.deep (.var v) := rfl

theorem deep_var_of_unbound {v : TyVar} (h : T.binding? v.id = none) : T.deep (.var v) = .var v := by
  simp [deep, deepWithin, Ty.subst, h]

theorem deep_var_of_binding (hT : T.Acyclic) {v : TyVar} {t : Ty} (h : T.binding? v.id = some t) :
    T.deep (.var v) = T.deep t := by
  obtain ⟨rank, hr⟩ := hT.exists_ranks
  calc T.deep (.var v) = T.deepWithin T.size t := by simp [deep, deepWithin, Ty.subst, h]
    _ = T.deep t := deep_eq_deepWithin hr fun w hw =>
      Nat.lt_of_lt_of_le (hr.lt _ _ h w hw) (hr.le_size _)

@[simp] theorem deep_name (n : String) : T.deep (.name n) = .name n := rfl

@[simp] theorem deep_array (t : Ty) : T.deep (.array t) = .array (T.deep t) := rfl

@[simp] theorem deep_tuple (ts : List Ty) : T.deep (.tuple ts) = .tuple (ts.map T.deep) := by
  rw [deep_eq_subst, Ty.subst, Ty.substList_eq]; rfl

@[simp] theorem deep_record (fs : List (String × Ty)) :
    T.deep (.record fs) = .record (fs.map fun f => (f.1, T.deep f.2)) := by
  rw [deep_eq_subst, Ty.subst, Ty.substFields_eq]; rfl

@[simp] theorem deep_fn (ps : List Ty) (r : Ty) (k : Nat) :
    T.deep (.fn ps r k) = .fn (ps.map T.deep) (T.deep r) k := by
  rw [deep_eq_subst, Ty.subst, Ty.substList_eq]; rfl

@[simp] theorem deep_union (a b : Ty) : T.deep (.union a b) = .union (T.deep a) (T.deep b) := rfl

@[simp] theorem deep_binding (n : String) (t : Ty) :
    T.deep (.binding n t) = .binding n (T.deep t) := rfl

/-- The variables that remain are unbound. -/
theorem unbound_of_mem_vars_deep (hT : T.Acyclic) {t : Ty} {w : TyVar} (h : w ∈ (T.deep t).vars) :
    T.binding? w.id = none := by
  obtain ⟨rank, hr⟩ := hT.exists_ranks
  -- by induction on a bound for the ranks of the variables of the type
  suffices key : ∀ n t, (∀ x ∈ t.vars, rank x.id < n) → ∀ w ∈ (T.deep t).vars,
      T.binding? w.id = none from
    key (T.size + 1) t (fun x _ => Nat.lt_succ_of_le (hr.le_size _)) w h
  intro n
  induction n with
  | zero =>
    intro t ht w hw
    rw [deep_eq_subst, Ty.mem_vars_subst] at hw
    obtain ⟨x, hx, -⟩ := hw
    exact absurd (ht x hx) (Nat.not_lt_zero _)
  | succ n ih =>
    intro t ht w hw
    rw [deep_eq_subst, Ty.mem_vars_subst] at hw
    obtain ⟨x, hx, hw⟩ := hw
    cases hb : T.binding? x.id with
    | none =>
      rw [deep_var_of_unbound hb] at hw
      simp only [Ty.vars, List.mem_singleton] at hw
      rwa [hw]
    | some s =>
      rw [deep_var_of_binding hT hb] at hw
      refine ih s (fun y hy => ?_) w hw
      have h1 := hr.lt _ _ hb y hy
      have h2 := ht x hx
      omega

/-- **The equations of `deep` have one solution.** -/
theorem deep_unique (hT : T.Acyclic) {f : TyVar → Ty}
    (unbound : ∀ v, T.binding? v.id = none → f v = .var v)
    (bound : ∀ v t, T.binding? v.id = some t → f v = t.subst f) (t : Ty) :
    T.deep t = t.subst f := by
  obtain ⟨rank, hr⟩ := hT.exists_ranks
  -- by induction on a bound for the ranks of the variables of the type
  suffices key : ∀ n t, (∀ x ∈ t.vars, rank x.id < n) → T.deep t = t.subst f from
    key (T.size + 1) t fun x _ => Nat.lt_succ_of_le (hr.le_size _)
  intro n
  induction n with
  | zero =>
    intro t ht
    exact Ty.subst_congr fun x hx => absurd (ht x hx) (Nat.not_lt_zero _)
  | succ n ih =>
    intro t ht
    rw [deep_eq_subst]
    refine Ty.subst_congr fun x hx => ?_
    cases hb : T.binding? x.id with
    | none => rw [deep_var_of_unbound hb, unbound x hb]
    | some s =>
      rw [deep_var_of_binding hT hb, bound x s hb]
      refine ih s fun y hy => ?_
      have h1 := hr.lt _ _ hb y hy
      have h2 := ht x hx
      omega

/-- Tables with the same bindings say the same of every type. -/
theorem deep_congr (hT : T.Acyclic) (h : ∀ id, T'.binding? id = T.binding? id) (t : Ty) :
    T'.deep t = T.deep t := by
  have hT' : T'.Acyclic := hT.imp fun rank hr v t hv => hr v t ((h v).symm.trans hv)
  rw [deep_eq_subst (T := T) t]
  refine deep_unique hT' (fun v hv => ?_) (fun v s hv => ?_) t
  · exact deep_var_of_unbound ((h _).symm.trans hv)
  · exact deep_var_of_binding hT ((h _).symm.trans hv)

/-- What is left of a deep type stays as it is. -/
theorem deep_deep (hT : T.Acyclic) (t : Ty) : T.deep (T.deep t) = T.deep t := by
  conv_rhs => rw [← Ty.subst_var (T.deep t)]
  rw [deep_eq_subst (T.deep t)]
  exact Ty.subst_congr fun w hw => deep_var_of_unbound (unbound_of_mem_vars_deep hT hw)

/-! ## New bindings -/

/-- The variable with the given number stands for something in which it remains. -/
def Reaches (T : Table) (t : Ty) (id : Nat) : Prop :=
  ∃ w ∈ (T.deep t).vars, w.id = id

theorem reaches_iff {t : Ty} {id : Nat} :
    T.Reaches t id ↔ ∃ w ∈ t.vars, T.Reaches (.var w) id := by
  unfold Reaches
  rw [deep_eq_subst]
  constructor
  · rintro ⟨w, hw, hid⟩
    obtain ⟨v, hv, hw⟩ := Ty.mem_vars_subst.mp hw
    exact ⟨v, hv, w, hw, hid⟩
  · rintro ⟨v, hv, w, hw, hid⟩
    exact ⟨w, Ty.mem_vars_subst.mpr ⟨v, hv, hw⟩, hid⟩

theorem reaches_var_of_unbound {v : TyVar} (h : T.binding? v.id = none) {id : Nat} :
    T.Reaches (.var v) id ↔ v.id = id := by
  simp [Reaches, deep_var_of_unbound h, Ty.vars]

theorem reaches_var_of_binding (hT : T.Acyclic) {v : TyVar} {t : Ty}
    (h : T.binding? v.id = some t) {id : Nat} : T.Reaches (.var v) id ↔ T.Reaches t id := by
  rw [Reaches, deep_var_of_binding hT h]; rfl

/-- A new binding that passes the occurs check makes no cycle. -/
theorem Acyclic.setBinding (hT : T.Acyclic) {id : Nat} (hid : id < T.size) {t : Ty}
    (hu : T.binding? id = none) (ht : ¬ T.Reaches t id) : (T.setBinding id t).Acyclic := by
  classical
  obtain ⟨rank, hr⟩ := hT.exists_ranks
  let some_var (x : Nat) : Ty := .var ⟨x, "", false, false⟩
  -- all that reaches the new variable moves above everything else
  refine ⟨fun x => if T.Reaches (some_var x) id then rank x + T.size + 1 else rank x, ?_⟩
  have hsome : ∀ w : TyVar, T.Reaches (some_var w.id) id ↔ T.Reaches (.var w) id := fun w => by
    cases hb : T.binding? w.id with
    | none => rw [reaches_var_of_unbound (by exact hb), reaches_var_of_unbound hb]
    | some s => rw [reaches_var_of_binding hT (by exact hb), reaches_var_of_binding hT hb]
  intro v s hv w hw
  rw [binding?_setBinding hid] at hv
  by_cases hvid : v = id
  · subst hvid
    rw [if_pos rfl, Option.some.injEq] at hv
    subst hv
    have h1 : T.Reaches (some_var v) v := (reaches_var_of_unbound hu).mpr rfl
    have h2 : ¬ T.Reaches (some_var w.id) v := fun h =>
      ht (reaches_iff.mpr ⟨w, hw, (hsome w).mp h⟩)
    have := hr.le_size w.id
    simp only [h1, h2, if_true, if_false]
    omega
  · rw [if_neg hvid] at hv
    have hlt := hr.lt v s hv w hw
    by_cases h2 : T.Reaches (some_var w.id) id
    · have h1 : T.Reaches (some_var v) id :=
        (reaches_var_of_binding hT (by exact hv)).mpr (reaches_iff.mpr ⟨w, hw, (hsome w).mp h2⟩)
      simp only [h1, h2, if_true]
      omega
    · simp only [h2, if_false]
      split <;> omega

/-- **A new binding substitutes in what the table said before.** -/
theorem deep_setBinding (hT : T.Acyclic) {id : Nat} (hid : id < T.size) {t : Ty}
    (hu : T.binding? id = none) (ht : ¬ T.Reaches t id) (u : Ty) :
    (T.setBinding id t).deep u =
      (T.deep u).subst fun w => if w.id = id then T.deep t else .var w := by
  have hT' := hT.setBinding hid hu ht
  rw [deep_eq_subst (T := T) u, Ty.subst_subst]
  refine deep_unique hT' (fun v hv => ?_) (fun v s hv => ?_) u
  · rw [binding?_setBinding hid] at hv
    by_cases hvid : v.id = id
    · simp [hvid] at hv
    · rw [if_neg hvid] at hv
      simp [deep_var_of_unbound hv, Ty.subst, hvid]
  · rw [binding?_setBinding hid] at hv
    rw [← Ty.subst_subst, ← deep_eq_subst]
    by_cases hvid : v.id = id
    · rw [if_pos hvid, Option.some.injEq] at hv
      subst hv
      have hv : T.binding? v.id = none := by rw [hvid]; exact hu
      rw [deep_var_of_unbound hv, Ty.subst, if_pos hvid]
      conv_lhs => rw [← Ty.subst_var (T.deep t)]
      refine Ty.subst_congr fun w hw => ?_
      rw [if_neg fun h => ht ⟨w, hw, h⟩]
    · rw [if_neg hvid] at hv
      rw [deep_var_of_binding hT hv]

/-! ## Shortcuts -/

/-- Another table that says the same of every type: as many variables, the same ones bound, and every
rank still a rank. -/
structure Same (T T' : Table) : Prop where
  size : T'.size = T.size
  isBound : ∀ id, T'.isBound id = T.isBound id
  deep : ∀ t, T'.deep t = T.deep t
  ranks : ∀ rank, T.Ranks rank → T'.Ranks rank

theorem Same.refl (T : Table) : T.Same T :=
  ⟨rfl, fun _ => rfl, fun _ => rfl, fun _ h => h⟩

theorem Same.trans {T₁ T₂ T₃ : Table} (h : T₁.Same T₂) (h' : T₂.Same T₃) : T₁.Same T₃ :=
  ⟨h'.size.trans h.size, fun id => (h'.isBound id).trans (h.isBound id),
    fun t => (h'.deep t).trans (h.deep t), fun rank hr => h'.ranks rank (h.ranks rank hr)⟩

theorem Same.unbound_iff (h : T.Same T') {id : Nat} :
    T'.binding? id = none ↔ T.binding? id = none := by
  rw [← isBound_eq_false, ← isBound_eq_false, h.isBound]

theorem Same.acyclic (h : T.Same T') (hT : T.Acyclic) : T'.Acyclic :=
  hT.exists_ranks.elim fun rank hr => (h.ranks rank hr).acyclic

/-- Tables with the same bindings say the same. -/
theorem same_of_binding?_eq (hT : T.Acyclic) (hs : T'.size = T.size)
    (h : ∀ id, T'.binding? id = T.binding? id) : T.Same T' where
  size := hs
  isBound id := by simp [isBound, h]
  deep := deep_congr hT h
  ranks rank hr := by
    refine ⟨fun v hv => hr.unbound v (h v ▸ hv), fun v t hv => hr.bound v t (h v ▸ hv),
      fun v => hs ▸ hr.le_size v, fun v t hv => hr.lt v t (h v ▸ hv)⟩

/-- **A shortcut changes nothing.** A bound variable may be bound to any other type that the table
says is the same, as long as the ranks still decrease. -/
theorem Same.setBinding (h : T.Same T') (hT : T.Acyclic) {id : Nat} {s t : Ty}
    (hs : T'.binding? id = some s) (hd : T'.deep t = T'.deep s)
    (hlt : ∀ rank, T.Ranks rank → ∀ w ∈ t.vars, rank w.id < rank id) :
    T.Same (T'.setBinding id t) := by
  have hid := lt_size_of_binding? hs
  have ranks : ∀ rank, T.Ranks rank → (T'.setBinding id t).Ranks rank := fun rank hT => by
    have hr := h.ranks rank hT
    refine ⟨fun v hv => ?_, fun v u hv => ?_, fun v => by simpa using hr.le_size v,
      fun v u hv w hw => ?_⟩ <;> rw [binding?_setBinding hid] at hv <;> by_cases hvid : v = id
    · simp [hvid] at hv
    · exact hr.unbound v (by simpa [hvid] using hv)
    · exact hvid ▸ hr.bound id s hs
    · exact hr.bound v u (by simpa [hvid] using hv)
    · subst hvid
      rw [if_pos rfl, Option.some.injEq] at hv
      exact hlt rank hT w (hv ▸ hw)
    · exact hr.lt v u (by simpa [hvid] using hv) w hw
  refine ⟨(size_setBinding id t).trans h.size, fun v => ?_, fun u => ?_, ranks⟩
  · rw [← h.isBound v]
    show Option.isSome _ = Option.isSome _
    rw [binding?_setBinding hid]
    by_cases hvid : v = id
    · simp [hvid, hs]
    · simp [hvid]
  · obtain ⟨rank, hr⟩ := hT.exists_ranks
    have hT' := h.acyclic hT
    rw [← h.deep, deep_eq_subst (T := T') u]
    refine deep_unique (ranks rank hr).acyclic (fun v hv => ?_) (fun v u hv => ?_) u <;>
      rw [binding?_setBinding hid] at hv <;> by_cases hvid : v.id = id
    · simp [hvid] at hv
    · exact deep_var_of_unbound (by simpa [hvid] using hv)
    · rw [if_pos hvid, Option.some.injEq] at hv
      rw [← deep_eq_subst, ← hv, hd]
      exact deep_var_of_binding hT' (by rw [hvid]; exact hs)
    · rw [← deep_eq_subst]
      exact deep_var_of_binding hT' (by simpa [hvid] using hv)

/-! ## Assignments that agree with the bindings -/

/-- The assignment agrees with all bindings of the given variables, as seen through `h`. -/
def Solves (h : Ty → Ty) (vs : List TyVar) (θ : TyVar → Ty) (T : Table) : Prop :=
  ∀ v ∈ vs, θ v = (h (T.deep (.var v))).subst θ

/-- Under an assignment that agrees with the bindings, a type and its deep form are the same. -/
theorem Solves.deep_eq {h : Ty → Ty} (hh : Ty.Natural h) {vs : List TyVar} {θ : TyVar → Ty}
    (hθ : T.Solves h vs θ) {t : Ty} (ht : ∀ v ∈ t.vars, v ∈ vs) :
    (h (T.deep t)).subst θ = (h t).subst θ := by
  calc (h (T.deep t)).subst θ
      = (h t).subst fun v => (h (T.deep (.var v))).subst θ := by
        rw [deep_eq_subst, hh.subst, Ty.subst_subst]
    _ = (h t).subst θ := Ty.subst_congr fun v hv => (hθ v (ht v (hh.vars t ▸ hv))).symm

theorem Same.solves_iff (h : T.Same T') {f : Ty → Ty} {vs : List TyVar} {θ : TyVar → Ty} :
    T'.Solves f vs θ ↔ T.Solves f vs θ := by
  simp only [Solves, h.deep]

/-- An assignment for the unbound variables extends to one that agrees with the bindings. -/
theorem solves_subst_deep (hT : T.Acyclic) {h : Ty → Ty} (hh : Ty.Natural h) (vs : List TyVar)
    (σ : TyVar → Ty) : T.Solves h vs fun v => (h (T.deep (.var v))).subst σ := by
  intro v _
  refine Ty.subst_congr fun w hw => ?_
  rw [hh.vars] at hw
  rw [deep_var_of_unbound (unbound_of_mem_vars_deep hT hw), hh.var]
  rfl

end Table

end Reified
