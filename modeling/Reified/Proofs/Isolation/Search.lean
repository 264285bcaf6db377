import Reified.Proofs.Isolation.Behind
import Reified.Proofs.Table.Resolve
import Reified.Proofs.Table.Search

/-!
# Searching a table that is behind another one

A search through bindings counts its steps against a bound that depends on the number of variables. A table
behind another one has more variables, so the search is allowed more steps there. The bounds are never
reached, since along bindings the rank of a variable decreases; what is shown here for any two numbers of
steps that are enough is therefore that a search behind other variables finds the moved result, and that it
leaves the same shortcuts.

## Main results

* `Table.resolve_behind`, `Table.resolveDeep_behind` — representatives and deep types
* `Table.occurs_behind` — the occurs check
* `Table.instantiate_behind` — instances
-/

namespace Reified

/-- A traversal of a type without variables does nothing. -/
theorem Ty.replaceVarsM_of_closed {S : Type} {t : Ty} (h : ∀ v, v ∉ t.vars) (rule : TyVar → StateM S Ty) (s : S) :
    t.replaceVarsM rule s = (t, s) := by
  have key : (t.replaceVarsM rule s).1 = t.subst .var ∧ (t.replaceVarsM rule s).2 = s :=
    @replaceVarsM_eq_subst S rule (· = s) .var t (fun v hv => absurd hv (h v)) s rfl
  rw [subst_var] at key
  exact Prod.ext key.1 key.2

namespace Table

variable {P : Array VarEntry} {k : Nat} {T S : Table} {rank : Nat → Nat}

/-! ## Representatives -/

/-- The representative of a moved variable is the moved representative. -/
theorem follow_behind (hr : T.Ranks rank) {n n' : Nat} {v : TyVar} (hn : rank v.id ≤ n)
    (hn' : rank v.id ≤ n') : follow n' (T.behind P k) (.var (v.shift P.size)) =
      ((follow n T (.var v)).1.shift P.size, (follow n T (.var v)).2.behind P k) := by
  induction n generalizing n' v with
  | zero =>
    have hb : T.binding? v.id = none := by
      cases hb : T.binding? v.id with
      | none => rfl
      | some t => exact absurd (hr.bound _ _ hb) (by omega)
    have hb' : (T.behind P k).binding? (v.shift P.size).id = none := by
      rw [TyVar.shift, binding?_behind, hb]
      rfl
    rw [follow_of_unbound hb, follow_of_unbound hb']
    rfl
  | succ n ih =>
    have hbehind : (T.behind P k).binding? (v.shift P.size).id = (T.binding? v.id).map (Ty.shift P.size) :=
      binding?_behind v.id
    cases hb : T.binding? v.id with
    | none =>
      rw [hb] at hbehind
      rw [follow_of_unbound hb, follow_of_unbound hbehind]
      rfl
    | some s =>
      obtain ⟨m, rfl⟩ : ∃ m, n' = m + 1 := Nat.exists_eq_succ_of_ne_zero (by
        have := hr.bound _ _ hb
        omega)
      rw [hb, Option.map_some] at hbehind
      rw [follow, follow, hb, hbehind]
      cases s with
      | var w =>
        have hlt : rank w.id < rank v.id := hr.lt _ _ hb w (by simp [Ty.vars])
        have hw := @ih m w (by omega) (by omega)
        simp only [Ty.shift_var, hw]
        have hiff : (follow n T (.var w)).1.shift P.size = .var (w.shift P.size) ↔
            (follow n T (.var w)).1 = .var w :=
          ⟨fun h => Ty.shift_injective _ h, fun h => by rw [h]; rfl⟩
        rw [if_congr hiff rfl rfl]
        split
        · rfl
        · exact Prod.ext rfl (setBinding_behind v.id _)
      | name m => rfl
      | array t => rfl
      | tuple ts => simp only [Ty.shift_tuple]
      | record fs => simp only [Ty.shift_record]
      | fn ps r j => simp only [Ty.shift_fn]
      | union a b => rfl
      | binding m t => rfl

/-- **The representative of a moved type.** -/
theorem resolve_behind (hT : T.Acyclic) (t : Ty) : (T.behind P k).resolve (t.shift P.size) =
    ((T.resolve t).1.shift P.size, (T.resolve t).2.behind P k) := by
  by_cases h : ∃ v, t = .var v
  · obtain ⟨v, rfl⟩ := h
    obtain ⟨rank, hr⟩ := hT.exists_ranks
    refine follow_behind hr (hr.le_size _) ?_
    rw [size_behind]
    exact Nat.le_add_left_of_le (hr.le_size _)
  · have ht : ∀ v, t ≠ .var v := fun v hv => h ⟨v, hv⟩
    have ht' : ∀ v, t.shift P.size ≠ .var v := fun v hv => by
      cases t <;> simp at hv
      exact ht _ rfl
    rw [resolve_of_not_var ht, resolve_of_not_var ht']

/-! ## Deep types -/

theorem deepen_of_closed {t : Ty} (h : ∀ v, v ∉ t.vars) (n : Nat) : deepen n t T = (t, T) := by
  cases n with
  | zero => rfl
  | succ n =>
    rw [deepen]
    exact Ty.replaceVarsM_of_closed h _ T

theorem vars_shift_of_closed {t : Ty} (h : ∀ v, v ∉ t.vars) (d : Nat) : ∀ v, v ∉ (t.shift d).vars := by
  rw [Ty.vars_shift, List.eq_nil_iff_forall_not_mem.mpr h]
  exact fun _ => List.not_mem_nil

theorem deepen_behind {n n' : Nat} {t : Ty} (hn : ∀ w ∈ t.vars, rank w.id < n)
    (hn' : ∀ w ∈ t.vars, rank w.id < n') (hS : S.Ranks rank) :
    (deepen n t S).2.Ranks rank ∧ deepen n' (t.shift P.size) (S.behind P k) =
      ((deepen n t S).1.shift P.size, (deepen n t S).2.behind P k) := by
  induction n generalizing n' t S with
  | zero =>
    have hclosed : ∀ v, v ∉ t.vars := fun v hv => absurd (hn v hv) (Nat.not_lt_zero _)
    rw [deepen_of_closed hclosed, deepen_of_closed (vars_shift_of_closed hclosed _)]
    exact ⟨hS, rfl⟩
  | succ n ih =>
    cases n' with
    | zero =>
      have hclosed : ∀ v, v ∉ t.vars := fun v hv => absurd (hn' v hv) (Nat.not_lt_zero _)
      rw [deepen_of_closed hclosed, deepen_of_closed (vars_shift_of_closed hclosed _)]
      exact ⟨hS, rfl⟩
    | succ n' =>
      rw [deepen, deepen]
      refine @Ty.replaceVarsM_shift P.size _ _ (·.Ranks rank) _ _ _ t (fun v hv S hS => ?_) S hS
      have hvr := finds_resolve hS.acyclic v
      have hranks := hS.resolve (.var v)
      have hbehind := resolve_behind (P := P) (k := k) hS.acyclic (.var v)
      rw [resolveVar_bind, resolveVar_bind, ← Ty.shift_var, hbehind]
      generalize S.resolve (.var v) = r at hvr hranks ⊢
      obtain ⟨u, S'⟩ := r
      dsimp only at *
      have hdeep (hu : ∀ w, u ≠ .var w) : (deepen n u S').2.Ranks rank ∧
          deepen n' (u.shift P.size) (S'.behind P k) =
            ((deepen n u S').1.shift P.size, (deepen n u S').2.behind P k) := by
        obtain ⟨s, hs⟩ := hvr.bound hu
        have hlt := hvr.lt s hs rank hS
        exact ih (fun w hw => by have := hlt w hw; have := hn v hv; omega)
          (fun w hw => by have := hlt w hw; have := hn' v hv; omega) hranks
      cases u with
      | var w => exact ⟨hranks, rfl⟩
      | name m => exact hdeep fun w h => by cases h
      | array t => exact hdeep fun w h => by cases h
      | tuple ts => simpa using hdeep fun w h => by cases h
      | record fs => simpa using hdeep fun w h => by cases h
      | fn ps r j => simpa using hdeep fun w h => by cases h
      | union a b => exact hdeep fun w h => by cases h
      | binding m t => exact hdeep fun w h => by cases h

/-- **The deep type of a moved type.** -/
theorem resolveDeep_behind (hT : T.Acyclic) (t : Ty) : (T.behind P k).resolveDeep (t.shift P.size) =
    ((T.resolveDeep t).1.shift P.size, (T.resolveDeep t).2.behind P k) := by
  obtain ⟨rank, hr⟩ := hT.exists_ranks
  refine (deepen_behind (fun w _ => Nat.lt_succ_of_le (hr.le_size _)) (fun w _ => ?_) hr).2
  rw [size_behind]
  exact Nat.lt_succ_of_le (Nat.le_add_left_of_le (hr.le_size _))

/-! ## The occurs check -/

section occurs

variable {id level : Nat}

/-- A search that goes on only if nothing has been found yet. -/
theorem stopsOr_behind {r r' : Bool × Table} {next next' : Table → Bool × Table}
    (h : r.2.Ranks rank ∧ r' = (r.1, r.2.behind P k))
    (hnext : ∀ S : Table, S.Ranks rank → (next S).2.Ranks rank ∧
      next' (S.behind P k) = ((next S).1, (next S).2.behind P k)) :
    (match r with
      | (true, T) => (true, T)
      | (false, T) => next T).2.Ranks rank ∧
    (match r' with
      | (true, T) => (true, T)
      | (false, T) => next' T) =
    ((match r with
      | (true, T) => (true, T)
      | (false, T) => next T).1,
    (match r with
      | (true, T) => (true, T)
      | (false, T) => next T).2.behind P k) := by
  obtain ⟨b, S⟩ := r
  obtain ⟨hr, rfl⟩ := h
  cases b with
  | true => exact ⟨hr, rfl⟩
  | false => exact hnext S hr

theorem lowerUntil_behind {within within' : Ty → Table → Bool × Table} {m : Nat}
    (hwithin : ∀ t S, (∀ x ∈ t.vars, rank x.id < m) → S.Ranks rank → (within t S).2.Ranks rank ∧
      within' (t.shift P.size) (S.behind P k) = ((within t S).1, (within t S).2.behind P k))
    {ws : List TyVar} (hws : ∀ w ∈ ws, rank w.id < m + 1) (hS : S.Ranks rank) :
    (lowerUntil id level within ws S).2.Ranks rank ∧
      lowerUntil (id + P.size) (level + k) within' (ws.map (TyVar.shift P.size)) (S.behind P k) =
        ((lowerUntil id level within ws S).1, (lowerUntil id level within ws S).2.behind P k) := by
  induction ws generalizing S with
  | nil => exact ⟨hS, rfl⟩
  | cons v ws ih =>
    obtain ⟨hv, hws⟩ := List.forall_mem_cons.mp hws
    have hvr := finds_resolve hS.acyclic v
    have hranks := hS.resolve (.var v)
    have hbehind := resolve_behind (P := P) (k := k) hS.acyclic (.var v)
    rw [List.map_cons, lowerUntil, lowerUntil, ← Ty.shift_var, hbehind]
    generalize S.resolve (.var v) = r at hvr hranks ⊢
    obtain ⟨u, S'⟩ := r
    dsimp only at *
    have hinner (hu : ∀ w, u ≠ .var w) : (within u S').2.Ranks rank ∧
        within' (u.shift P.size) (S'.behind P k) = ((within u S').1, (within u S').2.behind P k) := by
      obtain ⟨s, hs⟩ := hvr.bound hu
      have hlt := hvr.lt s hs rank hS
      exact hwithin u S' (fun x hx => by have := hlt x hx; omega) hranks
    have hdeep := fun hu => stopsOr_behind (hinner hu) fun S => @ih S hws
    cases u with
    | var w =>
      have hid : (w.shift P.size).id = id + P.size ↔ w.id = id := Nat.add_right_cancel_iff
      have hlevel : level + k < (S'.behind P k).level (w.shift P.size).id ↔ level < S'.level w.id :=
        lt_level_behind w.id level
      simp only [Ty.shift_var, hid, hlevel]
      split
      · exact ⟨hranks, rfl⟩
      · split
        · rw [show (w.shift P.size).id = w.id + P.size from rfl, setLevel_behind]
          exact ih hws (hranks.setLevel w.id level)
        · exact ih hws hranks
    | name m => exact hdeep fun w h => by cases h
    | array t => exact hdeep fun w h => by cases h
    | tuple ts => rw [Ty.shift_tuple] at hdeep ⊢; exact hdeep fun w h => by cases h
    | record fs => rw [Ty.shift_record] at hdeep ⊢; exact hdeep fun w h => by cases h
    | fn ps r j => rw [Ty.shift_fn] at hdeep ⊢; exact hdeep fun w h => by cases h
    | union a b => exact hdeep fun w h => by cases h
    | binding m t => exact hdeep fun w h => by cases h

theorem occursWithin_behind {n n' : Nat} {t : Ty} (hn : ∀ w ∈ t.vars, rank w.id < n)
    (hn' : ∀ w ∈ t.vars, rank w.id < n') (hS : S.Ranks rank) :
    (occursWithin id level n t S).2.Ranks rank ∧
      occursWithin (id + P.size) (level + k) n' (t.shift P.size) (S.behind P k) =
        ((occursWithin id level n t S).1, (occursWithin id level n t S).2.behind P k) := by
  have hclosed {t : Ty} (h : ∀ v, v ∉ t.vars) {S : Table} {id level : Nat} :
      (n : Nat) → occursWithin id level n t S = (false, S)
    | 0 => rfl
    | n + 1 => by rw [occursWithin, List.eq_nil_iff_forall_not_mem.mpr h]; rfl
  induction n generalizing n' t S with
  | zero =>
    have h : ∀ v, v ∉ t.vars := fun v hv => absurd (hn v hv) (Nat.not_lt_zero _)
    rw [hclosed h, hclosed (vars_shift_of_closed h _)]
    exact ⟨hS, rfl⟩
  | succ n ih =>
    cases n' with
    | zero =>
      have h : ∀ v, v ∉ t.vars := fun v hv => absurd (hn' v hv) (Nat.not_lt_zero _)
      rw [hclosed h, hclosed (vars_shift_of_closed h _)]
      exact ⟨hS, rfl⟩
    | succ n' =>
      rw [occursWithin, occursWithin, Ty.vars_shift]
      -- the smaller of the two numbers of steps is enough for what is below a variable
      refine lowerUntil_behind (m := min n n') (fun t S ht hS => ?_)
        (fun w hw => by have := hn w hw; have := hn' w hw; omega) hS
      exact ih (fun w hw => by have := ht w hw; omega) (fun w hw => by have := ht w hw; omega) hS

/-- **The occurs check of a moved variable in a moved type.** -/
theorem occurs_behind (hT : T.Acyclic) (t : Ty) :
    (T.behind P k).occurs (id + P.size) (level + k) (t.shift P.size) =
      ((T.occurs id level t).1, (T.occurs id level t).2.behind P k) := by
  obtain ⟨rank, hr⟩ := hT.exists_ranks
  refine (occursWithin_behind (fun w _ => Nat.lt_succ_of_le (hr.le_size _)) (fun w _ => ?_) hr).2
  rw [size_behind]
  exact Nat.lt_succ_of_le (Nat.le_add_left_of_le (hr.le_size _))

end occurs

/-! ## Instances -/

/-- The state of an instantiation behind older entries. -/
def Instance.behind (P : Array VarEntry) (k : Nat) (S : Instance) : Instance :=
  ⟨S.table.behind P k, S.copies.map fun c => (c.1 + P.size, c.2.shift P.size)⟩

theorem lookup_copies_behind (copies : List (Nat × TyVar)) (id d : Nat) :
    (copies.map fun c => (c.1 + d, c.2.shift d)).lookup (id + d) =
      (copies.lookup id).map (TyVar.shift d) := by
  induction copies with
  | nil => rfl
  | cons c copies ih =>
    have hkey : (id + d == c.1 + d) = (id == c.1) := by simp
    rw [List.map_cons, List.lookup_cons, hkey, ih, List.lookup_cons]
    split <;> rfl

theorem copy_behind (level : Nat) (w : TyVar) (S : Instance) :
    Instance.copy (level + k) (w.shift P.size) (S.behind P k) =
      ((Instance.copy level w S).1.shift P.size, (Instance.copy level w S).2.behind P k) := by
  obtain ⟨T, copies⟩ := S
  have hlookup := lookup_copies_behind copies w.id P.size
  simp only [Instance.copy, Instance.behind]
  rw [show (w.shift P.size).id = w.id + P.size from rfl, hlookup]
  cases copies.lookup w.id with
  | some v => rfl
  | none =>
    simp only [Option.map_none]
    have hnew := newVar_behind (P := P) (k := k) (T := T) w.name w.inferred false level
    rw [show (w.shift P.size).name = w.name from rfl,
      show (w.shift P.size).inferred = w.inferred from rfl, hnew]
    rfl

theorem Ranks.copy {S : Instance} (hS : S.table.Ranks rank) (level : Nat) (w : TyVar) :
    (Instance.copy level w S).2.table.Ranks rank := by
  unfold Instance.copy
  dsimp only
  split
  · exact hS
  · exact hS.newVar w.name w.inferred false level

theorem instantiateWithin_of_closed {t : Ty} (h : ∀ v, v ∉ t.vars) (level n : Nat) (S : Instance) :
    instantiateWithin level n t S = (t, S) := by
  cases n with
  | zero => rfl
  | succ n =>
    rw [instantiateWithin]
    exact Ty.replaceVarsM_of_closed h _ S

theorem instantiateWithin_behind {level n n' : Nat} {t : Ty} {S : Instance}
    (hn : ∀ w ∈ t.vars, rank w.id < n) (hn' : ∀ w ∈ t.vars, rank w.id < n')
    (hS : S.table.Ranks rank) : (instantiateWithin level n t S).2.table.Ranks rank ∧
      instantiateWithin (level + k) n' (t.shift P.size) (S.behind P k) =
        ((instantiateWithin level n t S).1.shift P.size, (instantiateWithin level n t S).2.behind P k) := by
  induction n generalizing n' t S with
  | zero =>
    have hclosed : ∀ v, v ∉ t.vars := fun v hv => absurd (hn v hv) (Nat.not_lt_zero _)
    rw [instantiateWithin_of_closed hclosed,
      instantiateWithin_of_closed (vars_shift_of_closed hclosed _)]
    exact ⟨hS, rfl⟩
  | succ n ih =>
    cases n' with
    | zero =>
      have hclosed : ∀ v, v ∉ t.vars := fun v hv => absurd (hn' v hv) (Nat.not_lt_zero _)
      rw [instantiateWithin_of_closed hclosed,
        instantiateWithin_of_closed (vars_shift_of_closed hclosed _)]
      exact ⟨hS, rfl⟩
    | succ n' =>
      rw [instantiateWithin, instantiateWithin]
      refine @Ty.replaceVarsM_shift P.size _ _ (fun S : Instance => S.table.Ranks rank) _ _ _ t
        (fun v hv S hS => ?_) S hS
      obtain ⟨T, copies⟩ := S
      have hvr := finds_resolve hS.acyclic v
      have hranks := hS.resolve (.var v)
      have hbehind := resolve_behind (P := P) (k := k) hS.acyclic (.var v)
      rw [Instance.resolveVar_bind, Instance.resolveVar_bind, ← Ty.shift_var]
      simp only [Instance.behind]
      dsimp only at hS hvr hranks hbehind
      rw [hbehind]
      generalize T.resolve (.var v) = r at hvr hranks ⊢
      obtain ⟨u, T'⟩ := r
      dsimp only at *
      have hdeep (hu : ∀ w, u ≠ .var w) :
          (instantiateWithin level n u ⟨T', copies⟩).2.table.Ranks rank ∧
          instantiateWithin (level + k) n' (u.shift P.size) (Instance.behind P k ⟨T', copies⟩) =
            ((instantiateWithin level n u ⟨T', copies⟩).1.shift P.size,
              (instantiateWithin level n u ⟨T', copies⟩).2.behind P k) := by
        obtain ⟨s, hs⟩ := hvr.bound hu
        have hlt := hvr.lt s hs rank hS
        exact ih (fun w hw => by have := hlt w hw; have := hn v hv; omega)
          (fun w hw => by have := hlt w hw; have := hn' v hv; omega) hranks
      cases u with
      | var w =>
        simp only [Ty.shift_var]
        rw [Instance.isGeneralized_bind, Instance.isGeneralized_bind,
          show (w.shift P.size).id = w.id + P.size from rfl, isGeneralized_behind]
        split
        · exact ⟨hranks.copy level w, copy_behind level w ⟨T', copies⟩⟩
        · exact ⟨hranks, rfl⟩
      | name m => exact hdeep fun w h => by cases h
      | array t => exact hdeep fun w h => by cases h
      | tuple ts => simpa [Instance.behind] using hdeep fun w h => by cases h
      | record fs => simpa [Instance.behind] using hdeep fun w h => by cases h
      | fn ps r j => simpa [Instance.behind] using hdeep fun w h => by cases h
      | union a b => exact hdeep fun w h => by cases h
      | binding m t => exact hdeep fun w h => by cases h

/-- **The instance of a moved type.** Its fresh variables are the moved ones. -/
theorem instantiate_behind (hT : T.Acyclic) (t : Ty) (level : Nat) :
    (T.behind P k).instantiate (t.shift P.size) (level + k) =
      ((T.instantiate t level).1.shift P.size, (T.instantiate t level).2.1.map (TyVar.shift P.size),
        (T.instantiate t level).2.2.behind P k) := by
  obtain ⟨rank, hr⟩ := hT.exists_ranks
  have key : instantiateWithin (level + k) ((T.behind P k).size + 1) (t.shift P.size) ⟨T.behind P k, []⟩ =
      ((instantiateWithin level (T.size + 1) t ⟨T, []⟩).1.shift P.size,
        (instantiateWithin level (T.size + 1) t ⟨T, []⟩).2.behind P k) := by
    refine (instantiateWithin_behind (S := ⟨T, []⟩) (fun w _ => Nat.lt_succ_of_le (hr.le_size _))
      (fun w _ => ?_) hr).2
    rw [size_behind]
    exact Nat.lt_succ_of_le (Nat.le_add_left_of_le (hr.le_size _))
  unfold instantiate
  rw [key]
  generalize instantiateWithin level (T.size + 1) t ⟨T, []⟩ = r
  obtain ⟨u, S, copies⟩ := r
  simp [Instance.behind, ← List.map_reverse, Function.comp_def]

end Table

end Reified
