import Reified.Proofs.Table.Growth

/-!
# Small changes of a table

Whatever resolution and unification do to a table they do by small changes: a bound variable is bound to
what its binding stands for, an unbound one gets a lower level, an unbound one is bound. A predicate of
tables that each of these keeps is kept by unification, whether it succeeds or not.

The occurs check lowers levels. If it finds nothing, then no variable that remains in the type has a level
above the given one; no other level has changed.

## Main definitions

* `Table.Shortcuts` — a predicate of tables that shortcuts keep
* `Table.Creates` — a predicate of tables and their variables that instantiation keeps
* `Table.Lowers` — some levels have been lowered to a given one
* `Table.Lowering`, `Table.Changes` — one that lowered levels, and new bindings, keep as well

## Main results

* `Table.undoLast_newVar`, `Table.undoLast_generalize` — walking back does not see new variables and marks
* `Table.Shortcuts.resolve`, `Table.level_resolve` — resolution
* `Table.Creates.instantiate` — instantiation
* `Table.sinks_occurs`, `Table.Lowering.occurs` — the occurs check
* `Table.Changes.unify` — unification
* `Table.changes_ofKind` — tables that bind variables to types of a kind
-/

namespace Reified

namespace Table

variable {T T' : Table}

/-! ## Levels and marks -/

theorem level_of_size_le {id : Nat} (h : T.size ≤ id) : T.level id = 0 := by
  have : T.entries[id]? = none := Array.getElem?_eq_none h
  simp [level, this]

theorem isGeneralized_of_size_le {id : Nat} (h : T.size ≤ id) : T.isGeneralized id = false := by
  have : T.entries[id]? = none := Array.getElem?_eq_none h
  simp [isGeneralized, this]

theorem lt_size_of_isBound {id : Nat} (h : T.isBound id = true) : id < T.size :=
  (isBound_eq_true.mp h).elim fun _ => lt_size_of_binding?

theorem lt_size_of_lt_level {id level : Nat} (h : level < T.level id) : id < T.size := by
  by_contra hlt
  rw [level_of_size_le (Nat.le_of_not_lt hlt)] at h
  exact absurd h (Nat.not_lt_zero _)

@[simp] theorem level_setBinding (id : Nat) (t : Ty) (w : Nat) :
    (T.setBinding id t).level w = T.level w := by
  unfold setBinding
  split
  · simp only [level, entries_note, Array.getElem?_modify]
    by_cases hw : id = w
    · subst hw
      cases T.entries[id]? <;> simp
    · simp [hw]
  · rfl

theorem level_setLevel {id : Nat} (h : id < T.size) (l w : Nat) :
    (T.setLevel id l).level w = if w = id then l else T.level w := by
  simp only [setLevel, if_pos h, level, entries_note, Array.getElem?_modify]
  by_cases hw : w = id
  · subst hw
    have hlt : w < T.entries.size := h
    simp [Array.getElem?_eq_getElem hlt]
  · simp [hw, Ne.symm hw]

theorem level_newVar (name : String) (inferred rigid : Bool) (l w : Nat) :
    (T.newVar name inferred rigid l).2.level w = if w = T.size then l else T.level w := by
  simp only [newVar, level, Array.getElem?_push, size]
  by_cases hw : w = T.entries.size <;> simp [hw]

@[simp] theorem level_generalize (id w : Nat) : (T.generalize id).level w = T.level w := by
  simp only [generalize, level, Array.getElem?_modify]
  by_cases hw : id = w
  · subst hw
    cases T.entries[id]? <;> simp
  · simp [hw]

@[simp] theorem isGeneralized_setBinding (id : Nat) (t : Ty) (w : Nat) :
    (T.setBinding id t).isGeneralized w = T.isGeneralized w := by
  unfold setBinding
  split
  · simp only [isGeneralized, entries_note, Array.getElem?_modify]
    by_cases hw : id = w
    · subst hw
      cases T.entries[id]? <;> simp
    · simp [hw]
  · rfl

@[simp] theorem isGeneralized_setLevel (id l w : Nat) :
    (T.setLevel id l).isGeneralized w = T.isGeneralized w := by
  unfold setLevel
  split
  · simp only [isGeneralized, entries_note, Array.getElem?_modify]
    by_cases hw : id = w
    · subst hw
      cases T.entries[id]? <;> simp
    · simp [hw]
  · rfl

theorem isGeneralized_newVar (name : String) (inferred rigid : Bool) (l w : Nat) :
    (T.newVar name inferred rigid l).2.isGeneralized w = T.isGeneralized w := by
  simp only [newVar, isGeneralized, Array.getElem?_push]
  by_cases hw : w = T.entries.size <;> simp [hw]

theorem isGeneralized_generalize {id : Nat} (h : id < T.size) (w : Nat) :
    (T.generalize id).isGeneralized w = (decide (w = id) || T.isGeneralized w) := by
  simp only [generalize, isGeneralized, Array.getElem?_modify]
  by_cases hw : w = id
  · subst hw
    have hlt : w < T.entries.size := h
    simp [Array.getElem?_eq_getElem hlt]
  · simp [hw, Ne.symm hw]

theorem isGeneralized_generalize_of_ne {id w : Nat} (h : w ≠ id) :
    (T.generalize id).isGeneralized w = T.isGeneralized w := by
  simp [generalize, isGeneralized, Array.getElem?_modify, Ne.symm h]

/-! ## Walking back -/

theorem undo_newVar {u : Undo} (hu : u.id < T.size) (name : String) (inferred rigid : Bool)
    (l : Nat) : (T.newVar name inferred rigid l).2.undo u =
      ((T.undo u).newVar name inferred rigid l).2 := by
  have hmodify : ∀ f : VarEntry → VarEntry, ∀ e, (T.entries.push e).modify u.id f =
      (T.entries.modify u.id f).push e := fun f e => by
    refine Array.ext_getElem? fun i => ?_
    have hlt : u.id < T.entries.size := hu
    simp only [Array.getElem?_modify, Array.getElem?_push, Array.size_modify]
    by_cases hi : i = T.entries.size
    · simp [hi, hlt.ne]
    · simp [hi]
  cases u <;> simp only [undo, newVar, Undo.id] at hmodify ⊢ <;> rw [hmodify]

/-- Walking back does not see new variables. -/
theorem undoLast_of_none (h : T.trail.back? = none) (n : Nat) : T.undoLast (n + 1) = T := by
  rw [undoLast, h]

theorem undoLast_of_some {u : Undo} (h : T.trail.back? = some u) (n : Nat) :
    T.undoLast (n + 1) = (({ T with trail := T.trail.pop } : Table).undo u).undoLast n := by
  rw [undoLast, h]

theorem undoLast_newVar (h : ∀ u ∈ T.trail, u.id < T.size) (name : String)
    (inferred rigid : Bool) (l n : Nat) : (T.newVar name inferred rigid l).2.undoLast n =
      ((T.undoLast n).newVar name inferred rigid l).2 := by
  induction n generalizing T with
  | zero => rfl
  | succ n ih =>
    cases hu : T.trail.back? with
    | none =>
      rw [undoLast_of_none hu]
      exact undoLast_of_none (T := (T.newVar name inferred rigid l).2) hu n
    | some u =>
      have hid : u.id < T.size := h u (Array.mem_of_back? hu)
      rw [undoLast_of_some hu]
      refine (undoLast_of_some (T := (T.newVar name inferred rigid l).2) hu n).trans ?_
      rw [← ih (T := ({ T with trail := T.trail.pop } : Table).undo u) fun w hw => ?_]
      · exact congrArg (undoLast · n)
          (undo_newVar (T := { T with trail := T.trail.pop }) hid name inferred rigid l)
      · rw [trail_undo] at hw
        rw [size_undo]
        exact h w (mem_of_mem_pop hw)

theorem undo_generalize (u : Undo) (id : Nat) :
    (T.generalize id).undo u = (T.undo u).generalize id := by
  cases u <;>
  · simp only [undo, generalize]
    congr 1
    refine Array.ext_getElem? fun i => ?_
    simp only [Array.getElem?_modify]
    split <;> split <;> cases T.entries[i]? <;> simp

/-- Walking back does not see marks. -/
theorem undoLast_generalize (id n : Nat) :
    (T.generalize id).undoLast n = (T.undoLast n).generalize id := by
  induction n generalizing T with
  | zero => rfl
  | succ n ih =>
    cases hu : T.trail.back? with
    | none =>
      rw [undoLast_of_none hu]
      exact undoLast_of_none (T := T.generalize id) hu n
    | some u =>
      rw [undoLast_of_some hu]
      refine (undoLast_of_some (T := T.generalize id) hu n).trans ?_
      rw [← ih]
      exact congrArg (undoLast · n) (undo_generalize (T := { T with trail := T.trail.pop }) u id)

/-- A change of a binding adds one table to those that a rollback may go back to. -/
theorem undoLast_setBinding_cases (hq : T.snapshots = 0 → T.trail = #[]) (id : Nat) (t : Ty)
    (n : Nat) : (T.setBinding id t).undoLast n = T.setBinding id t ∨
      ∃ m, (T.setBinding id t).undoLast n = T.undoLast m := by
  have hrestores := Restores.setBinding T id t
  rcases Nat.eq_zero_or_pos T.snapshots with hs | hs
  · exact .inl (undoLast_of_empty ((hrestores.quiet hs).trans (hq hs)) n)
  · by_cases hid : id < T.size
    · cases n with
      | zero => exact .inl rfl
      | succ n => exact .inr ⟨n, undoLast_setBinding hid hs t n⟩
    · exact .inr ⟨n, by rw [setBinding, if_neg hid]⟩

/-- A change of a level adds one table to those that a rollback may go back to. -/
theorem undoLast_setLevel_cases (hq : T.snapshots = 0 → T.trail = #[]) (id level n : Nat) :
    (T.setLevel id level).undoLast n = T.setLevel id level ∨
      ∃ m, (T.setLevel id level).undoLast n = T.undoLast m := by
  have hrestores := Restores.setLevel T id level
  rcases Nat.eq_zero_or_pos T.snapshots with hs | hs
  · exact .inl (undoLast_of_empty ((hrestores.quiet hs).trans (hq hs)) n)
  · by_cases hid : id < T.size
    · cases n with
      | zero => exact .inl rfl
      | succ n => exact .inr ⟨n, undoLast_setLevel hid hs level n⟩
    · exact .inr ⟨n, by rw [setLevel, if_neg hid]⟩

/-! ## Shortcuts -/

/-- A predicate of tables that shortcuts keep. The types in the tables, and those that are resolved, are
of a kind that passes to variables. -/
structure Shortcuts (K : Table → Prop) (kind : Ty → Prop) : Prop where
  acyclic : ∀ {T}, K T → T.Acyclic
  bound : ∀ {T v t}, K T → kind (.var v) → T.binding? v.id = some t → kind t
  var : ∀ {t v}, kind t → v ∈ t.vars → kind (.var v)
  shortcut : ∀ {T v t}, K T → kind (.var v) → kind t → T.isBound v.id = true →
    (∀ u, (T.setBinding v.id t).deep u = T.deep u) → (T.setBinding v.id t).Acyclic →
    K (T.setBinding v.id t)

namespace Shortcuts

variable {K : Table → Prop} {kind : Ty → Prop}

theorem follow (hK : Shortcuts K kind) {rank : Nat → Nat} (hr : T.Ranks rank) (hT : K T) {n : Nat}
    {v : TyVar} (hv : kind (.var v)) (hn : rank v.id ≤ n) :
    kind (follow n T (.var v)).1 ∧ K (follow n T (.var v)).2 := by
  induction n generalizing v with
  | zero => exact ⟨hv, hT⟩
  | succ n ih =>
    have hfinds := finds_follow hr hn
    rw [Table.follow] at hfinds ⊢
    cases hb : T.binding? v.id with
    | none => exact ⟨hv, hT⟩
    | some s =>
      rw [hb] at hfinds
      have hs := hK.bound hT hv hb
      cases s with
      | var w =>
        have hlt := hr.lt _ _ hb w (by simp [Ty.vars])
        have hw : rank w.id ≤ n := by omega
        obtain ⟨hkind, hkeep⟩ := ih hs hw
        have hsame := (finds_follow hr hw).steady.same
        simp only at hfinds ⊢
        split
        · exact ⟨hkind, hkeep⟩
        · next hne =>
          rw [if_neg hne] at hfinds
          refine ⟨hkind, hK.shortcut hkeep hv hkind ?_ (fun u => ?_) ?_⟩
          · exact (hsame.isBound v.id).trans (isBound_eq_true.mpr ⟨_, hb⟩)
          · exact (hfinds.steady.same.deep u).trans (hsame.deep u).symm
          · exact hfinds.steady.acyclic hr.acyclic
      | _ => exact ⟨hs, hT⟩

theorem resolve (hK : Shortcuts K kind) (hT : K T) {t : Ty} (ht : kind t) :
    kind (T.resolve t).1 ∧ K (T.resolve t).2 := by
  by_cases h : ∃ v, t = .var v
  · obtain ⟨v, rfl⟩ := h
    obtain ⟨rank, hr⟩ := (hK.acyclic hT).exists_ranks
    exact hK.follow hr hT ht (hr.le_size _)
  · rw [resolve_of_not_var fun v hv => h ⟨v, hv⟩]
    exact ⟨ht, hT⟩

theorem resolveDeep (hK : Shortcuts K kind) (hT : K T) {t : Ty} (ht : kind t) :
    K (T.resolveDeep t).2 := by
  suffices key : ∀ n t T, kind t → K T → K (deepen n t T).2 from key _ t T ht hT
  intro n
  induction n with
  | zero => exact fun _ _ _ hT => hT
  | succ n ih =>
    intro t T ht hT
    rw [deepen]
    refine Ty.replaceVarsM_keeps t (fun v hv S hS => ?_) T hT
    have hvr := hK.resolve hS (hK.var ht hv)
    rw [resolveVar_bind]
    generalize S.resolve (.var v) = r at hvr ⊢
    obtain ⟨u, S'⟩ := r
    dsimp only
    split
    · exact hvr.2
    · exact ih _ _ hvr.1 hvr.2

theorem substitute (hK : Shortcuts K kind) (hT : K T) {t : Ty} (ht : kind t)
    (image : List (Nat × Ty)) : K (T.substitute t image).2 := by
  suffices key : ∀ n t T, kind t → K T → K (substituteWithin image n t T).2 from key _ t T ht hT
  intro n
  induction n with
  | zero => exact fun _ _ _ hT => hT
  | succ n ih =>
    intro t T ht hT
    rw [substituteWithin]
    refine Ty.replaceVarsM_keeps t (fun v hv S hS => ?_) T hT
    have hvr := hK.resolve hS (hK.var ht hv)
    rw [resolveVar_bind]
    generalize S.resolve (.var v) = r at hvr ⊢
    obtain ⟨u, S'⟩ := r
    dsimp only
    split
    · exact hvr.2
    · exact ih _ _ hvr.1 hvr.2

end Shortcuts

/-- A predicate of the variables that have been created and of the table that knows them, which
shortcuts and new variables of a level keep. -/
structure Creates (K : List TyVar → Table → Prop) (kind : List TyVar → Ty → Prop) (level : Nat) :
    Prop where
  shortcuts : ∀ vs, Shortcuts (K vs) (kind vs)
  mono : ∀ {vs t} (v : TyVar), kind vs t → kind (vs ++ [v]) t
  newVar : ∀ {vs T} (name : String) (inferred : Bool), K vs T →
    K (vs ++ [(T.newVar name inferred false level).1]) (T.newVar name inferred false level).2

namespace Creates

variable {K : List TyVar → Table → Prop} {kind : List TyVar → Ty → Prop} {level : Nat}
  {vs : List TyVar}

theorem mono_append (hK : Creates K kind level) {t : Ty} (ht : kind vs t) (ws : List TyVar) :
    kind (vs ++ ws) t := by
  induction ws generalizing vs with
  | nil => rwa [List.append_nil]
  | cons w ws ih =>
    rw [List.append_cons]
    exact ih (hK.mono w ht)

theorem instantiateWithin (hK : Creates K kind level) {n : Nat} {t : Ty} {S : Instance}
    (ht : kind vs t) (hS : K vs S.table) :
    ∃ new, (instantiateWithin level n t S).2.copies = new ++ S.copies ∧
      K (vs ++ Instance.fresh new) (Table.instantiateWithin level n t S).2.table := by
  induction n generalizing vs t S with
  | zero => exact ⟨[], rfl, (List.append_nil vs).symm ▸ hS⟩
  | succ n ih =>
    rw [Table.instantiateWithin]
    refine @Ty.replaceVarsM_keeps _ _ (fun S' : Instance => ∃ new, S'.copies = new ++ S.copies ∧
      K (vs ++ Instance.fresh new) S'.table) t (fun v hv S' => ?_) S
      ⟨[], rfl, by simpa [Instance.fresh] using hS⟩
    rintro ⟨new, hc, hI⟩
    obtain ⟨hkind, hkeep⟩ := (hK.shortcuts _).resolve hI
      ((hK.shortcuts _).var (hK.mono_append ht (Instance.fresh new)) hv)
    rw [Instance.resolveVar_bind]
    generalize S'.table.resolve (.var v) = r at hkind hkeep ⊢
    obtain ⟨u, T'⟩ := r
    dsimp only
    split
    · next w =>
      rw [Instance.isGeneralized_bind]
      split
      · -- a generalized variable is replaced by its copy
        rw [Instance.copy]
        simp only
        split
        · exact ⟨new, hc, hkeep⟩
        · refine ⟨(w.id, _) :: new, congrArg _ hc, ?_⟩
          simpa [Instance.fresh] using hK.newVar w.name w.inferred hkeep
      · exact ⟨new, hc, hkeep⟩
    · obtain ⟨new', hc', hI'⟩ := ih (S := ⟨T', S'.copies⟩) hkind hkeep
      refine ⟨new' ++ new, ?_, ?_⟩
      · rw [hc', hc, List.append_assoc]
      · rw [Instance.fresh_append, ← List.append_assoc]
        exact hI'

theorem instantiate (hK : Creates K kind level) (hT : K vs T) {t : Ty} (ht : kind vs t) :
    K (vs ++ (T.instantiate t level).2.1) (T.instantiate t level).2.2 := by
  obtain ⟨new, hc, hI⟩ := hK.instantiateWithin (n := T.size + 1) (S := ⟨T, []⟩) ht hT
  rw [List.append_nil] at hc
  show K (vs ++ Instance.fresh (Table.instantiateWithin level (T.size + 1) t ⟨T, []⟩).2.copies)
    (Table.instantiateWithin level (T.size + 1) t ⟨T, []⟩).2.table
  rw [hc]
  exact hI

end Creates

/-- Shortcuts keep levels and marks. -/
theorem shortcuts_level (level : Nat → Nat) (marks : Nat → Bool) :
    Shortcuts (fun S => S.Acyclic ∧ ∀ id, S.level id = level id ∧ S.isGeneralized id = marks id)
      fun _ => True where
  acyclic h := h.1
  bound _ _ _ := trivial
  var _ _ := trivial
  shortcut h _ _ _ _ hacyclic := ⟨hacyclic, fun w => by simpa using h.2 w⟩

theorem level_resolve (hT : T.Acyclic) (t : Ty) (w : Nat) :
    (T.resolve t).2.level w = T.level w ∧
      (T.resolve t).2.isGeneralized w = T.isGeneralized w :=
  ((shortcuts_level T.level T.isGeneralized).resolve ⟨hT, fun _ => ⟨rfl, rfl⟩⟩ trivial).2.2 w

/-! ## The occurs check -/

/-- The levels in the second table are those in the first, but for some variables that have the property:
their levels were above the given one, and are this now. -/
def Lowers (level : Nat) (P : Nat → Prop) (T T' : Table) : Prop :=
  ∀ w, T'.level w = T.level w ∨ P w ∧ level < T.level w ∧ T'.level w = level

namespace Lowers

variable {level : Nat} {P Q : Nat → Prop} {T₁ T₂ T₃ : Table}

theorem of_eq (h : ∀ w, T₂.level w = T₁.level w) : Lowers level P T₁ T₂ := fun w => .inl (h w)

theorem le (h : Lowers level P T₁ T₂) (w : Nat) : T₂.level w ≤ T₁.level w := by
  rcases h w with h | ⟨-, hlt, h⟩
  · exact h.le
  · exact h.le.trans hlt.le

theorem mono (h : Lowers level P T₁ T₂) (hPQ : ∀ w, P w → Q w) : Lowers level Q T₁ T₂ := fun w =>
  (h w).imp id fun ⟨hP, hlt⟩ => ⟨hPQ w hP, hlt⟩

theorem trans (h : Lowers level P T₁ T₂) (h' : Lowers level P T₂ T₃) : Lowers level P T₁ T₃ := by
  intro w
  rcases h w with h | ⟨hP, hlt, h⟩ <;> rcases h' w with h' | ⟨hP', hlt', h'⟩
  · exact .inl (h'.trans h)
  · exact .inr ⟨hP', h ▸ hlt', h'⟩
  · exact .inr ⟨hP, hlt, h'.trans h⟩
  · omega

theorem eq_of_not (h : Lowers level P T₁ T₂) {w : Nat} (hw : ¬ P w) : T₂.level w = T₁.level w :=
  (h w).resolve_right fun h => hw h.1

end Lowers

/-- An occurs check among variables with the property lowers only such ones, and all of them unless it
finds what it looks for. -/
structure Sinks (level : Nat) (P : Nat → Prop) (T : Table) (r : Bool × Table) : Prop where
  lowers : Lowers level P T r.2
  all : r.1 = false → ∀ w, P w → r.2.level w ≤ level

section occurs

variable {id level : Nat} {rank : Nat → Nat}

theorem sinks_lowerUntil (id level : Nat) {n : Nat} {within : Ty → Table → Bool × Table} (hr : T.Ranks rank)
    (hwithin : ∀ t S, (∀ x ∈ t.vars, rank x.id < n) → T.Steady S →
      T.Checks id t (within t S) ∧ Sinks level (T.Reaches t) S (within t S))
    {ws : List TyVar} (hws : ∀ w ∈ ws, rank w.id < n + 1) (hT' : T.Steady T') :
    Sinks level (fun w => ∃ v ∈ ws, T.Reaches (.var v) w) T' (lowerUntil id level within ws T') := by
  induction ws generalizing T' with
  | nil => exact ⟨.of_eq fun _ => rfl, fun _ w hw => by simp at hw⟩
  | cons v ws ih =>
    obtain ⟨hn, hws⟩ := List.forall_mem_cons.mp hws
    have hvr := finds_resolve (hT'.acyclic hr.acyclic) v
    have hlevel := fun w => (level_resolve (hT'.acyclic hr.acyclic) (.var v) w).1
    have hdeep : T.deep (.var v) = T.deep (T'.resolve (.var v)).1 := by
      rw [← hT'.same.deep, ← hvr.deep, hT'.same.deep]
    have hsteady := hT'.trans hvr.steady
    rw [lowerUntil]
    generalize T'.resolve (.var v) = r at hvr hlevel hdeep hsteady ⊢
    obtain ⟨u, S⟩ := r
    simp only [List.exists_mem_cons_iff]
    split
    · next w S heq =>
      -- an unbound variable
      obtain ⟨rfl, rfl⟩ := Prod.mk.inj heq
      have hreach : ∀ x, T.Reaches (.var v) x ↔ x = w.id := fun x => by
        rw [Reaches, ← hT'.same.deep, (hvr.deep_var rfl).1]
        simp [Ty.vars, eq_comm]
      simp only [hreach]
      split
      · exact ⟨.of_eq hlevel, fun h => by cases h⟩
      · have hstep : ∀ S' : Table, Lowers level (· = w.id) S S' → S'.level w.id ≤ level →
            T.Steady S' → Sinks level (fun x => x = w.id ∨ ∃ y ∈ ws, T.Reaches (.var y) x) T'
              (lowerUntil id level within ws S') := fun S' hlow hle hS' => by
          have h := ih hws hS'
          have hlow' := (Lowers.of_eq hlevel).trans hlow
          refine ⟨(hlow'.mono fun _ => .inl).trans (h.lowers.mono fun _ => .inr), fun hfalse x hx => ?_⟩
          rcases hx with rfl | hx
          · exact (h.lowers.le _).trans hle
          · exact h.all hfalse x hx
        split
        · next hlt =>
          have hid := lt_size_of_lt_level hlt
          refine hstep _ (fun x => ?_) ?_ (hsteady.trans (.setLevel (hsteady.acyclic hr.acyclic) _ _))
          · rw [level_setLevel hid]
            by_cases hx : x = w.id
            · exact .inr ⟨hx, by rwa [hx], by rw [if_pos hx]⟩
            · exact .inl (by rw [if_neg hx])
          · rw [level_setLevel hid, if_pos rfl]
        · next hlt => exact hstep S (.of_eq fun _ => rfl) (Nat.le_of_not_lt hlt) hsteady
    · next t S hnot heq =>
      -- a variable that is bound to something else
      obtain ⟨rfl, rfl⟩ := Prod.mk.inj heq
      have hreach : ∀ x, T.Reaches (.var v) x ↔ T.Reaches u x := fun x => by
        rw [Reaches, hdeep]; rfl
      obtain ⟨s, hs⟩ := hvr.bound fun w hw => hnot w hw
      obtain ⟨hchecks, hsinks⟩ := hwithin u S (fun x hx => by
        have := hvr.lt s hs rank (hT'.same.ranks rank hr) x hx
        omega) hsteady
      have hlow := (Lowers.of_eq hlevel).trans (hsinks.lowers.mono fun x hx => (hreach x).mpr hx)
      split
      · next S' hin =>
        rw [hin] at hlow
        exact ⟨hlow.mono fun _ => .inl, fun h => by cases h⟩
      · next S' hin =>
        rw [hin] at hlow hchecks hsinks
        have h := ih hws hchecks.2
        refine ⟨(hlow.mono fun _ => .inl).trans (h.lowers.mono fun _ => .inr), fun hfalse x hx => ?_⟩
        rcases hx with hx | hx
        · exact (h.lowers.le _).trans (hsinks.all rfl x ((hreach x).mp hx))
        · exact h.all hfalse x hx

theorem sinks_occursWithin (hr : T.Ranks rank) {n : Nat} {t : Ty}
    (hn : ∀ x ∈ t.vars, rank x.id < n) (hT' : T.Steady T') :
    Sinks level (T.Reaches t) T' (occursWithin id level n t T') := by
  induction n generalizing t T' with
  | zero =>
    refine ⟨.of_eq fun _ => rfl, fun _ w hw => ?_⟩
    obtain ⟨v, hv, -⟩ := reaches_iff.mp hw
    exact absurd (hn v hv) (Nat.not_lt_zero _)
  | succ n ih =>
    have h := sinks_lowerUntil id level hr
      (fun t S hn hS => ⟨checks_occursWithin hr hn hS, ih hn hS⟩) hn hT'
    exact ⟨h.lowers.mono fun w => reaches_iff.mpr, fun hfalse w hw => h.all hfalse w (reaches_iff.mp hw)⟩

/-- **The occurs check lowers levels** of variables that remain in the type, and unless it finds the one
that it looks for, it leaves none of them above the given level. -/
theorem sinks_occurs (hT : T.Acyclic) (id level : Nat) (t : Ty) :
    Sinks level (T.Reaches t) T (T.occurs id level t) := by
  obtain ⟨rank, hr⟩ := hT.exists_ranks
  exact sinks_occursWithin hr (fun w _ => Nat.lt_succ_of_le (hr.le_size _)) (.refl T)

/-- A variable that a table leaves in a type is unbound. -/
theorem Reaches.unbound (hT : T.Acyclic) {t : Ty} {w : Nat} (h : T.Reaches t w) :
    T.binding? w = none := by
  obtain ⟨x, hx, rfl⟩ := h
  exact unbound_of_mem_vars_deep hT hx

end occurs

/-- A predicate of tables that shortcuts and lowered levels keep. -/
structure Lowering (K : Table → Prop) (kind : Ty → Prop) : Prop extends Shortcuts K kind where
  lower : ∀ {T id level}, K T → T.binding? id = none → level < T.level id → K (T.setLevel id level)

namespace Lowering

variable {K : Table → Prop} {kind : Ty → Prop}

theorem lowerUntil (hK : Lowering K kind) {id level : Nat} {within : Ty → Table → Bool × Table}
    (hwithin : ∀ t S, kind t → K S → K (within t S).2) {ws : List TyVar}
    (hws : ∀ w ∈ ws, kind (.var w)) (hT : K T) : K (lowerUntil id level within ws T).2 := by
  induction ws generalizing T with
  | nil => exact hT
  | cons v ws ih =>
    obtain ⟨hv, hws⟩ := List.forall_mem_cons.mp hws
    obtain ⟨hkind, hkeep⟩ := hK.resolve hT hv
    have hvr := finds_resolve (hK.acyclic hT) v
    rw [Table.lowerUntil]
    generalize T.resolve (.var v) = r at hkind hkeep hvr ⊢
    obtain ⟨u, S⟩ := r
    split
    · next w S heq =>
      obtain ⟨rfl, rfl⟩ := Prod.mk.inj heq
      split
      · exact hkeep
      · split
        · next hlt =>
          have hw := binds_eq_false.mp hvr.final w rfl
          exact ih hws (hK.lower hkeep hw hlt)
        · exact ih hws hkeep
    · next t S hnot heq =>
      obtain ⟨rfl, rfl⟩ := Prod.mk.inj heq
      have hin := hwithin u S hkind hkeep
      split
      · next heq => rwa [heq] at hin
      · next heq =>
        rw [heq] at hin
        exact ih hws hin

theorem occurs (hK : Lowering K kind) (hT : K T) (id level : Nat) {t : Ty} (ht : kind t) :
    K (T.occurs id level t).2 := by
  suffices key : ∀ n t T, kind t → K T → K (occursWithin id level n t T).2 from key _ t T ht hT
  intro n
  induction n with
  | zero => exact fun _ _ _ hT => hT
  | succ n ih =>
    exact fun t T ht hT => hK.lowerUntil (fun t S ht hS => ih t S ht hS) (fun w => hK.var ht) hT

end Lowering

/-! ## Unification -/

/-- A predicate of tables that every small change keeps. Nothing is asked of rollbacks: what a member of a
union did before it failed is undone exactly. -/
structure Changes (K : Table → Prop) (kind : Ty → Prop) : Prop extends Lowering K kind where
  quiet : ∀ {T}, K T → T.snapshots = 0 → T.trail = #[]
  part : ∀ {c t}, c.Part t → kind t → kind c
  snapshot : ∀ {T}, K T → K T.snapshot.2
  commit : ∀ {T}, K T → K T.commit
  /-- What remains in the type has no higher level than the variable that is bound to it. -/
  bind : ∀ {T v t}, K T → kind (.var v) → kind t → v.rigid = false → T.binding? v.id = none →
    ¬ T.Reaches t v.id → (∀ w, T.Reaches t w → T.level w ≤ T.level v.id) → K (T.setBinding v.id t)

namespace Changes

variable {K : Table → Prop} {kind : Ty → Prop}

theorem tame (hK : Changes K kind) (hT : K T) : T.Tame := ⟨hK.acyclic hT, hK.quiet hT⟩

theorem bindVar (hK : Changes K kind) (hT : K T) {v : TyVar} (hv : kind (.var v))
    (hr : v.rigid = false) (hu : T.binding? v.id = none) {t : Ty} (ht : kind t) :
    K (T.bind v t).table := by
  have hacyclic := hK.acyclic hT
  obtain ⟨hiff, hsteady⟩ := checks_occurs hacyclic v.id (T.level v.id) t
  obtain ⟨hlow, hall⟩ := sinks_occurs hacyclic v.id (T.level v.id) t
  have hkeep := hK.occurs hT v.id (T.level v.id) ht
  unfold Table.bind
  generalize T.occurs v.id (T.level v.id) t = r at hiff hsteady hlow hall hkeep ⊢
  obtain ⟨b, S⟩ := r
  cases b with
  | true => exact hK.resolveDeep hkeep ht
  | false =>
    have hreach : ∀ w, S.Reaches t w ↔ T.Reaches t w := fun w => by
      rw [Reaches, hsteady.same.deep]; rfl
    have hnot : ¬ T.Reaches t v.id := fun h => Bool.false_ne_true (hiff.mpr h)
    refine hK.bind hkeep hv ht hr (hsteady.same.unbound_iff.mpr hu) (fun h => hnot ((hreach _).mp h))
      fun w hw => ?_
    rw [hlow.eq_of_not hnot]
    exact hall rfl w ((hreach w).mp hw)

theorem mismatch (hK : Changes K kind) (hT : K T) {a b : Ty} (ha : kind a) (hb : kind b) :
    K (T.mismatch a b).table :=
  hK.resolveDeep (hK.resolveDeep hT ha) hb

theorem stable (hK : Changes K kind) :
    Stable K (fun T T' => T.Advances T' ∧ K T') kind fun T t => T.binds t = false where
  part := hK.part
  keeps _ h := h.2
  refl h := ⟨⟨.refl (hK.tame h), .refl _⟩, h⟩
  trans h h' := ⟨h.1.trans h'.1, h'.2⟩
  snapshot := hK.snapshot
  rollback h h' := by
    rw [h'.1.restores.rollback_eq (hK.quiet h)]
    exact ⟨⟨.refl (hK.tame h), .refl _⟩, h⟩
  commit h h' := ⟨Advances.stable.commit (hK.tame h) h'.1, hK.commit h'.2⟩
  unbound h := h
  resolve hT ha := by
    obtain ⟨hkind, hkeep⟩ := hK.resolve hT ha
    exact ⟨hkind, .of_steady (steady_resolve (hK.acyclic hT) _).1 (hK.tame hT), hkeep⟩
  resolve_final {T a b} hT ha hb := by
    obtain ⟨h₁, -, hf₁⟩ := steady_resolve (hK.acyclic hT) a
    obtain ⟨h₂, -, hf₂⟩ := steady_resolve (h₁.acyclic (hK.acyclic hT)) b
    exact ⟨(h₂.same.binds _).trans hf₁, hf₂⟩
  mismatch hT ha hb := ⟨.mismatch (hK.tame hT) _ _, hK.mismatch hT ha hb⟩
  missingField field hT ha := ⟨.missingField (hK.tame hT) field _, hK.resolveDeep hT ha⟩
  bind hT hv hf hr ht := ⟨.bind (hK.tame hT) hf, hK.bindVar hT hv hr (isBound_eq_false.mp hf) ht⟩

/-- **Unification keeps what every small change keeps**, whether it succeeds or not. -/
theorem unify (hK : Changes K kind) (hT : K T) {a b : Ty} (ha : kind a) (hb : kind b) :
    K (T.unify a b).table :=
  (hK.stable.unify hT ha hb).2

end Changes

/-! ## Bound types of a kind -/

theorem entries_commit (T : Table) : T.commit.entries = T.entries := by
  unfold commit close
  split <;> rfl

theorem binding?_commit (id : Nat) : T.commit.binding? id = T.binding? id := by
  rw [binding?, entries_commit, binding?]

namespace Tame

theorem setBinding (hT : T.Tame) {id : Nat} {t : Ty} (h : (T.setBinding id t).Acyclic) :
    (T.setBinding id t).Tame := by
  have hrestores := Restores.setBinding T id t
  refine ⟨h, fun hq => ?_⟩
  have hzero := hrestores.snapshots.symm.trans hq
  rw [hrestores.quiet hzero, hT.quiet hzero]

theorem setLevel (hT : T.Tame) (id level : Nat) : (T.setLevel id level).Tame :=
  ((Steady.setLevel hT.acyclic id level).grows hT).tame

theorem snapshot (hT : T.Tame) : T.snapshot.2.Tame := Advances.stable.snapshot hT

theorem commit (hT : T.Tame) : T.commit.Tame := by
  refine ⟨hT.acyclic.imp fun _ hr v t hv => hr v t (binding?_commit v ▸ hv), fun hq => ?_⟩
  unfold Table.commit close at hq ⊢
  split at hq
  · next hle => rw [if_pos hle]
  · next hle =>
    simp only at hq
    omega

end Tame

/-- Unification keeps that all variables are bound to types of a kind that passes to parts. -/
theorem changes_ofKind {kind : Ty → Prop} (hvar : ∀ v, kind (.var v))
    (hpart : ∀ {c t : Ty}, c.Part t → kind t → kind c) :
    Changes (fun T => T.Tame ∧ ∀ id t, T.binding? id = some t → kind t) kind := by
  have hset : ∀ {T : Table} {v : TyVar} {t : Ty}, (∀ id t, T.binding? id = some t → kind t) → kind t →
      ∀ id u, (T.setBinding v.id t).binding? id = some u → kind u := fun {T v t} h ht id u hu => by
    by_cases hid : v.id < T.size
    · rw [binding?_setBinding hid] at hu
      split at hu
      · exact Option.some.inj hu ▸ ht
      · exact h id u hu
    · rw [Table.setBinding, if_neg hid] at hu
      exact h id u hu
  exact
    { acyclic := fun h => h.1.acyclic
      bound := fun h _ hb => h.2 _ _ hb
      var := fun _ _ => hvar _
      shortcut := fun h _ ht _ _ hacyclic => ⟨h.1.setBinding hacyclic, hset h.2 ht⟩
      lower := fun h _ _ => ⟨h.1.setLevel _ _, fun id t ht => h.2 id t (binding?_setLevel _ _ id ▸ ht)⟩
      quiet := fun h => h.1.quiet
      part := hpart
      snapshot := fun h => ⟨h.1.snapshot, h.2⟩
      commit := fun h => ⟨h.1.commit, fun id t ht => h.2 id t (binding?_commit id ▸ ht)⟩
      bind := fun h _ ht _ hu hnot _ =>
        ⟨(Advances.setBinding h.1 hu hnot).grows.tame, hset h.2 ht⟩ }

end Table

end Reified
