import Reified.Proofs.Table.Unify
import Reified.Typing.Basic

/-!
# Types without implicit parameters

A type is explicit if none of its functions has implicit parameters. A table that binds variables to
explicit types only, and could only be rolled back to such bindings, computes explicit types from
explicit types.

## Main definitions

* `Ty.Explicit`, `Table.Explicit`

## Main results

* `Table.Explicit.resolveDeep`, `Table.Explicit.instantiate`, `Table.Explicit.substitute`
* `Table.Explicit.unify` — unification keeps a table explicit, whether it succeeds or not
-/

namespace Reified

namespace Ty

/-! ## Explicit types -/

mutual

/-- No function in the type has implicit parameters. -/
def Explicit : Ty → Prop
  | .var _ | .name _ => True
  | .array t => t.Explicit
  | .tuple ts => ExplicitList ts
  | .record fs => ExplicitFields fs
  | .fn ps r implicit => ExplicitList ps ∧ r.Explicit ∧ implicit = 0
  | .union a b => a.Explicit ∧ b.Explicit
  | .binding _ t => t.Explicit

/-- `Explicit` for each type of a list. -/
def ExplicitList : List Ty → Prop
  | [] => True
  | t :: ts => t.Explicit ∧ ExplicitList ts

/-- `Explicit` for each named type. -/
def ExplicitFields : List (String × Ty) → Prop
  | [] => True
  | (_, t) :: fs => t.Explicit ∧ ExplicitFields fs

end

@[simp] theorem explicitList_iff (ts : List Ty) : ExplicitList ts ↔ ∀ t ∈ ts, t.Explicit := by
  induction ts with
  | nil => simp [ExplicitList]
  | cons t ts ih => simp [ExplicitList, ih]

@[simp] theorem explicitFields_iff (fs : List (String × Ty)) :
    ExplicitFields fs ↔ ∀ f ∈ fs, f.2.Explicit := by
  induction fs with
  | nil => simp [ExplicitFields]
  | cons f fs ih => obtain ⟨n, t⟩ := f; simp [ExplicitFields, ih]

theorem Part.explicit {c t : Ty} (h : Part c t) (ht : t.Explicit) : c.Explicit := by
  cases h with
  | array => exact ht
  | tuple hm => exact (explicitList_iff _).mp ht _ hm
  | record hm => exact (explicitFields_iff _).mp ht _ hm
  | param hm => exact (explicitList_iff _).mp ht.1 _ hm
  | result => exact ht.2.1
  | left => exact ht.1
  | right => exact ht.2
  | inner => exact ht

/-! ## Replacing variables -/

section replace

variable {S : Type} {rule : TyVar → StateM S Ty} {keep : S → Prop}

/-- The rule gives explicit types and keeps a predicate of the state. -/
def Gives (keep : S → Prop) (rule : TyVar → StateM S Ty) : Prop :=
  ∀ v s, keep s → (rule v s).1.Explicit ∧ keep (rule v s).2

mutual

/-- Replacing variables by explicit types keeps a type explicit. -/
theorem Explicit.replaceVarsM (h : Gives keep rule) : (t : Ty) → t.Explicit → ∀ s, keep s →
    (t.replaceVarsM rule s).1.Explicit ∧ keep (t.replaceVarsM rule s).2
  | .var v, _, s, hs => h v s hs
  | .name n, _, s, hs => ⟨trivial, hs⟩
  | .array t, ht, s, hs => Explicit.replaceVarsM h t ht s hs
  | .tuple ts, ht, s, hs => Explicit.replaceListM h ts ht s hs
  | .record fs, ht, s, hs => Explicit.replaceFieldsM h fs ht s hs
  | .fn ps r k, ht, s, hs => by
    obtain ⟨h1, h2⟩ := Explicit.replaceListM h ps ht.1 s hs
    obtain ⟨h3, h4⟩ := Explicit.replaceVarsM h r ht.2.1 _ h2
    exact ⟨⟨h1, h3, ht.2.2⟩, h4⟩
  | .union a b, ht, s, hs => by
    obtain ⟨h1, h2⟩ := Explicit.replaceVarsM h a ht.1 s hs
    obtain ⟨h3, h4⟩ := Explicit.replaceVarsM h b ht.2 _ h2
    exact ⟨⟨h1, h3⟩, h4⟩
  | .binding n t, ht, s, hs => Explicit.replaceVarsM h t ht s hs

theorem Explicit.replaceListM (h : Gives keep rule) : (ts : List Ty) → ExplicitList ts → ∀ s,
    keep s → ExplicitList (Ty.replaceListM rule ts s).1 ∧ keep (Ty.replaceListM rule ts s).2
  | [], _, s, hs => ⟨trivial, hs⟩
  | t :: ts, ht, s, hs => by
    obtain ⟨h1, h2⟩ := Explicit.replaceVarsM h t ht.1 s hs
    obtain ⟨h3, h4⟩ := Explicit.replaceListM h ts ht.2 _ h2
    exact ⟨⟨h1, h3⟩, h4⟩

theorem Explicit.replaceFieldsM (h : Gives keep rule) : (fs : List (String × Ty)) →
    ExplicitFields fs → ∀ s, keep s →
      ExplicitFields (Ty.replaceFieldsM rule fs s).1 ∧ keep (Ty.replaceFieldsM rule fs s).2
  | [], _, s, hs => ⟨trivial, hs⟩
  | (n, t) :: fs, ht, s, hs => by
    obtain ⟨h1, h2⟩ := Explicit.replaceVarsM h t ht.1 s hs
    obtain ⟨h3, h4⟩ := Explicit.replaceFieldsM h fs ht.2 _ h2
    exact ⟨⟨h1, h3⟩, h4⟩

end

end replace

end Ty

namespace Table

variable {T : Table}

/-! ## Explicit tables -/

/-- Variables are bound to explicit types, and so they are after any rollback. -/
structure Explicit (T : Table) : Prop where
  bound : ∀ id t, T.binding? id = some t → t.Explicit
  trail : ∀ id t, Undo.binding id (some t) ∈ T.trail → t.Explicit

namespace Explicit

theorem empty : Table.empty.Explicit where
  bound id t h := by simp [Table.empty, binding?] at h
  trail id t h := by simp [Table.empty] at h

/-- Only bindings and the trail matter. -/
theorem congr {T' : Table} (h : T.Explicit) (hb : ∀ id, T'.binding? id = T.binding? id)
    (ht : ∀ u ∈ T'.trail, u ∈ T.trail) : T'.Explicit where
  bound id t hid := h.bound id t (hb id ▸ hid)
  trail id t hu := h.trail id t (ht _ hu)

theorem note (h : T.Explicit) {u : Undo} (hu : ∀ id t, u = .binding id (some t) → t.Explicit) :
    (T.note u).Explicit := by
  unfold Table.note
  split
  · refine ⟨h.bound, fun id t ht => ?_⟩
    rcases Array.mem_push.mp ht with ht | ht
    · exact h.trail id t ht
    · exact hu id t ht.symm
  · exact h

theorem setBinding (h : T.Explicit) (id : Nat) {t : Ty} (ht : t.Explicit) :
    (T.setBinding id t).Explicit := by
  by_cases hid : id < T.size
  · refine ⟨fun w u hw => ?_, fun w u hu => ?_⟩
    · rw [binding?_setBinding hid] at hw
      split at hw
      · rw [Option.some.injEq] at hw
        exact hw ▸ ht
      · exact h.bound w u hw
    · simp only [Table.setBinding, if_pos hid] at hu
      refine (h.note (u := .binding id (T.binding? id)) fun v s hs => ?_).trail w u hu
      rw [Undo.binding.injEq] at hs
      exact h.bound id s hs.2
  · rwa [Table.setBinding, if_neg hid]

theorem setLevel (h : T.Explicit) (id level : Nat) : (T.setLevel id level).Explicit := by
  refine ⟨fun w t hw => h.bound w t (binding?_setLevel id level w ▸ hw), fun w t hu => ?_⟩
  unfold Table.setLevel at hu
  split at hu
  · exact (h.note (u := .level id (T.level id)) nofun).trail w t hu
  · exact h.trail w t hu

theorem newVar (h : T.Explicit) (name : String) (inferred rigid : Bool) (level : Nat) :
    (T.newVar name inferred rigid level).2.Explicit :=
  h.congr (binding?_newVar name inferred rigid level) fun _ hu => hu

theorem generalize (h : T.Explicit) (id : Nat) : (T.generalize id).Explicit :=
  h.congr (binding?_generalize id) fun _ hu => hu

/-! ## Snapshots -/

theorem snapshot (h : T.Explicit) : T.snapshot.2.Explicit :=
  h.congr (fun _ => rfl) fun _ hu => hu

theorem undo (h : T.Explicit) {u : Undo} (hu : ∀ id t, u = .binding id (some t) → t.Explicit) :
    (T.undo u).Explicit := by
  refine ⟨fun w t hw => ?_, fun w t ht => h.trail w t (trail_undo u ▸ ht)⟩
  by_cases hid : u.id < T.size
  · rw [binding?_undo hid] at hw
    cases u with
    | binding v previous =>
      simp only at hw
      split at hw
      · exact hu v t (hw ▸ rfl)
      · exact h.bound w t hw
    | level v previous => exact h.bound w t hw
  · -- a variable that the table does not know cannot be restored
    refine h.bound w t ?_
    have hsame : (T.undo u).entries[w]? = T.entries[w]? := by
      by_cases huw : u.id = w
      · have hnone : T.entries[w]? = none := Array.getElem?_eq_none (huw ▸ Nat.le_of_not_lt hid)
        cases u <;> simp [Table.undo, Array.getElem?_modify, hnone]
      · cases u <;> simp_all [Table.undo, Array.getElem?_modify, Undo.id]
    rwa [binding?, hsame] at hw

theorem undoLast (h : T.Explicit) (n : Nat) : (T.undoLast n).Explicit := by
  induction n generalizing T with
  | zero => exact h
  | succ n ih =>
    rw [Table.undoLast]
    split
    · next u hu =>
      have hpop : ({ T with trail := T.trail.pop } : Table).Explicit :=
        h.congr (fun _ => rfl) fun _ => mem_of_mem_pop
      refine ih (hpop.undo fun id t ht => h.trail id t ?_)
      exact ht ▸ Array.mem_of_back? hu
    · exact h

theorem close (h : T.Explicit) : T.close.Explicit := by
  unfold Table.close
  split
  · exact h.congr (fun _ => rfl) fun _ hu => by simp at hu
  · exact h.congr (fun _ => rfl) fun _ hu => hu

theorem rollback (h : T.Explicit) (s : Snapshot) : (T.rollback s).Explicit :=
  (h.undoLast _).close

theorem commit (h : T.Explicit) : T.commit.Explicit := h.close

/-! ## Resolution -/

theorem follow (h : T.Explicit) (n : Nat) {t : Ty} (ht : t.Explicit) :
    (Table.follow n T t).1.Explicit ∧ (Table.follow n T t).2.Explicit := by
  induction n generalizing t with
  | zero =>
    rw [Table.follow.eq_def]
    exact ⟨ht, h⟩
  | succ n ih =>
    cases t with
    | var v =>
      rw [Table.follow]
      cases hb : T.binding? v.id with
      | none => exact ⟨trivial, h⟩
      | some s =>
        have hs := h.bound _ _ hb
        cases s with
        | var w =>
          have hw := ih (t := .var w) trivial
          simp only
          split
          · exact hw
          · exact ⟨hw.1, hw.2.setBinding v.id hw.1⟩
        | _ => exact ⟨hs, h⟩
    | _ => exact ⟨ht, h⟩

theorem resolve (h : T.Explicit) {t : Ty} (ht : t.Explicit) :
    (T.resolve t).1.Explicit ∧ (T.resolve t).2.Explicit :=
  h.follow T.size ht

theorem deepen (n : Nat) {t : Ty} (ht : t.Explicit) (h : T.Explicit) :
    (Table.deepen n t T).1.Explicit ∧ (Table.deepen n t T).2.Explicit := by
  induction n generalizing t T with
  | zero => exact ⟨ht, h⟩
  | succ n ih =>
    refine @Ty.Explicit.replaceVarsM _ _ Table.Explicit (fun v S hS => ?_) t ht T h
    have hr := hS.resolve (t := .var v) trivial
    rw [resolveVar_bind]
    generalize S.resolve (.var v) = r at hr ⊢
    obtain ⟨u, S'⟩ := r
    dsimp only
    split
    · exact hr
    · exact ih hr.1 hr.2

theorem resolveDeep (h : T.Explicit) {t : Ty} (ht : t.Explicit) :
    (T.resolveDeep t).1.Explicit ∧ (T.resolveDeep t).2.Explicit :=
  deepen _ ht h

theorem substituteWithin {image : List (Nat × Ty)} (hi : ∀ x ∈ image, x.2.Explicit) (n : Nat)
    {t : Ty} (ht : t.Explicit) (h : T.Explicit) :
    (Table.substituteWithin image n t T).1.Explicit ∧
      (Table.substituteWithin image n t T).2.Explicit := by
  induction n generalizing t T with
  | zero => exact ⟨ht, h⟩
  | succ n ih =>
    refine @Ty.Explicit.replaceVarsM _ _ Table.Explicit (fun v S hS => ?_) t ht T h
    have hr := hS.resolve (t := .var v) trivial
    rw [resolveVar_bind]
    generalize S.resolve (.var v) = r at hr ⊢
    obtain ⟨u, S'⟩ := r
    dsimp only
    split
    · next w =>
      refine ⟨?_, hr.2⟩
      cases hw : image.lookup w.id with
      | none => exact trivial
      | some u =>
        obtain ⟨before, after, rfl, -⟩ := List.lookup_eq_some_iff.mp hw
        exact hi (w.id, u) (by simp)
    · exact ih hr.1 hr.2

theorem substitute (h : T.Explicit) {t : Ty} (ht : t.Explicit) {image : List (Nat × Ty)}
    (hi : ∀ x ∈ image, x.2.Explicit) :
    (T.substitute t image).1.Explicit ∧ (T.substitute t image).2.Explicit :=
  substituteWithin hi _ ht h

theorem copy {S : Instance} (h : S.table.Explicit) (level : Nat) (w : TyVar) :
    (Instance.copy level w S).1.Explicit ∧ (Instance.copy level w S).2.table.Explicit := by
  unfold Instance.copy
  dsimp only
  split
  · exact ⟨trivial, h⟩
  · exact ⟨trivial, h.newVar w.name w.inferred false level⟩

theorem instantiateWithin (level n : Nat) {t : Ty} (ht : t.Explicit) {S : Instance}
    (h : S.table.Explicit) :
    (Table.instantiateWithin level n t S).1.Explicit ∧
      (Table.instantiateWithin level n t S).2.table.Explicit := by
  induction n generalizing t S with
  | zero => exact ⟨ht, h⟩
  | succ n ih =>
    refine @Ty.Explicit.replaceVarsM _ _ (fun S : Instance => S.table.Explicit) (fun v S hS => ?_)
      t ht S h
    have hr := hS.resolve (t := .var v) trivial
    rw [Instance.resolveVar_bind]
    generalize S.table.resolve (.var v) = r at hr ⊢
    obtain ⟨u, S'⟩ := r
    dsimp only
    split
    · rw [Instance.isGeneralized_bind]
      split
      · exact copy (S := ⟨_, _⟩) hr.2 level _
      · exact ⟨trivial, hr.2⟩
    · exact ih hr.1 hr.2

theorem instantiate (h : T.Explicit) {t : Ty} (ht : t.Explicit) (level : Nat) :
    (T.instantiate t level).1.Explicit ∧ (T.instantiate t level).2.2.Explicit :=
  instantiateWithin level (T.size + 1) ht (S := ⟨T, []⟩) h

/-! ## Unification -/

theorem lowerUntil {id level : Nat} {within : Ty → Table → Bool × Table}
    (hwithin : ∀ t T, t.Explicit → Table.Explicit T → (within t T).2.Explicit) (vs : List TyVar)
    (h : T.Explicit) : (Table.lowerUntil id level within vs T).2.Explicit := by
  induction vs generalizing T with
  | nil => exact h
  | cons v vs ih =>
    have hr := h.resolve (t := .var v) trivial
    rw [Table.lowerUntil]
    generalize T.resolve (.var v) = r at hr ⊢
    obtain ⟨u, S⟩ := r
    dsimp only at hr
    split
    · next w S heq =>
      obtain ⟨rfl, rfl⟩ := Prod.mk.inj heq
      split
      · exact hr.2
      · split
        · exact ih (hr.2.setLevel _ _)
        · exact ih hr.2
    · next t S _ heq =>
      obtain ⟨rfl, rfl⟩ := Prod.mk.inj heq
      have hin := hwithin _ _ hr.1 hr.2
      split
      · next hin' => rwa [hin'] at hin
      · next hin' =>
        rw [hin'] at hin
        exact ih hin

theorem occurs (h : T.Explicit) (id level : Nat) {t : Ty} (ht : t.Explicit) :
    (T.occurs id level t).2.Explicit := by
  suffices key : ∀ n t T, t.Explicit → T.Explicit → (occursWithin id level n t T).2.Explicit from
    key _ t T ht h
  intro n
  induction n with
  | zero => exact fun _ _ _ h => h
  | succ n ih => exact fun t _ _ h => h.lowerUntil ih t.vars

theorem bind (h : T.Explicit) (v : TyVar) {t : Ty} (ht : t.Explicit) :
    (T.bind v t).table.Explicit := by
  have ho := h.occurs v.id (T.level v.id) ht
  unfold Table.bind
  split
  · next S hS =>
    rw [hS] at ho
    exact (ho.resolveDeep ht).2
  · next S hS =>
    rw [hS] at ho
    exact ho.setBinding v.id ht

theorem mismatch (h : T.Explicit) {a b : Ty} (ha : a.Explicit) (hb : b.Explicit) :
    (T.mismatch a b).table.Explicit :=
  ((h.resolveDeep ha).2.resolveDeep hb).2

theorem missingField (h : T.Explicit) (field : String) {a : Ty} (ha : a.Explicit) :
    (T.missingField field a).table.Explicit :=
  (h.resolveDeep ha).2

theorem stable :
    Stable Table.Explicit (fun _ => Table.Explicit) Ty.Explicit fun _ _ => True where
  part hc ht := hc.explicit ht
  keeps _ h := h
  refl h := h
  trans _ h := h
  snapshot h := h.snapshot
  rollback _ h := h.rollback _
  commit _ h := h.commit
  unbound _ := trivial
  resolve h ha := h.resolve ha
  resolve_final _ _ _ := ⟨trivial, trivial⟩
  mismatch h ha hb := h.mismatch ha hb
  missingField field h ha := h.missingField field ha
  bind h _ _ _ ht := h.bind _ ht

/-- Unification keeps a table explicit, whether it succeeds or not. -/
theorem unify (h : T.Explicit) {a b : Ty} (ha : a.Explicit) (hb : b.Explicit) :
    (T.unify a b).table.Explicit :=
  stable.unify h ha hb

end Explicit

end Table

end Reified
