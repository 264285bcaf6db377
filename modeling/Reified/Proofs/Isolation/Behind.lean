import Reified.Ty.Generalize
import Reified.Ty.Unify
import Reified.Proofs.Table.Entries
import Reified.Proofs.Ty.Subst

/-!
# A table behind another one

The variables of one table can be put behind those of an older one: their numbers are moved up by the number
of older variables, their levels by a number of frames, and the older entries stay in front. None of the
elementary operations on the newer variables sees the difference.

The same is done with the open frames. The outermost frame of the newer ones is joined with the innermost of
the older ones, since the variables of both wait for the same frame to close.

## Main definitions

* `Ty.shift` — a type with the numbers of its variables moved up
* `Table.behind` — a table behind older entries
* `Frames.behind` — open frames inside older ones

## Main results

* `Ty.replaceVarsM_shift` — traversals of a moved type
* `Table.newVar_behind`, `Table.setBinding_behind`, `Table.rollback_behind`, … — operations on a table that
  is behind another one
-/

namespace Reified

/-! ## Moved types -/

/-- The variable with a number that is larger by `d`. -/
def TyVar.shift (d : Nat) (v : TyVar) : TyVar := { v with id := v.id + d }

theorem TyVar.shift_injective (d : Nat) : Function.Injective (TyVar.shift d) := by
  rintro ⟨i, _, _, _⟩ ⟨j, _, _, _⟩ h
  simp only [shift, TyVar.mk.injEq, Nat.add_right_cancel_iff] at h ⊢
  exact h

namespace Ty

/-- The type with the number of each variable moved up by `d`. -/
def shift (d : Nat) (t : Ty) : Ty := t.subst fun v => .var (v.shift d)

variable {d : Nat}

@[simp] theorem shift_var (v : TyVar) : (Ty.var v).shift d = .var (v.shift d) := rfl

@[simp] theorem shift_name (n : String) : (Ty.name n).shift d = .name n := rfl

@[simp] theorem shift_array (t : Ty) : (Ty.array t).shift d = .array (t.shift d) := rfl

@[simp] theorem shift_tuple (ts : List Ty) : (Ty.tuple ts).shift d = .tuple (ts.map (shift d)) := by
  simp only [shift, subst, substList_eq]
  rfl

@[simp] theorem shift_record (fs : List (String × Ty)) :
    (Ty.record fs).shift d = .record (fs.map fun f => (f.1, f.2.shift d)) := by
  simp only [shift, subst, substFields_eq]

@[simp] theorem shift_fn (ps : List Ty) (r : Ty) (k : Nat) :
    (Ty.fn ps r k).shift d = .fn (ps.map (shift d)) (r.shift d) k := by
  simp only [shift, subst, substList_eq]
  rfl

@[simp] theorem shift_union (a b : Ty) : (Ty.union a b).shift d = .union (a.shift d) (b.shift d) := rfl

@[simp] theorem shift_binding (n : String) (t : Ty) :
    (Ty.binding n t).shift d = .binding n (t.shift d) := rfl

theorem slotType_shift (t : Ty) : (t.shift d).slotType = (t.slotType.1, t.slotType.2.shift d) := by
  cases t <;> rfl

@[simp] theorem tyClass_shift (t : Ty) : (t.shift d).tyClass = t.tyClass := by
  cases t <;> simp [tyClass]

theorem vars_shift (t : Ty) : (t.shift d).vars = t.vars.map (TyVar.shift d) := by
  induction t with
  | var v => simp [vars]
  | name n => simp [vars]
  | array t ih => simpa [vars] using ih
  | tuple ts ih =>
    simp only [shift_tuple, vars, varsList_eq, List.flatMap_map, List.map_flatMap]
    exact List.flatMap_congr ih
  | record fs ih =>
    simp only [shift_record, vars, varsFields_eq, List.flatMap_map, List.map_flatMap]
    exact List.flatMap_congr ih
  | fn ps r k ihp ihr =>
    simp only [shift_fn, vars, varsList_eq, List.flatMap_map, List.map_append, List.map_flatMap, ihr]
    rw [List.flatMap_congr ihp]
  | union a b iha ihb => simp [vars, iha, ihb]
  | binding n t ih => simpa [vars] using ih

theorem shift_injective (d : Nat) : Function.Injective (shift d) := by
  intro t
  induction t with
  | var v =>
    intro u h
    cases u <;> simp at h
    exact congrArg Ty.var (TyVar.shift_injective d h)
  | name n => intro u h; cases u <;> simp at h; rw [h]
  | array t ih => intro u h; cases u <;> simp at h; rw [ih h]
  | tuple ts ih =>
    intro u h
    cases u <;> simp at h
    rw [map_inj_of_forall ih h]
  | record fs ih =>
    intro u h
    cases u <;> simp at h
    rw [fields_inj_of_forall ih h]
  | fn ps r k ihp ihr =>
    intro u h
    cases u <;> simp at h
    rw [map_inj_of_forall ihp h.1, ihr h.2.1, h.2.2]
  | union a b iha ihb => intro u h; cases u <;> simp at h; rw [iha h.1, ihb h.2]
  | binding n t ih => intro u h; cases u <;> simp at h; rw [h.1, ih h.2]
where
  map_inj_of_forall {ts : List Ty} (ih : ∀ t ∈ ts, ∀ ⦃u⦄, shift d t = shift d u → t = u) :
      ∀ {us : List Ty}, ts.map (shift d) = us.map (shift d) → ts = us := by
    induction ts with
    | nil => intro us h; simpa using h.symm
    | cons t ts iht =>
      intro us h
      cases us with
      | nil => simp at h
      | cons u us =>
        simp only [List.map_cons, List.cons.injEq] at h
        rw [ih t List.mem_cons_self h.1, iht (fun t ht => ih t (List.mem_cons_of_mem _ ht)) h.2]
  fields_inj_of_forall {fs : List (String × Ty)}
      (ih : ∀ f ∈ fs, ∀ ⦃u⦄, shift d f.2 = shift d u → f.2 = u) : ∀ {gs : List (String × Ty)},
      (fs.map fun f => (f.1, shift d f.2)) = (gs.map fun f => (f.1, shift d f.2)) → fs = gs := by
    induction fs with
    | nil => intro gs h; simpa using h.symm
    | cons f fs ihf =>
      intro gs h
      cases gs with
      | nil => simp at h
      | cons g gs =>
        simp only [List.map_cons, List.cons.injEq, Prod.mk.injEq] at h
        rw [ihf (fun f hf => ih f (List.mem_cons_of_mem _ hf)) h.2,
          show f = g from Prod.ext h.1.1 (ih f List.mem_cons_self h.1.2)]

/-! ### Traversals -/

section replace

variable {S S' : Type} {keep : S → Prop} {g : S → S'} {rule : TyVar → StateM S Ty}
  {rule' : TyVar → StateM S' Ty}

mutual

/-- **A traversal of a moved type** gives the moved result, if its rule does so for each variable. The states
correspond by `g`, as long as the first one satisfies a predicate. -/
theorem replaceVarsM_shift : (t : Ty) →
    (∀ v ∈ t.vars, ∀ s, keep s → keep (rule v s).2 ∧
      rule' (v.shift d) (g s) = ((rule v s).1.shift d, g (rule v s).2)) →
    ∀ s, keep s → keep (t.replaceVarsM rule s).2 ∧
      (t.shift d).replaceVarsM rule' (g s) =
        ((t.replaceVarsM rule s).1.shift d, g (t.replaceVarsM rule s).2)
  | .var v, h, s, hs => h v (by simp [vars]) s hs
  | .name n, _, s, hs => ⟨hs, rfl⟩
  | .array t, h, s, hs => by
    obtain ⟨hk, he⟩ := replaceVarsM_shift t h s hs
    refine ⟨hk, ?_⟩
    show (let r := replaceVarsM rule' (t.shift d) (g s); (Ty.array r.1, r.2)) = _
    rw [he]
    rfl
  | .tuple ts, h, s, hs => by
    obtain ⟨hk, he⟩ := replaceListM_shift ts h s hs
    refine ⟨hk, ?_⟩
    rw [shift_tuple]
    show (let r := replaceListM rule' (ts.map (shift d)) (g s); (Ty.tuple r.1, r.2)) = _
    rw [he]
    exact Prod.ext (shift_tuple _).symm rfl
  | .record fs, h, s, hs => by
    obtain ⟨hk, he⟩ := replaceFieldsM_shift fs h s hs
    refine ⟨hk, ?_⟩
    rw [shift_record]
    show (let r := replaceFieldsM rule' (fs.map fun f => (f.1, f.2.shift d)) (g s);
      (Ty.record r.1, r.2)) = _
    rw [he]
    exact Prod.ext (shift_record _).symm rfl
  | .fn ps r k, h, s, hs => by
    obtain ⟨hk, he⟩ := replaceListM_shift ps (fun v hv => h v (List.mem_append_left _ hv)) s hs
    obtain ⟨hk', he'⟩ := replaceVarsM_shift r (fun v hv => h v (List.mem_append_right _ hv)) _ hk
    refine ⟨hk', ?_⟩
    rw [shift_fn]
    show (let q := replaceListM rule' (ps.map (shift d)) (g s)
      let q' := replaceVarsM rule' (r.shift d) q.2
      (Ty.fn q.1 q'.1 k, q'.2)) = _
    rw [he]
    dsimp only
    rw [he']
    exact Prod.ext (shift_fn _ _ _).symm rfl
  | .union a b, h, s, hs => by
    obtain ⟨hk, he⟩ := replaceVarsM_shift a (fun v hv => h v (List.mem_append_left _ hv)) s hs
    obtain ⟨hk', he'⟩ := replaceVarsM_shift b (fun v hv => h v (List.mem_append_right _ hv)) _ hk
    refine ⟨hk', ?_⟩
    show (let q := replaceVarsM rule' (a.shift d) (g s)
      let q' := replaceVarsM rule' (b.shift d) q.2
      (Ty.union q.1 q'.1, q'.2)) = _
    rw [he]
    dsimp only
    rw [he']
    rfl
  | .binding n t, h, s, hs => by
    obtain ⟨hk, he⟩ := replaceVarsM_shift t h s hs
    refine ⟨hk, ?_⟩
    show (let r := replaceVarsM rule' (t.shift d) (g s); (Ty.binding n r.1, r.2)) = _
    rw [he]
    rfl

theorem replaceListM_shift : (ts : List Ty) →
    (∀ v ∈ varsList ts, ∀ s, keep s → keep (rule v s).2 ∧
      rule' (v.shift d) (g s) = ((rule v s).1.shift d, g (rule v s).2)) →
    ∀ s, keep s → keep (replaceListM rule ts s).2 ∧
      replaceListM rule' (ts.map (shift d)) (g s) =
        ((replaceListM rule ts s).1.map (shift d), g (replaceListM rule ts s).2)
  | [], _, s, hs => ⟨hs, rfl⟩
  | t :: ts, h, s, hs => by
    obtain ⟨hk, he⟩ := replaceVarsM_shift t (fun v hv => h v (List.mem_append_left _ hv)) s hs
    obtain ⟨hk', he'⟩ := replaceListM_shift ts (fun v hv => h v (List.mem_append_right _ hv)) _ hk
    refine ⟨hk', ?_⟩
    show (let q := replaceVarsM rule' (t.shift d) (g s)
      let q' := replaceListM rule' (ts.map (shift d)) q.2
      (q.1 :: q'.1, q'.2)) = _
    rw [he]
    dsimp only
    rw [he']
    rfl

theorem replaceFieldsM_shift : (fs : List (String × Ty)) →
    (∀ v ∈ varsFields fs, ∀ s, keep s → keep (rule v s).2 ∧
      rule' (v.shift d) (g s) = ((rule v s).1.shift d, g (rule v s).2)) →
    ∀ s, keep s → keep (replaceFieldsM rule fs s).2 ∧
      replaceFieldsM rule' (fs.map fun f => (f.1, f.2.shift d)) (g s) =
        ((replaceFieldsM rule fs s).1.map fun f => (f.1, f.2.shift d), g (replaceFieldsM rule fs s).2)
  | [], _, s, hs => ⟨hs, rfl⟩
  | (n, t) :: fs, h, s, hs => by
    obtain ⟨hk, he⟩ := replaceVarsM_shift t (fun v hv => h v (List.mem_append_left _ hv)) s hs
    obtain ⟨hk', he'⟩ := replaceFieldsM_shift fs (fun v hv => h v (List.mem_append_right _ hv)) _ hk
    refine ⟨hk', ?_⟩
    show (let q := replaceVarsM rule' (t.shift d) (g s)
      let q' := replaceFieldsM rule' (fs.map fun f => (f.1, f.2.shift d)) q.2
      ((n, q.1) :: q'.1, q'.2)) = _
    rw [he]
    dsimp only
    rw [he']
    rfl

end

end replace

end Ty

/-! ## Moved tables -/

/-- The entry with its level moved up by `k` and the variables of its binding by `d`. -/
def VarEntry.shift (d k : Nat) (e : VarEntry) : VarEntry :=
  ⟨e.level + k, e.binding.map (Ty.shift d), e.generalized⟩

/-- The change with its variable and the variables of its type moved up by `d`, and its level by `k`. -/
def Undo.shift (d k : Nat) : Undo → Undo
  | .binding id previous => .binding (id + d) (previous.map (Ty.shift d))
  | .level id previous => .level (id + d) (previous + k)

namespace Table

/-- The variables of a table behind those of older entries, at levels that are higher by `k`. -/
def behind (P : Array VarEntry) (k : Nat) (T : Table) : Table :=
  ⟨P ++ T.entries.map (VarEntry.shift P.size k), T.trail.map (Undo.shift P.size k), T.snapshots⟩

variable {P : Array VarEntry} {k : Nat} {T : Table}

@[simp] theorem snapshots_behind : (T.behind P k).snapshots = T.snapshots := rfl

@[simp] theorem size_trail_behind : (T.behind P k).trail.size = T.trail.size := Array.size_map

@[simp] theorem size_behind : (T.behind P k).size = P.size + T.size := by
  simp [behind, size]

theorem getElem?_behind (id : Nat) :
    (T.behind P k).entries[id + P.size]? = T.entries[id]?.map (VarEntry.shift P.size k) := by
  simp [behind, Array.getElem?_append]

@[simp] theorem binding?_behind (id : Nat) :
    (T.behind P k).binding? (id + P.size) = (T.binding? id).map (Ty.shift P.size) := by
  rw [binding?, getElem?_behind, binding?]
  cases T.entries[id]? <;> rfl

@[simp] theorem isBound_behind (id : Nat) : (T.behind P k).isBound (id + P.size) = T.isBound id := by
  rw [isBound, isBound, binding?_behind, Option.isSome_map]

@[simp] theorem isGeneralized_behind (id : Nat) :
    (T.behind P k).isGeneralized (id + P.size) = T.isGeneralized id := by
  rw [isGeneralized, getElem?_behind, isGeneralized]
  cases T.entries[id]? <;> rfl

theorem level_behind {id : Nat} (h : id < T.size) :
    (T.behind P k).level (id + P.size) = T.level id + k := by
  rw [level, getElem?_behind, level, Array.getElem?_eq_getElem h]
  rfl

/-- A level is above a moved one exactly if it was before. -/
theorem lt_level_behind (id level : Nat) :
    level + k < (T.behind P k).level (id + P.size) ↔ level < T.level id := by
  by_cases h : id < T.size
  · rw [level_behind h, Nat.add_lt_add_iff_right]
  · have hnone : T.entries[id]? = none := Array.getElem?_eq_none (Nat.le_of_not_lt h)
    rw [Table.level, getElem?_behind, Table.level, hnone]
    exact ⟨fun h => absurd h (Nat.not_lt_zero _), fun h => absurd h (Nat.not_lt_zero _)⟩

@[simp] theorem binds_behind (t : Ty) : (T.behind P k).binds (t.shift P.size) = T.binds t := by
  cases t with
  | var v => exact isBound_behind v.id
  | _ => rfl

/-! ### Changes -/

/-- A change of one entry that does not depend on where it is. -/
theorem modify_behind (id : Nat) (f f' : VarEntry → VarEntry)
    (hf : ∀ e, f' (e.shift P.size k) = (f e).shift P.size k) :
    { T.behind P k with entries := (T.behind P k).entries.modify (id + P.size) f' } =
      ({ T with entries := T.entries.modify id f } : Table).behind P k := by
  simp only [behind, Table.mk.injEq, and_true]
  refine Array.ext_getElem? fun i => ?_
  simp only [Array.getElem?_modify, Array.getElem?_append, Array.getElem?_map]
  by_cases hi : i < P.size
  · rw [if_pos hi, if_pos hi, if_neg (by omega)]
  · rw [if_neg hi, if_neg hi]
    by_cases heq : id = i - P.size
    · rw [if_pos (by omega), if_pos heq]
      cases T.entries[i - P.size]? <;> simp [hf]
    · rw [if_neg (by omega), if_neg heq]

theorem newVar_behind (name : String) (inferred rigid : Bool) (level : Nat) :
    (T.behind P k).newVar name inferred rigid (level + k) =
      ((T.newVar name inferred rigid level).1.shift P.size,
        (T.newVar name inferred rigid level).2.behind P k) := by
  simp [newVar, behind, TyVar.shift, VarEntry.shift, size, Nat.add_comm]

theorem generalize_behind (id : Nat) :
    (T.behind P k).generalize (id + P.size) = (T.generalize id).behind P k :=
  modify_behind id (fun e => { e with generalized := true }) _ fun _ => rfl

theorem note_behind (u : Undo) : (T.behind P k).note (u.shift P.size k) = (T.note u).behind P k := by
  rw [note, note, snapshots_behind]
  split
  · simp [behind]
  · rfl

theorem setBinding_behind (id : Nat) (t : Ty) :
    (T.behind P k).setBinding (id + P.size) (t.shift P.size) = (T.setBinding id t).behind P k := by
  unfold setBinding
  by_cases h : id < T.size
  · have hnote : (T.behind P k).note (.binding (id + P.size) ((T.behind P k).binding? (id + P.size))) =
        (T.note (.binding id (T.binding? id))).behind P k := by
      rw [binding?_behind]
      exact note_behind (.binding id (T.binding? id))
    rw [if_pos h, if_pos (by rw [size_behind]; omega), hnote]
    exact modify_behind id (fun e => { e with binding := some t }) _ fun _ => rfl
  · rw [if_neg h, if_neg (by rw [size_behind]; omega)]

theorem setLevel_behind (id level : Nat) :
    (T.behind P k).setLevel (id + P.size) (level + k) = (T.setLevel id level).behind P k := by
  unfold setLevel
  by_cases h : id < T.size
  · have hnote : (T.behind P k).note (.level (id + P.size) ((T.behind P k).level (id + P.size))) =
        (T.note (.level id (T.level id))).behind P k := by
      rw [level_behind h]
      exact note_behind (.level id (T.level id))
    rw [if_pos h, if_pos (by rw [size_behind]; omega), hnote]
    exact modify_behind id (fun e => { e with level := level }) _ fun _ => rfl
  · rw [if_neg h, if_neg (by rw [size_behind]; omega)]

/-! ### Snapshots -/

theorem snapshot_behind : (T.behind P k).snapshot = (T.snapshot.1, T.snapshot.2.behind P k) := by
  simp [snapshot, behind]

theorem undo_behind (u : Undo) : (T.behind P k).undo (u.shift P.size k) = (T.undo u).behind P k := by
  cases u with
  | binding id previous =>
    exact modify_behind id (fun e => { e with binding := previous }) _ fun _ => rfl
  | level id previous =>
    exact modify_behind id (fun e => { e with level := previous }) _ fun _ => rfl

theorem undoLast_behind (n : Nat) : (T.behind P k).undoLast n = (T.undoLast n).behind P k := by
  induction n generalizing T with
  | zero => rfl
  | succ n ih =>
    have hback : (T.behind P k).trail.back? = T.trail.back?.map (Undo.shift P.size k) := by
      simp [behind, Array.back?_map]
    have hpop : { T.behind P k with trail := (T.behind P k).trail.pop } =
        ({ T with trail := T.trail.pop } : Table).behind P k := by
      simp [behind]
    rw [undoLast, undoLast, hback, hpop]
    cases T.trail.back? with
    | none => rfl
    | some u =>
      simp only [Option.map_some]
      rw [undo_behind, ih]

theorem close_behind : (T.behind P k).close = T.close.behind P k := by
  rw [close, close, snapshots_behind]
  split
  · simp [behind]
  · rfl

theorem commit_behind : (T.behind P k).commit = T.commit.behind P k := close_behind

theorem rollback_behind (s : Snapshot) : (T.behind P k).rollback s = (T.rollback s).behind P k := by
  rw [rollback, size_trail_behind, undoLast_behind, close_behind, rollback]

end Table

end Reified
