import Reified.Proofs.Table.Changes

/-!
# Rolling back

Under an open snapshot every write to a table is noted: the bindings that a unification makes, the
levels that an occurs check lowers, the shortcuts of a search. New variables are not noted, and nothing
noted before them is about them, so walking back passes them by. Hence what was done since a snapshot,
snapshots within it included, is undone up to the variables created since. These are left as they were
created.

Nothing is asked of the table or of the types. In particular there may be cycles among the bindings,
and types may have variables that the table does not know.

## Main definitions

* `Table.grow` — a table with further unbound variables
* `Table.Since` — walking back leads to another table, up to new variables
* `Table.Work` — operations one after another, snapshots within snapshots

## Main results

* `Table.since_resolve`, `Table.since_occurs`, `Table.since_unify`, … — the operations can be undone
* `Table.Work.since` — and so can one after another
* `Table.Work.rollback_snapshot` — a rollback undoes what happened since the snapshot
-/

namespace Reified

namespace Table

variable {T T' T₁ T₂ T₃ : Table} {ls ls' : List Nat}

/-! ## New variables -/

/-- The table with further variables, unbound, at the given levels. -/
def grow (T : Table) (levels : List Nat) : Table :=
  { T with entries := T.entries ++ (levels.map fun l => ⟨l, none, false⟩).toArray }

@[simp] theorem snapshots_grow (T : Table) (ls : List Nat) : (T.grow ls).snapshots = T.snapshots := rfl

@[simp] theorem trail_grow (T : Table) (ls : List Nat) : (T.grow ls).trail = T.trail := rfl

@[simp] theorem size_grow (T : Table) (ls : List Nat) : (T.grow ls).size = T.size + ls.length := by
  simp [grow, size]

@[simp] theorem grow_nil (T : Table) : T.grow [] = T := by
  simp [grow]

theorem grow_grow (T : Table) (ls ls' : List Nat) : (T.grow ls).grow ls' = T.grow (ls ++ ls') := by
  simp [grow]

theorem grow_newVar (T : Table) (name : String) (inferred rigid : Bool) (level : Nat)
    (ls : List Nat) : (T.newVar name inferred rigid level).2.grow ls = T.grow (level :: ls) := by
  simp [grow, newVar]

theorem getElem?_grow (T : Table) (ls : List Nat) (id : Nat) : (T.grow ls).entries[id]? =
    if id < T.size then T.entries[id]? else ls[id - T.size]?.map fun l => ⟨l, none, false⟩ := by
  simp only [grow, Array.getElem?_append, List.getElem?_toArray, List.getElem?_map]
  rfl

theorem binding?_grow (T : Table) (ls : List Nat) (id : Nat) :
    (T.grow ls).binding? id = T.binding? id := by
  by_cases hid : id < T.size
  · simp only [binding?, getElem?_grow, if_pos hid]
  · rw [binding?_of_size_le (T := T) (Nat.le_of_not_lt hid)]
    simp only [binding?, getElem?_grow, if_neg hid]
    cases ls[id - T.size]? <;> rfl

theorem level_grow_of_lt {id : Nat} (h : id < T.size) (ls : List Nat) :
    (T.grow ls).level id = T.level id := by
  simp only [level, getElem?_grow, if_pos h]

theorem level_grow_add (T : Table) (ls : List Nat) {k : Nat} (h : k < ls.length) :
    (T.grow ls).level (T.size + k) = ls[k] := by
  simp [level, getElem?_grow, h]

theorem note_grow (T : Table) (u : Undo) (ls : List Nat) : (T.note u).grow ls = (T.grow ls).note u := by
  unfold note
  rw [snapshots_grow]
  split <;> rfl

theorem modify_grow {id : Nat} (h : id < T.size) (f : VarEntry → VarEntry) (ls : List Nat) :
    ({ T with entries := T.entries.modify id f } : Table).grow ls =
      { T.grow ls with entries := (T.grow ls).entries.modify id f } := by
  have hlt : id < T.entries.size := h
  simp only [grow, mk.injEq, and_true]
  refine Array.ext_getElem? fun i => ?_
  simp only [Array.getElem?_append, Array.getElem?_modify, Array.size_modify]
  by_cases hi : id = i
  · subst hi
    simp [hlt]
  · simp [hi]

theorem setBinding_grow {id : Nat} (h : id < T.size) (t : Ty) (ls : List Nat) :
    (T.setBinding id t).grow ls = (T.grow ls).setBinding id t := by
  have hlt : id < (T.grow ls).size := by simp; omega
  have hnote : id < (T.note (.binding id (T.binding? id))).size := by simpa
  simp only [setBinding, if_pos h, if_pos hlt, binding?_grow]
  rw [modify_grow hnote, note_grow]

theorem setLevel_grow {id : Nat} (h : id < T.size) (level : Nat) (ls : List Nat) :
    (T.setLevel id level).grow ls = (T.grow ls).setLevel id level := by
  have hlt : id < (T.grow ls).size := by simp; omega
  have hnote : id < (T.note (.level id (T.level id))).size := by simpa
  simp only [setLevel, if_pos h, if_pos hlt, level_grow_of_lt h]
  rw [modify_grow hnote, note_grow]

/-- Closing a snapshot under which nothing but new variables happened. -/
theorem close_snapshot_grow (T : Table) (ls : List Nat) : (T.snapshot.2.grow ls).close =
    { T.grow ls with trail := if T.snapshots = 0 then #[] else T.trail } := by
  have hopen : (T.snapshot.2.grow ls).snapshots = T.snapshots + 1 := rfl
  unfold close
  by_cases hzero : T.snapshots = 0
  · rw [if_pos (by omega), if_pos hzero, ← hzero]
    rfl
  · rw [if_neg (by omega), if_neg hzero]
    rfl

/-! ## Walking back to a table -/

/-- As many snapshots are open in both tables, and what the second one has more on its trail leads back
to the first one with new variables at the given levels. Further variables make no difference, so that
one can walk back past them. -/
structure Since (T : Table) (levels : List Nat) (T' : Table) : Prop where
  snapshots : T'.snapshots = T.snapshots
  back : ∃ n, T'.trail.size = T.trail.size + n ∧
    ∀ more, (T'.grow more).undoLast n = T.grow (levels ++ more)

namespace Since

/-- New variables are not noted. -/
theorem grow (T : Table) (ls : List Nat) : T.Since ls (T.grow ls) :=
  ⟨rfl, 0, rfl, grow_grow T ls⟩

theorem refl (T : Table) : T.Since [] T :=
  ⟨rfl, 0, rfl, fun _ => rfl⟩

theorem trans (h : T₁.Since ls T₂) (h' : T₂.Since ls' T₃) : T₁.Since (ls ++ ls') T₃ := by
  obtain ⟨m, hm, hback⟩ := h.back
  obtain ⟨n, hn, hback'⟩ := h'.back
  refine ⟨h'.snapshots.trans h.snapshots, n + m, by omega, fun more => ?_⟩
  rw [← undoLast_add, hback', hback, List.append_assoc]

theorem newVar (T : Table) (name : String) (inferred rigid : Bool) (level : Nat) :
    T.Since [level] (T.newVar name inferred rigid level).2 :=
  ⟨rfl, 0, rfl, grow_newVar T name inferred rigid level⟩

theorem setBinding (hs : 0 < T.snapshots) (id : Nat) (t : Ty) : T.Since [] (T.setBinding id t) := by
  by_cases hid : id < T.size
  · refine ⟨snapshots_setBinding id t, 1, by simp [Table.setBinding, hid, note, hs], fun more => ?_⟩
    have hlt : id < (T.grow more).size := by simp; omega
    rw [setBinding_grow hid, undoLast_setBinding hlt hs t 0]
    rfl
  · rw [Table.setBinding, if_neg hid]
    exact .refl T

theorem setLevel (hs : 0 < T.snapshots) (id level : Nat) : T.Since [] (T.setLevel id level) := by
  by_cases hid : id < T.size
  · refine ⟨snapshots_setLevel id level, 1, by simp [Table.setLevel, hid, note, hs], fun more => ?_⟩
    have hlt : id < (T.grow more).size := by simp; omega
    rw [setLevel_grow hid, undoLast_setLevel hlt hs level 0]
    rfl
  · rw [Table.setLevel, if_neg hid]
    exact .refl T

theorem walk (h : T.Since ls T') :
    ∃ n, T'.trail.size = T.trail.size + n ∧ T'.undoLast n = T.grow ls := by
  obtain ⟨n, hn, hback⟩ := h.back
  have hwalk := hback []
  rw [grow_nil, List.append_nil] at hwalk
  exact ⟨n, hn, hwalk⟩

theorem size (h : T.Since ls T') : T'.size = T.size + ls.length := by
  obtain ⟨n, -, hwalk⟩ := h.walk
  rw [← size_undoLast (T := T') n, hwalk, size_grow]

/-- A rollback leads back to the table of the snapshot, with the variables created since. -/
theorem rollback_eq (h : T.snapshot.2.Since ls T') :
    T'.rollback T.snapshot.1 = (T.snapshot.2.grow ls).close := by
  obtain ⟨n, hn, hwalk⟩ := h.walk
  have hsize : T'.trail.size - T.snapshot.1.length = n := by
    rw [hn]
    exact Nat.add_sub_cancel_left _ _
  rw [rollback, hsize, hwalk]

/-- An inner snapshot is rolled back to where it was opened. -/
theorem rollback (hs : 0 < T.snapshots) (h : T.snapshot.2.Since ls T') :
    T.Since ls (T'.rollback T.snapshot.1) := by
  rw [h.rollback_eq, close_snapshot_grow, if_neg hs.ne']
  exact .grow T ls

/-- An inner snapshot that is committed leaves its notes to the one around it. -/
theorem commit (hs : 0 < T.snapshots) (h : T.snapshot.2.Since ls T') : T.Since ls T'.commit := by
  have hsnap : T'.snapshots = T.snapshots + 1 := h.snapshots
  obtain ⟨n, hn, hback⟩ := h.back
  have hcommit : T'.commit = { T' with snapshots := T.snapshots } := by
    rw [Table.commit, close, if_neg (by omega), hsnap]
    rfl
  rw [hcommit]
  refine ⟨rfl, n, hn, fun more => ?_⟩
  have hwalk := Restores.undoLast_snapshots (T'.grow more) T.snapshots n
  rw [hback more] at hwalk
  exact hwalk

end Since

/-! ## Resolution -/

theorem since_follow (hs : 0 < T.snapshots) (n : Nat) (t : Ty) : T.Since [] (follow n T t).2 := by
  induction n generalizing t with
  | zero => cases t <;> exact .refl T
  | succ n ih =>
    cases t with
    | var v =>
      rw [follow]
      cases T.binding? v.id with
      | none => exact .refl T
      | some s =>
        cases s with
        | var w =>
          have h := ih (.var w)
          dsimp only
          split
          · exact h
          · -- the shortcut is noted like any binding
            exact h.trans (.setBinding (h.snapshots ▸ hs) _ _)
        | _ => exact .refl T
    | _ => exact .refl T

theorem since_resolve (hs : 0 < T.snapshots) (t : Ty) : T.Since [] (T.resolve t).2 :=
  since_follow hs T.size t

/-- What a traversal does by looking up its variables, one after another, can be undone. -/
theorem since_replaceVarsM {rule : TyVar → StateM Table Ty} {n : Nat} {t : Ty}
    {f : Nat → Ty → StateM Table Ty} (hs : 0 < T.snapshots)
    (hf : ∀ u (S : Table), 0 < S.snapshots → S.Since [] (f n u S).2)
    (hrule : ∀ v S, (rule v S).2 = (S.resolve (.var v)).2 ∨
      (rule v S).2 = (f n (S.resolve (.var v)).1 (S.resolve (.var v)).2).2) :
    T.Since [] (t.replaceVarsM rule T).2 := by
  refine Ty.replaceVarsM_keeps t (fun v _ S hS => ?_) T (.refl T)
  have hS' := hS.snapshots ▸ hs
  have h := since_resolve hS' (.var v)
  rcases hrule v S with heq | heq <;> rw [heq]
  · exact hS.trans h
  · exact hS.trans (h.trans (hf _ _ (h.snapshots ▸ hS')))

theorem since_resolveDeep (hs : 0 < T.snapshots) (t : Ty) : T.Since [] (T.resolveDeep t).2 := by
  suffices key : ∀ n t (S : Table), 0 < S.snapshots → S.Since [] (deepen n t S).2 from key _ t T hs
  intro n
  induction n with
  | zero => exact fun _ S _ => .refl S
  | succ n ih =>
    refine fun t S hS => since_replaceVarsM (f := deepen) hS ih fun v S => ?_
    rw [resolveVar_bind]
    generalize S.resolve (.var v) = r
    obtain ⟨u, S'⟩ := r
    dsimp only
    split
    · exact .inl rfl
    · exact .inr rfl

theorem since_substitute (hs : 0 < T.snapshots) (t : Ty) (image : List (Nat × Ty)) :
    T.Since [] (T.substitute t image).2 := by
  suffices key : ∀ n t (S : Table), 0 < S.snapshots → S.Since [] (substituteWithin image n t S).2 from
    key _ t T hs
  intro n
  induction n with
  | zero => exact fun _ S _ => .refl S
  | succ n ih =>
    refine fun t S hS => since_replaceVarsM (f := substituteWithin image) hS ih fun v S => ?_
    rw [resolveVar_bind]
    generalize S.resolve (.var v) = r
    obtain ⟨u, S'⟩ := r
    dsimp only
    split
    · exact .inl rfl
    · exact .inr rfl

/-- An instantiation creates the copies that it answers with. -/
theorem since_instantiate (hs : 0 < T.snapshots) (t : Ty) (level : Nat) :
    T.Since (List.replicate (T.instantiate t level).2.1.length level) (T.instantiate t level).2.2 := by
  let Copied (S : Instance) : Prop := T.Since (List.replicate S.copies.length level) S.table
  suffices key : ∀ n t S, Copied S → Copied (instantiateWithin level n t S).2 by
    have h := key (T.size + 1) t ⟨T, []⟩ (.refl T)
    unfold instantiate
    generalize instantiateWithin level (T.size + 1) t ⟨T, []⟩ = r at h ⊢
    obtain ⟨u, T', copies⟩ := r
    simpa [Copied] using h
  intro n
  induction n with
  | zero => exact fun _ _ h => h
  | succ n ih =>
    intro t S hS
    rw [instantiateWithin]
    refine @Ty.replaceVarsM_keeps _ _ Copied t (fun v _ S hS => ?_) S hS
    have hopen : 0 < S.table.snapshots := hS.snapshots ▸ hs
    have h := hS.trans (since_resolve hopen (.var v))
    rw [List.append_nil] at h
    rw [Instance.resolveVar_bind]
    generalize S.table.resolve (.var v) = r at h ⊢
    obtain ⟨u, T'⟩ := r
    dsimp only
    split
    · next w =>
      rw [Instance.isGeneralized_bind]
      split
      · rw [Instance.copy]
        dsimp only
        split
        · exact h
        · -- one more copy, for a variable met for the first time
          have hcopy := h.trans (.newVar T' w.name w.inferred false level)
          rwa [← List.replicate_succ'] at hcopy
      · exact h
    · exact ih _ ⟨T', S.copies⟩ h

/-! ## Unification -/

theorem since_occurs (hs : 0 < T.snapshots) (id level : Nat) (t : Ty) :
    T.Since [] (T.occurs id level t).2 := by
  suffices key : ∀ n t (S : Table), 0 < S.snapshots → S.Since [] (occursWithin id level n t S).2 from
    key _ t T hs
  intro n
  induction n with
  | zero => exact fun _ S _ => .refl S
  | succ n ih =>
    intro t S hS
    rw [occursWithin]
    generalize t.vars = ws
    induction ws generalizing S with
    | nil => exact .refl S
    | cons v ws ihws =>
      have h := since_resolve hS (.var v)
      have hopen := h.snapshots ▸ hS
      rw [lowerUntil]
      generalize S.resolve (.var v) = r at h hopen ⊢
      obtain ⟨u, S'⟩ := r
      split
      · next w S' heq =>
        obtain ⟨rfl, rfl⟩ := Prod.mk.inj heq
        split
        · exact h
        · split
          · have hlow := h.trans (.setLevel hopen w.id level)
            exact hlow.trans (ihws _ (hlow.snapshots ▸ hS))
          · exact h.trans (ihws _ hopen)
      · next u S' _ heq =>
        obtain ⟨rfl, rfl⟩ := Prod.mk.inj heq
        have hin := h.trans (ih u S' hopen)
        split
        · next heq => rwa [heq] at hin
        · next heq =>
          rw [heq] at hin
          exact hin.trans (ihws _ (hin.snapshots ▸ hS))

theorem since_bind (hs : 0 < T.snapshots) (v : TyVar) (t : Ty) : T.Since [] (T.bind v t).table := by
  have h := since_occurs hs v.id (T.level v.id) t
  have hopen := h.snapshots ▸ hs
  unfold bind
  generalize T.occurs v.id (T.level v.id) t = r at h hopen ⊢
  obtain ⟨b, S⟩ := r
  cases b with
  | true => exact h.trans (since_resolveDeep hopen t)
  | false => exact h.trans (.setBinding hopen v.id t)

theorem since_mismatch (hs : 0 < T.snapshots) (a b : Ty) : T.Since [] (T.mismatch a b).table :=
  have h := since_resolveDeep hs a
  h.trans (since_resolveDeep (h.snapshots ▸ hs) b)

theorem stable_since :
    Stable (fun T => 0 < T.snapshots) (fun T T' => T.Since [] T') (fun _ => True)
      fun _ _ => True where
  part _ _ := trivial
  keeps hs h := h.snapshots ▸ hs
  refl _ := .refl _
  trans h h' := h.trans h'
  snapshot _ := Nat.succ_pos _
  rollback hs h := h.rollback hs
  commit hs h := h.commit hs
  unbound _ := trivial
  resolve hs _ := ⟨trivial, since_resolve hs _⟩
  resolve_final _ _ _ := ⟨trivial, trivial⟩
  mismatch hs _ _ := since_mismatch hs _ _
  missingField _ hs _ := since_resolveDeep hs _
  bind hs _ _ _ _ := since_bind hs _ _

/-- **What a unification does can be undone**, whether it succeeds or not. -/
theorem since_unify (hs : 0 < T.snapshots) (a b : Ty) : T.Since [] (T.unify a b).table :=
  stable_since.unify hs trivial trivial

/-! ## One operation after another -/

/-- Operations on a table, one after another. Some of them may be under a snapshot of their own, which
is committed or rolled back after them. -/
inductive Work where
  | done
  | newVar (name : String) (inferred rigid : Bool) (level : Nat) (rest : Work)
  | unify (expected found : Ty) (rest : Work)
  | resolve (t : Ty) (rest : Work)
  | resolveDeep (t : Ty) (rest : Work)
  | instantiate (t : Ty) (level : Nat) (rest : Work)
  | substitute (t : Ty) (image : List (Nat × Ty)) (rest : Work)
  | committed (inner rest : Work)
  | rolledBack (inner rest : Work)

namespace Work

/-- The table after the operations. -/
def run : Work → Table → Table
  | done, T => T
  | newVar name inferred rigid level rest, T => rest.run (T.newVar name inferred rigid level).2
  | unify expected found rest, T => rest.run (T.unify expected found).table
  | resolve t rest, T => rest.run (T.resolve t).2
  | resolveDeep t rest, T => rest.run (T.resolveDeep t).2
  | instantiate t level rest, T => rest.run (T.instantiate t level).2.2
  | substitute t image rest, T => rest.run (T.substitute t image).2
  | committed inner rest, T => rest.run (inner.run T.snapshot.2).commit
  | rolledBack inner rest, T => rest.run ((inner.run T.snapshot.2).rollback T.snapshot.1)

/-- The levels at which the operations create variables, in the order of their creation. -/
def levels : Work → Table → List Nat
  | done, _ => []
  | newVar name inferred rigid level rest, T =>
    level :: rest.levels (T.newVar name inferred rigid level).2
  | unify expected found rest, T => rest.levels (T.unify expected found).table
  | resolve t rest, T => rest.levels (T.resolve t).2
  | resolveDeep t rest, T => rest.levels (T.resolveDeep t).2
  | instantiate t level rest, T =>
    List.replicate (T.instantiate t level).2.1.length level ++ rest.levels (T.instantiate t level).2.2
  | substitute t image rest, T => rest.levels (T.substitute t image).2
  | committed inner rest, T =>
    inner.levels T.snapshot.2 ++ rest.levels (inner.run T.snapshot.2).commit
  | rolledBack inner rest, T =>
    inner.levels T.snapshot.2 ++ rest.levels ((inner.run T.snapshot.2).rollback T.snapshot.1)

/-- **What is done under an open snapshot can be undone**, up to the variables created. -/
theorem since (w : Work) (hs : 0 < T.snapshots) : T.Since (w.levels T) (w.run T) := by
  -- one operation, and the rest from the table that it leaves
  have next : ∀ {rest : Work} {T S : Table} {ls}, 0 < T.snapshots → T.Since ls S →
      (∀ {T : Table}, 0 < T.snapshots → T.Since (rest.levels T) (rest.run T)) →
      T.Since (ls ++ rest.levels S) (rest.run S) := fun hs h hrest =>
    h.trans (hrest (h.snapshots ▸ hs))
  induction w generalizing T with
  | done => exact .refl T
  | newVar name inferred rigid level rest ih => exact next hs (.newVar T name inferred rigid level) ih
  | unify a b rest ih => exact next hs (since_unify hs a b) ih
  | resolve t rest ih => exact next hs (since_resolve hs t) ih
  | resolveDeep t rest ih => exact next hs (since_resolveDeep hs t) ih
  | instantiate t level rest ih => exact next hs (since_instantiate hs t level) ih
  | substitute t image rest ih => exact next hs (since_substitute hs t image) ih
  | committed inner rest ihinner ih =>
    exact next hs ((ihinner (T := T.snapshot.2) (Nat.succ_pos _)).commit hs) ih
  | rolledBack inner rest ihinner ih =>
    exact next hs ((ihinner (T := T.snapshot.2) (Nat.succ_pos _)).rollback hs) ih

/-- The table after the operations under a snapshot, when it has been rolled back. -/
def undone (w : Work) (T : Table) : Table :=
  (w.run T.snapshot.2).rollback T.snapshot.1

theorem undone_eq (w : Work) (T : Table) : w.undone T =
    { T.grow (w.levels T.snapshot.2) with trail := if T.snapshots = 0 then #[] else T.trail } := by
  rw [undone, (w.since (T := T.snapshot.2) (Nat.succ_pos _)).rollback_eq, close_snapshot_grow]

/-- **A rollback undoes what happened since the snapshot.** The variables of the snapshot have the
bindings and levels that they had then, those created since are unbound at the level of their creation,
as many snapshots are open as before, and nothing is left to undo if none is. -/
theorem rollback_snapshot (w : Work) (T : Table) :
    (∀ id < T.size, (w.undone T).binding? id = T.binding? id ∧ (w.undone T).level id = T.level id) ∧
    (w.undone T).size = (w.run T.snapshot.2).size ∧
    (w.run T.snapshot.2).size = T.size + (w.levels T.snapshot.2).length ∧
    (∀ k, (h : k < (w.levels T.snapshot.2).length) → (w.undone T).binding? (T.size + k) = none ∧
      (w.undone T).level (T.size + k) = (w.levels T.snapshot.2)[k]) ∧
    (w.undone T).snapshots = T.snapshots ∧
    (w.undone T).trail = if T.snapshots = 0 then #[] else T.trail := by
  have hsize := (w.since (T := T.snapshot.2) (Nat.succ_pos _)).size
  rw [undone_eq]
  refine ⟨fun id hid => ⟨binding?_grow T _ id, level_grow_of_lt hid _⟩, ?_, hsize, fun k hk => ?_,
    rfl, rfl⟩
  · exact (size_grow T _).trans hsize.symm
  · have hnew : T.binding? (T.size + k) = none := binding?_of_size_le (Nat.le_add_right _ _)
    exact ⟨(binding?_grow T _ _).trans hnew, level_grow_add T _ hk⟩

end Work

end Table

end Reified
