import Reified.Proofs.Table.Deep

/-!
# The invariant of tables

A list of variables, each written the one way it was created, accompanies a table. The table knows
exactly these; what it binds them to is written over them, no rigid one is bound, and there is no
cycle. Since a rollback may go back to any position of the trail, the same is asked of every table
that one gets by walking back.

## Main definitions

* `Table.Sound` — what is asked of the bindings
* `Table.Inv` — the invariant
* `Table.Agrees` — a table with the invariant that says the same as another

## Main results

* `Table.Inv.setBinding`, `Table.Inv.setLevel`, `Table.Inv.newVar`, `Table.Inv.generalize` — changes
* `Table.Inv.snapshot`, `Table.Inv.rollback`, `Table.Inv.commit` — snapshots
-/

namespace Reified

namespace Table

variable {vs : List TyVar} {T T' : Table}

/-- What is asked of the bindings of a table over the given variables. -/
structure Sound (vs : List TyVar) (T : Table) : Prop where
  written : ∀ id t, T.binding? id = some t → t.Over vs
  rigid : ∀ v ∈ vs, v.rigid = true → T.binding? v.id = none
  acyclic : T.Acyclic

/-- The invariant of a table that was built over the given variables. -/
structure Inv (vs : List TyVar) (T : Table) : Prop where
  size : T.size = vs.length
  id : ∀ i (h : i < vs.length), (vs[i]).id = i
  /-- Nothing is on the trail unless a snapshot is open. -/
  quiet : T.snapshots = 0 → T.trail = #[]
  trail : ∀ u ∈ T.trail, u.id < T.size
  sound : ∀ n, (T.undoLast n).Sound vs

theorem Sound.congr (h : T.Sound vs) (hb : ∀ id, T'.binding? id = T.binding? id) :
    T'.Sound vs where
  written id t ht := h.written id t (hb id ▸ ht)
  rigid v hv hr := (hb v.id).trans (h.rigid v hv hr)
  acyclic := h.acyclic.imp fun _ hr v t ht => hr v t (hb v ▸ ht)

namespace Inv

theorem now (h : T.Inv vs) : T.Sound vs := h.sound 0

theorem acyclic (h : T.Inv vs) : T.Acyclic := h.now.acyclic

theorem lt_size (h : T.Inv vs) {v : TyVar} (hv : v ∈ vs) : v.id < T.size := by
  obtain ⟨i, hi, rfl⟩ := List.mem_iff_getElem.mp hv
  rw [h.id i hi, h.size]
  exact hi

/-- A variable is known by its number. -/
theorem eq_of_id (h : T.Inv vs) {v w : TyVar} (hv : v ∈ vs) (hw : w ∈ vs) (hid : v.id = w.id) :
    v = w := by
  obtain ⟨i, hi, rfl⟩ := List.mem_iff_getElem.mp hv
  obtain ⟨j, hj, rfl⟩ := List.mem_iff_getElem.mp hw
  rw [h.id i hi, h.id j hj] at hid
  subst hid
  rfl

/-- Deep types are over the same variables. -/
theorem over_deep (h : T.Inv vs) {t : Ty} (ht : t.Over vs) : (T.deep t).Over vs := by
  obtain ⟨rank, hr⟩ := h.acyclic.exists_ranks
  suffices key : ∀ n t, t.Over vs → (∀ x ∈ t.vars, rank x.id < n) → (T.deep t).Over vs from
    key (T.size + 1) t ht fun x _ => Nat.lt_succ_of_le (hr.le_size _)
  intro n
  induction n with
  | zero =>
    intro t ht hn
    rw [deep_eq_subst, Ty.subst_congr (τ := .var) fun x hx => absurd (hn x hx) (Nat.not_lt_zero _),
      Ty.subst_var]
    exact ht
  | succ n ih =>
    intro t ht hn
    rw [deep_eq_subst]
    refine ht.subst fun x hx => ?_
    cases hb : T.binding? x.id with
    | none =>
      rw [deep_var_of_unbound hb]
      exact .var (ht.vars x hx)
    | some s =>
      rw [deep_var_of_binding h.acyclic hb]
      refine ih s (h.now.written _ s hb) fun y hy => ?_
      have h1 := hr.lt _ _ hb y hy
      have h2 := hn x hx
      omega

/-! ## Changes of one entry -/

/-- Changes of marks, levels of generalization and open snapshots do not matter. -/
theorem congr (h : T.Inv vs) (hs : T'.size = T.size) (ht : T'.trail = T.trail)
    (hq : T'.snapshots = 0 → T'.trail = #[]) (hb : ∀ id, T'.binding? id = T.binding? id) :
    T'.Inv vs where
  size := hs.trans h.size
  id := h.id
  quiet := hq
  trail u hu := hs ▸ h.trail u (ht ▸ hu)
  sound n := (h.sound n).congr (binding?_undoLast_congr ht h.trail hs.ge hb n)

theorem setBinding (h : T.Inv vs) {id : Nat} {t : Ty} (hid : id < T.size)
    (hS : (T.setBinding id t).Sound vs) : (T.setBinding id t).Inv vs := by
  refine ⟨by simpa using h.size, h.id, fun hq => ?_, fun u hu => ?_, fun n => ?_⟩
  · rw [snapshots_setBinding] at hq
    simp [Table.setBinding, hid, note, hq, h.quiet hq]
  · rw [size_setBinding]
    by_cases hs : 0 < T.snapshots
    · simp only [Table.setBinding, if_pos hid, note, if_pos hs, Array.mem_push] at hu
      rcases hu with hu | rfl
      · exact h.trail u hu
      · exact hid
    · simp only [Table.setBinding, if_pos hid, note, if_neg hs] at hu
      exact h.trail u hu
  · cases n with
    | zero => exact hS
    | succ n =>
      by_cases hs : 0 < T.snapshots
      · rw [undoLast_setBinding hid hs]
        exact h.sound n
      · have hq := Nat.eq_zero_of_not_pos hs
        rw [undoLast_of_empty (by simp [Table.setBinding, hid, note, hq, h.quiet hq])]
        exact hS

theorem setLevel (h : T.Inv vs) {id : Nat} (hid : id < T.size) (level : Nat) :
    (T.setLevel id level).Inv vs := by
  have hS : (T.setLevel id level).Sound vs := h.now.congr (binding?_setLevel id level)
  refine ⟨by simpa using h.size, h.id, fun hq => ?_, fun u hu => ?_, fun n => ?_⟩
  · rw [snapshots_setLevel] at hq
    simp [Table.setLevel, hid, note, hq, h.quiet hq]
  · rw [size_setLevel]
    by_cases hs : 0 < T.snapshots
    · simp only [Table.setLevel, if_pos hid, note, if_pos hs, Array.mem_push] at hu
      rcases hu with hu | rfl
      · exact h.trail u hu
      · exact hid
    · simp only [Table.setLevel, if_pos hid, note, if_neg hs] at hu
      exact h.trail u hu
  · cases n with
    | zero => exact hS
    | succ n =>
      by_cases hs : 0 < T.snapshots
      · rw [undoLast_setLevel hid hs]
        exact h.sound n
      · have hq := Nat.eq_zero_of_not_pos hs
        rw [undoLast_of_empty (by simp [Table.setLevel, hid, note, hq, h.quiet hq])]
        exact hS

theorem generalize (h : T.Inv vs) (id : Nat) : (T.generalize id).Inv vs :=
  h.congr (size_generalize id) rfl h.quiet (binding?_generalize id)

theorem newVar (h : T.Inv vs) (name : String) (inferred rigid : Bool) (level : Nat) :
    (T.newVar name inferred rigid level).2.Inv
      (vs ++ [(T.newVar name inferred rigid level).1]) := by
  have hold : ∀ v ∈ vs, v ∈ vs ++ [(T.newVar name inferred rigid level).1] := fun v hv =>
    List.mem_append_left _ hv
  have hb : ∀ n id, ((T.newVar name inferred rigid level).2.undoLast n).binding? id =
      (T.undoLast n).binding? id :=
    binding?_undoLast_congr rfl h.trail (by simp) (binding?_newVar name inferred rigid level)
  refine ⟨by simp [h.size], fun i hi => ?_, h.quiet, fun u hu => ?_, fun n => ⟨?_, ?_, ?_⟩⟩
  · by_cases hlt : i < vs.length
    · rw [List.getElem_append_left hlt]
      exact h.id i hlt
    · have hi' : i = vs.length := by simp at hi; omega
      subst hi'
      simp [Table.newVar, h.size]
  · rw [size_newVar]
    exact Nat.lt_succ_of_lt (h.trail u hu)
  · intro id t ht
    exact ((h.sound n).written id t (hb n id ▸ ht)).mono hold
  · intro v hv hr
    rw [hb]
    rcases List.mem_append.mp hv with hv | hv
    · exact (h.sound n).rigid v hv hr
    · rw [List.mem_singleton] at hv
      subst hv
      exact binding?_of_size_le (by simp [Table.newVar])
  · exact (h.sound n).acyclic.imp fun rank hrank v t ht => hrank v t (hb n v ▸ ht)

/-! ## Snapshots -/

theorem snapshot (h : T.Inv vs) : T.snapshot.2.Inv vs :=
  h.congr rfl rfl (fun hq => absurd hq (Nat.succ_ne_zero _)) fun _ => rfl

theorem undoLast (h : T.Inv vs) (n : Nat) : (T.undoLast n).Inv vs where
  size := (size_undoLast n).trans h.size
  id := h.id
  quiet hq := by
    rw [snapshots_undoLast] at hq
    rw [undoLast_of_empty (h.quiet hq)]
    exact h.quiet hq
  trail u hu := by
    rw [size_undoLast]
    exact h.trail u (mem_trail_of_undoLast hu)
  sound k := by
    rw [undoLast_add]
    exact h.sound (n + k)

theorem close (h : T.Inv vs) : T.close.Inv vs := by
  unfold Table.close
  split
  · refine ⟨h.size, h.id, fun _ => rfl, fun u hu => by simp at hu, fun n => ?_⟩
    rw [undoLast_of_empty rfl]
    exact h.now.congr fun _ => rfl
  · refine h.congr rfl rfl (fun hq => ?_) fun _ => rfl
    simp only at hq
    omega

theorem rollback (h : T.Inv vs) (s : Snapshot) : (T.rollback s).Inv vs :=
  (h.undoLast _).close

theorem commit (h : T.Inv vs) : T.commit.Inv vs := h.close

end Inv

/-! ## Agreement -/

/-- A table with the invariant that says the same as another. -/
structure Agrees (vs : List TyVar) (T T' : Table) : Prop where
  inv : T'.Inv vs
  same : T.Same T'

namespace Agrees

theorem refl (h : T.Inv vs) : T.Agrees vs T := ⟨h, .refl T⟩

theorem trans {T₁ T₂ T₃ : Table} (h : T₁.Agrees vs T₂) (h' : T₂.Agrees vs T₃) : T₁.Agrees vs T₃ :=
  ⟨h'.inv, h.same.trans h'.same⟩

theorem setLevel (h : T.Inv vs) {id : Nat} (hid : id < T.size) (level : Nat) :
    T.Agrees vs (T.setLevel id level) :=
  ⟨h.setLevel hid level,
    same_of_binding?_eq h.acyclic (size_setLevel id level) (binding?_setLevel id level)⟩

end Agrees

end Table

end Reified
