import Mathlib
import Reified.Proofs.Frames.Placed

/-!
# Variables that escape from a frame

A variable is created at the depth of the frames that are open. That its level is the least depth at which
a variable was created that stands for something in which it remains, is an invariant of all bindings and
levels together: it cannot be said of one change at a time, since the occurs check lowers levels before the
binding is made. A unification that succeeds keeps it.

So closing a frame, which looks at levels only, generalizes what cannot be reached from outside, and as
each variable waits for some frame that is not further out than its level, none is lost.

Snapshots may be opened and gone back to in between. For each open one the invariant is asked of the table
that going back leads to, together with the frames as they are now.

## Main definitions

* `Table.Leveled` — the level of a variable is the least depth from which it can be reached
* `Table.Opened` — a property of the table and of all that open snapshots lead back to
* `Frames.Fits` — the invariant of frames and table
* `Frames.Run` — runs of the operations

## Main results

* `Frames.Fits.unify`, `Frames.Fits.pop`, … — each operation keeps the invariant
* `Frames.Run.opened` — every run has it
* `Frames.Run.generalizes_unescaped` — closing a frame generalizes what did not escape
-/

namespace Reified

namespace Table

variable {born : List Nat} {T T' : Table}

/-! ## Levels are depths -/

/-- The level of an unbound variable is the least depth at which a variable was created that stands for
something in which it remains. The depths are listed in the order of the numbers of the variables. -/
structure Leveled (born : List Nat) (T : Table) : Prop where
  le : ∀ (v : TyVar) d w, born[v.id]? = some d → T.Reaches (.var v) w → T.level w ≤ d
  attained : ∀ w < T.size, T.binding? w = none →
    ∃ v : TyVar, born[v.id]? = some (T.level w) ∧ T.Reaches (.var v) w

namespace Leveled

/-- Levels that a variable is not reached by are above it. -/
theorem lt_iff (h : T.Leveled born) {w : Nat} (hw : w < T.size) (hu : T.binding? w = none) {depth : Nat} :
    T.level w < depth ↔
      ∃ v : TyVar, (∃ d < depth, born[v.id]? = some d) ∧ T.Reaches (.var v) w := by
  constructor
  · intro hlt
    obtain ⟨v, hv, hreach⟩ := h.attained w hw hu
    exact ⟨v, ⟨_, hlt, hv⟩, hreach⟩
  · rintro ⟨v, ⟨d, hlt, hv⟩, hreach⟩
    exact (h.le v d w hv hreach).trans_lt hlt

theorem congr (h : T.Leveled born) (hT : T.Acyclic) (hs : T'.size = T.size)
    (hb : ∀ id, T'.binding? id = T.binding? id) (hl : ∀ w, T'.level w = T.level w) :
    T'.Leveled born := by
  have hreach : ∀ t w, T'.Reaches t w ↔ T.Reaches t w := fun t w => by
    rw [Reaches, deep_congr hT hb]; rfl
  refine ⟨fun v d w hv hw => ?_, fun w hw hu => ?_⟩
  · rw [hl]
    exact h.le v d w hv ((hreach _ w).mp hw)
  · simp only [hl, hreach]
    exact h.attained w (hs ▸ hw) (hb w ▸ hu)

/-- A unification that succeeds makes least levels of least depths. -/
theorem refine (h : T.Leveled born) (hT : T.Acyclic) (hr : T.Refines T') (hs : T'.size = T.size) :
    T'.Leveled born := by
  refine ⟨fun v d w hv hw => ?_, fun w hw hu => ?_⟩
  · obtain ⟨x, hx, hreach⟩ := hr.grows.reaches_iff.mp hw
    have hlow := (hr.least w (hreach.unbound hr.grows.tame.acyclic)).2
    calc T'.level w ≤ T.level x.id := hlow ⟨x, unbound_of_mem_vars_deep hT hx, hreach, rfl⟩
      _ ≤ d := h.le v d x.id hv ⟨x, hx, rfl⟩
  · obtain ⟨⟨x, hx, hreach, hlevel⟩, -⟩ := hr.least w hu
    have hlt : x.id < T.size := by
      by_contra hge
      -- an unknown variable stands for itself
      have hux := binding?_of_size_le (T := T') (hs ▸ Nat.le_of_not_lt hge)
      rw [reaches_var_of_unbound hux] at hreach
      omega
    obtain ⟨v, hv, z, hz, hid⟩ := h.attained x.id hlt hx
    refine ⟨v, hlevel ▸ hv, hr.grows.reaches_iff.mpr ⟨z, hz, ?_⟩⟩
    exact (reaches_var_congr hr.grows.tame.acyclic hid).mpr hreach

/-- A new variable is reached by itself only. -/
theorem newVar (h : T.Leveled born) (hT : Known born.length T.isGeneralized T) (name : String)
    (inferred rigid : Bool) (depth : Nat) :
    (T.newVar name inferred rigid depth).2.Leveled (born ++ [depth]) := by
  have hlast : ∀ d, (born ++ [depth])[T.size]? = some d ↔ d = depth := fun d => by
    rw [hT.size]; simp [eq_comm]
  have hreach : ∀ t w, (T.newVar name inferred rigid depth).2.Reaches t w ↔ T.Reaches t w :=
    fun t w => by rw [Reaches, deep_congr hT.acyclic (binding?_newVar name inferred rigid depth)]; rfl
  have hnew : T.binding? T.size = none := binding?_of_size_le le_rfl
  refine ⟨fun v d w hv hw => ?_, fun w hw hu => ?_⟩
  · rw [hreach] at hw
    rw [level_newVar]
    by_cases hid : v.id = T.size
    · rw [reaches_var_of_unbound (hid ▸ hnew), hid] at hw
      rw [if_pos hw.symm, (hlast d).mp (hid ▸ hv)]
    · have hlt : v.id < born.length := by
        have := (List.getElem?_eq_some_iff.mp hv).1
        rw [List.length_append, List.length_singleton, ← hT.size] at this
        rw [← hT.size]
        omega
      obtain ⟨x, hx, rfl⟩ := hw
      have hx' := below_deep hT.acyclic hT.binding (t := .var v)
        (fun y hy => List.eq_of_mem_singleton hy ▸ hlt) x hx
      rw [if_neg (by rw [hT.size]; exact hx'.ne)]
      rw [List.getElem?_append_left hlt] at hv
      exact h.le v d x.id hv ⟨x, hx, rfl⟩
  · rw [size_newVar] at hw
    rw [binding?_newVar] at hu
    simp only [hreach, level_newVar]
    by_cases hid : w = T.size
    · subst hid
      rw [if_pos rfl]
      exact ⟨⟨T.size, name, inferred, rigid⟩, (hlast _).mpr rfl, (reaches_var_of_unbound hnew).mpr rfl⟩
    · obtain ⟨v, hv, hw⟩ := h.attained w (by omega) hu
      rw [if_neg hid]
      exact ⟨v, by rw [List.getElem?_append_left (List.getElem?_eq_some_iff.mp hv).1, hv], hw⟩

end Leveled

/-! ## Open snapshots -/

/-- The property holds of the table, and of each table that going back to one of the open snapshots leads
to, the latest snapshot first. -/
inductive Opened (P : Table → Prop) : List Snapshot → Table → Prop where
  | nil {T : Table} : P T → Opened P [] T
  | cons {T T' : Table} {snapshots : List Snapshot} : P T' → Opened P snapshots T →
    T.snapshot.2.Restores T' → Opened P (T.snapshot.1 :: snapshots) T'

namespace Opened

variable {P Q : Table → Prop} {snapshots : List Snapshot} {s : Snapshot}

theorem now (h : Opened P snapshots T) : P T := by
  cases h with
  | nil h => exact h
  | cons h => exact h

theorem imp (h : Opened P snapshots T) (hPQ : ∀ T, P T → Q T) : Opened Q snapshots T := by
  induction h with
  | nil h => exact .nil (hPQ _ h)
  | cons h _ hback ih => exact .cons (hPQ _ h) ih hback

/-- What can be undone does not disturb the open snapshots. -/
theorem step (h : Opened P snapshots T) (hback : T.Restores T') (hP : P T') :
    Opened P snapshots T' := by
  cases h with
  | nil _ => exact .nil hP
  | cons _ hrest hback' => exact .cons hP hrest (hback'.trans hback)

theorem snapshot (h : Opened P snapshots T) (hP : P T.snapshot.2) :
    Opened P (T.snapshot.1 :: snapshots) T.snapshot.2 :=
  .cons hP h (.refl _)

theorem rollback (h : Opened P (s :: snapshots) T) (hq : ∀ T, P T → T.snapshots = 0 → T.trail = #[]) :
    Opened P snapshots (T.rollback s) := by
  cases h with
  | cons _ hrest hback =>
    rw [hback.rollback_eq (hq _ hrest.now)]
    exact hrest

theorem commit (h : Opened P (s :: snapshots) T) (hq : ∀ T, P T → T.snapshots = 0 → T.trail = #[])
    (hP : P T.commit) : Opened P snapshots T.commit := by
  cases h with
  | cons _ hrest hback => exact hrest.step (hback.commit (hq _ hrest.now)) hP

/-- Going back does not take new variables away. -/
theorem newVar (h : Opened P snapshots T) (htrail : ∀ T, P T → ∀ u ∈ T.trail, u.id < T.size)
    (name : String) (inferred rigid : Bool) (level : Nat)
    (hPQ : ∀ T, P T → Q (T.newVar name inferred rigid level).2) :
    Opened Q snapshots (T.newVar name inferred rigid level).2 := by
  induction h with
  | nil h => exact .nil (hPQ _ h)
  | @cons S S' _ h _ hback ih =>
    refine .cons (T := (S.newVar name inferred rigid level).2) (hPQ _ h) ih
      ⟨hback.snapshots, hback.quiet, fun hs => ?_⟩
    obtain ⟨n, hsize, hn⟩ := hback.back hs
    refine ⟨n, hsize, ?_⟩
    rw [undoLast_newVar (htrail _ h), hn]
    rfl

end Opened

end Table

namespace Frames

open Table

variable {born : List Nat} {F : Frames} {T T' : Table}

/-! ## The invariant -/

/-- What is asked of frames and table: variables wait where they should, and levels are least depths. -/
structure Fits (born : List Nat) (F : Frames) (T : Table) : Prop extends Placed F T where
  size : T.size = born.length
  leveled : T.Leveled born

namespace Fits

theorem empty : Fits [] .empty .empty :=
  ⟨.empty, rfl, fun v d w h => by simp at h, fun w h => absurd h (Nat.not_lt_zero w)⟩

theorem push (h : Fits born F T) : Fits born F.push T := ⟨h.toPlaced.push, h.size, h.leveled⟩

theorem snapshot (h : Fits born F T) : Fits born F T.snapshot.2 :=
  ⟨h.toPlaced.snapshot, h.size,
    h.leveled.congr h.tame.acyclic rfl (fun _ => rfl) fun _ => rfl⟩

theorem commit (h : Fits born F T) : Fits born F T.commit := by
  have hs : T.commit.size = T.size := by unfold Table.commit close; split <;> rfl
  refine ⟨h.toPlaced.commit, hs.trans h.size, h.leveled.congr h.tame.acyclic hs (fun w => ?_) fun w => ?_⟩
    <;> unfold Table.commit close <;> split <;> rfl

theorem refine (h : Fits born F T) (hr : T.Refines T') (hk : Known T.size T.isGeneralized T') :
    Fits born F T' :=
  ⟨h.toPlaced.sink hr.grows.tame hk hr.unbound fun _ => hr.level_le, hk.size.trans h.size,
    h.leveled.refine h.tame.acyclic hr hk.size⟩

theorem unify (h : Fits born F T) {a b : Ty} (ha : Below T.size a) (hb : Below T.size b)
    (hok : T.unify a b = .ok () T') : Fits born F T' := by
  have hunify := h.known.unify h.tame ha hb
  rw [hok] at hunify
  exact h.refine hunify.1 hunify.2

theorem newVar (h : Fits born F T) (name : String) (inferred rigid : Bool) :
    Fits (born ++ [F.depth]) (F.record born.length)
      (T.newVar name inferred rigid F.depth).2 :=
  ⟨h.size ▸ h.toPlaced.newVar name inferred rigid, by simp [h.size],
    h.leveled.newVar (h.size ▸ h.known) name inferred rigid F.depth⟩

/-! ## Closing a frame -/

theorem stays_iff (h : Fits born F T) {id depth : Nat} (hd : 0 < depth) :
    T.stays depth id = true ↔ (∃ d, born[id]? = some d ∧ depth ≤ d) ∧ T.isBound id = false ∧
      T.isGeneralized id = false ∧ ∀ v : TyVar, (∃ d < depth, born[v.id]? = some d) →
        ¬ T.Reaches (.var v) id := by
  have hsize := h.size
  simp only [stays, Bool.and_eq_true, Bool.not_eq_true', decide_eq_true_eq, and_assoc]
  constructor
  · rintro ⟨hu, hg, hle⟩
    have hid : id < T.size := lt_size_of_lt_level (hd.trans_le hle)
    have hunbound := isBound_eq_false.mp hu
    have hlt : id < born.length := hsize ▸ hid
    have hself := h.leveled.le ⟨id, "", false, false⟩ born[id] id (List.getElem?_eq_getElem hlt)
      ((reaches_var_of_unbound hunbound).mpr rfl)
    refine ⟨⟨born[id], List.getElem?_eq_getElem hlt, hle.trans hself⟩, hu, hg, fun v hv hreach => ?_⟩
    exact absurd ((h.leveled.lt_iff hid hunbound).mpr ⟨v, hv, hreach⟩) (Nat.not_lt.mpr hle)
  · rintro ⟨⟨d, hborn, -⟩, hu, hg, hall⟩
    have hid : id < T.size := hsize ▸ (List.getElem?_eq_some_iff.mp hborn).1
    refine ⟨hu, hg, Nat.le_of_not_lt fun hlt => ?_⟩
    obtain ⟨v, hv, hreach⟩ := (h.leveled.lt_iff hid (isBound_eq_false.mp hu)).mp hlt
    exact hall v hv hreach

/-- **Closing a frame keeps the invariant.** -/
theorem pop (h : Fits born F T) : Fits born (F.pop T).2.1 (F.pop T).2.2 := by
  rcases Nat.eq_zero_or_pos F.depth with hd | hd
  · rw [Frames.pop, List.eq_nil_of_length_eq_zero hd]
    exact h
  · obtain ⟨ids, -, -, -, htable, -, hplaced⟩ := h.pop_spec hd
    rw [htable] at hplaced ⊢
    exact ⟨hplaced, (size_generalizeAll ids).trans h.size, h.leveled.congr h.tame.acyclic
      (size_generalizeAll ids) (binding?_generalizeAll ids) (level_generalizeAll ids)⟩

end Fits

/-! ## Runs -/

/-- Runs of the operations on frames and a table, from none on: the open snapshots, the latest first, the
depths at which the variables were created, the frames and the table. Types are written over the variables
that exist. Snapshots are closed in the reverse order in which they were opened, and none is open when a
frame is closed. -/
inductive Run : List Snapshot → List Nat → Frames → Table → Prop where
  | start : Run [] [] .empty .empty
  | push {snapshots : List Snapshot} {born : List Nat} {F : Frames} {T : Table} :
    Run snapshots born F T → Run snapshots born F.push T
  | newVar {snapshots : List Snapshot} {born : List Nat} {F : Frames} {T : Table} (name : String)
    (inferred rigid : Bool) : Run snapshots born F T → Run snapshots (born ++ [F.depth])
      (F.newVar T name inferred rigid).2.1 (F.newVar T name inferred rigid).2.2
  | instantiate {snapshots : List Snapshot} {born : List Nat} {F : Frames} {T : Table} {t : Ty} :
    Run snapshots born F T → Below T.size t →
      Run snapshots (born ++ List.replicate (T.instantiate t F.depth).2.1.length F.depth)
        (F.instantiate T t).2.1 (F.instantiate T t).2.2
  | pop {born : List Nat} {F : Frames} {T : Table} :
    Run [] born F T → Run [] born (F.pop T).2.1 (F.pop T).2.2
  | unify {snapshots : List Snapshot} {born : List Nat} {F : Frames} {T T' : Table} {a b : Ty} :
    Run snapshots born F T → Below T.size a → Below T.size b → T.unify a b = .ok () T' →
      Run snapshots born F T'
  | snapshot {snapshots : List Snapshot} {born : List Nat} {F : Frames} {T : Table} :
    Run snapshots born F T → Run (T.snapshot.1 :: snapshots) born F T.snapshot.2
  | rollback {snapshots : List Snapshot} {s : Snapshot} {born : List Nat} {F : Frames} {T : Table} :
    Run (s :: snapshots) born F T → Run snapshots born F (T.rollback s)
  | commit {snapshots : List Snapshot} {s : Snapshot} {born : List Nat} {F : Frames} {T : Table} :
    Run (s :: snapshots) born F T → Run snapshots born F T.commit

/-- Instantiation adds its copies one by one. -/
theorem creates_fits (snapshots : List Snapshot) (born : List Nat) (F : Frames) :
    Creates (fun vs => Opened (Fits (born ++ List.replicate vs.length F.depth)
        (vs.foldl (fun F v => F.record v.id) F)) snapshots)
      (fun vs => Below (born.length + vs.length)) F.depth where
  shortcuts vs :=
    have hlength : (born ++ List.replicate vs.length F.depth).length = born.length + vs.length := by
      simp
    { acyclic := fun h => h.now.tame.acyclic
      bound := fun h _ hb => hlength ▸ h.now.size ▸ h.now.known.binding _ _ hb
      var := fun ht hv _ hw => List.eq_of_mem_singleton hw ▸ ht _ hv
      shortcut := fun h _ ht hb hdeep hacyclic => by
        have hfits := h.now
        have hid := lt_size_of_isBound hb
        have hsize := hfits.size.trans hlength
        exact h.step (.setBinding _ _ _) (hfits.refine (.of_shortcut hfits.tame hb hdeep hacyclic)
          (hfits.known.setBinding hid (hsize ▸ ht) hacyclic)) }
  mono v ht w hw := (ht w hw).trans_le (by simp)
  newVar {vs T} name inferred h := by
    have hsize := h.now.size
    have hnew := h.newVar (fun S hS => hS.known.trail) name inferred false F.depth
      fun S hS => by
        have h := hS.newVar name inferred false
        rwa [depth_foldl_record] at h
    rw [List.foldl_append, List.length_append, List.length_singleton, List.replicate_succ',
      ← List.append_assoc]
    rw [← hsize] at hnew
    exact hnew

/-- **Every run has the invariant**, also wherever its open snapshots lead back to. -/
theorem Run.opened {snapshots : List Snapshot} (h : Run snapshots born F T) :
    Opened (Fits born F) snapshots T := by
  induction h with
  | start => exact .nil .empty
  | push _ ih => exact ih.imp fun _ h => h.push
  | newVar name inferred rigid _ ih =>
    have hnew := ih.newVar (fun S hS => hS.known.trail) name inferred rigid _
      fun S hS => hS.newVar name inferred rigid
    rw [← ih.now.size] at hnew
    exact hnew
  | @instantiate snapshots born F T t _ ht ih =>
    have hstart : Opened (Fits (born ++ List.replicate ([] : List TyVar).length F.depth) F)
        snapshots T := by simpa using ih
    exact (creates_fits snapshots born F).instantiate hstart (by simpa [ih.now.size] using ht)
  | pop _ ih => exact .nil ih.now.pop
  | unify _ ha hb hok ih =>
    have hunify := ih.now.known.unify ih.now.tame ha hb
    rw [hok] at hunify
    exact ih.step hunify.1.restores (ih.now.unify ha hb hok)
  | snapshot _ ih => exact ih.snapshot ih.now.snapshot
  | rollback _ ih => exact ih.rollback fun _ h => h.tame.quiet
  | commit _ ih => exact ih.commit (fun _ h => h.tame.quiet) ih.now.commit

/-- **Closing a frame generalizes exactly the variables that did not escape.** Closing the innermost of `d`
frames lists, and marks, without repetition the variables that were created at depth `d` or deeper, are
unbound and not yet generalized, and do not occur in the resolved type of any variable that was created at
a lower depth. None is lost: when no frame is open, every variable is bound, generalized, or occurs in the
resolved type of one that was created without a frame. -/
theorem Run.generalizes_unescaped {snapshots : List Snapshot} (h : Run snapshots born F T) :
    (snapshots = [] → 0 < F.depth →
      (F.pop T).1.Nodup ∧
      (∀ id, id ∈ (F.pop T).1 ↔
        (∃ d, born[id]? = some d ∧ F.depth ≤ d) ∧ T.isBound id = false ∧ T.isGeneralized id = false ∧
          ∀ v : TyVar, (∃ d < F.depth, born[v.id]? = some d) →
            ∀ w ∈ (T.resolveDeep (.var v)).1.vars, w.id ≠ id) ∧
      ∀ id, (F.pop T).2.2.isGeneralized id = true ↔ T.isGeneralized id = true ∨ id ∈ (F.pop T).1) ∧
    (F.depth = 0 → ∀ id < born.length, T.isBound id = true ∨ T.isGeneralized id = true ∨
      ∃ v : TyVar, born[v.id]? = some 0 ∧ ∃ w ∈ (T.resolveDeep (.var v)).1.vars, w.id = id) := by
  have hfits := h.opened.now
  have hsize := hfits.size
  have hdeep : ∀ v, (T.resolveDeep (.var v)).1 = T.deep (.var v) := fun v =>
    (steady_resolveDeep hfits.tame.acyclic (.var v)).1
  refine ⟨fun _ hd => ?_, fun hd id hid => ?_⟩
  · obtain ⟨ids, hnodup, hmem, hids, htable, -⟩ := hfits.pop_spec hd
    rw [hids, htable]
    refine ⟨hnodup, fun id => ?_, fun id => ?_⟩
    · rw [hmem, hfits.stays_iff hd]
      simp only [hdeep, Reaches, not_exists, not_and, ne_eq]
    · have hstays : ∀ id ∈ ids, id < T.size := fun id hid => by
        obtain ⟨⟨d, hborn, -⟩, -⟩ := (hfits.stays_iff hd).mp ((hmem id).mp hid)
        exact hsize ▸ (List.getElem?_eq_some_iff.mp hborn).1
      rw [isGeneralized_generalizeAll _ hstays, Bool.or_eq_true, decide_eq_true_eq, or_comm]
  · by_contra hnot
    simp only [not_or, Bool.not_eq_true] at hnot
    obtain ⟨hu, hg, hnone⟩ := hnot
    have hunbound := isBound_eq_false.mp hu
    obtain ⟨v, hv, hreach⟩ := hfits.leveled.attained id (hsize ▸ hid) hunbound
    rcases Nat.eq_zero_or_pos (T.level id) with hzero | hpos
    · exact hnone ⟨v, hzero ▸ hv, by rw [hdeep]; exact hreach⟩
    · -- without a frame nothing waits
      have hwaits := hfits.waits id hunbound hg hpos
      rw [List.eq_nil_of_length_eq_zero hd] at hwaits
      exact hwaits

/-- A variable of the outer frame is bound to an array of one of the inner frame. That one is not
generalized with the inner frame, but with the outer one. -/
theorem Run.generalizes_unescaped_array :
    let outer : TyVar := ⟨0, "outer", false, false⟩
    let inner : TyVar := ⟨1, "inner", false, false⟩
    let T : Table := ⟨#[⟨1, some (.array (.var inner)), false⟩, ⟨1, none, false⟩], #[], 0⟩
    let F : Frames := ⟨[[1], [0]]⟩
    Run [] [1, 2] F T ∧ T.resolveDeep (.var outer) = (.array (.var inner), T) ∧
      1 ∉ (F.pop T).1 ∧ 1 ∈ ((F.pop T).2.1.pop (F.pop T).2.2).1 := by
  intro outer inner T F
  have hnew : Run [] [1, 2] F
      ((Table.empty.newVar "outer" false false 1).2.newVar "inner" false false 2).2 :=
    .newVar "inner" false false (.push (.newVar "outer" false false (.push .start)))
  have hunify : ((Table.empty.newVar "outer" false false 1).2.newVar "inner" false false 2).2.unify
      (.var outer) (.array (.var inner)) = .ok () T := by cbv
  have hrun : Run [] [1, 2] F T :=
    .unify hnew (by simp [Below, Ty.vars, outer, Table.newVar, Table.size, Table.empty])
      (by simp [Below, Ty.vars, inner, Table.newVar, Table.size, Table.empty]) hunify
  refine ⟨hrun, rfl, fun hmem => ?_, ?_⟩
  · have hout := ((hrun.generalizes_unescaped.1 rfl (by decide)).2.1 1).mp hmem
    exact hout.2.2.2 outer ⟨1, by decide, rfl⟩ inner (by decide) rfl
  · refine ((hrun.pop.generalizes_unescaped.1 rfl (by decide)).2.1 1).mpr
      ⟨⟨2, rfl, by decide⟩, rfl, rfl, fun v hv => ?_⟩
    -- no variable was created outside the outer frame
    obtain ⟨d, hlt, hd⟩ := hv
    obtain rfl : d = 0 := Nat.lt_one_iff.mp hlt
    have := List.mem_of_getElem? hd
    simp at this

end Frames

end Reified
