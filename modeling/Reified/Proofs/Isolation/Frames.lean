import Reified.Proofs.Frames.Settle
import Reified.Proofs.Isolation.Unify
import Reified.Proofs.Table.Instances
import Reified.Proofs.Table.Observation

/-!
# Open frames inside older ones

The frames that a run opens are inside those that were open before, and so its variables have levels that are
higher by the number of the older frames but one: the outermost frame of the run and the innermost of the older
ones are the same frame. Variables that wait for it are put before those that have waited there since earlier.

Closing a frame moves variables to the frames of their levels. This is the same in both places as long as no
variable has the level zero, at which a variable waits for no frame: moved up, it would wait for one. New
variables have the level of an open frame, and levels are only lowered to those of other variables.

## Main definitions

* `Frames.behind` — open frames inside older ones
* `Frames.Steady` — frames and a table that no operation can tell from moved ones

## Main results

* `Frames.newVar_behind`, `Frames.instantiate_behind`, `Frames.pop_behind` — operations on the frames
* `Frames.Steady.unify`, `Frames.Steady.pop`, … — what the operations keep
-/

namespace Reified

namespace Frames

variable {F G : Frames} {T T' : Table} {P : Array VarEntry} {d k : Nat}

/-! ## Frames inside older ones -/

/-- The frames of the first list, with the numbers of their variables moved up, inside those of the second. The
last frame of the first list and the first of the second become one. -/
def join (d : Nat) : List (List Nat) → List (List Nat) → List (List Nat)
  | [], gs => gs
  | [f], [] => [f.map (· + d)]
  | [f], g :: gs => (f.map (· + d) ++ g) :: gs
  | f :: fs, gs => f.map (· + d) :: join d fs gs

/-- Open frames inside older ones, with the numbers of their variables moved up by `d`. -/
def behind (F G : Frames) (d : Nat) : Frames := ⟨join d F.stack G.stack⟩

theorem join_cons_cons (d : Nat) (f f' : List Nat) (fs gs : List (List Nat)) :
    join d (f :: f' :: fs) gs = f.map (· + d) :: join d (f' :: fs) gs := by
  cases gs <;> rfl

theorem length_join {fs : List (List Nat)} (h : fs ≠ []) (gs : List (List Nat)) :
    (join d fs gs).length = fs.length + (gs.length - 1) := by
  match fs, gs with
  | [f], [] => rfl
  | [f], g :: gs => simp [join, Nat.add_comm]
  | f :: f' :: fs, gs =>
    rw [join_cons_cons, List.length_cons, length_join (List.cons_ne_nil f' fs), List.length_cons (a := f)]
    omega

theorem depth_behind (h : 0 < F.depth) (G : Frames) (d : Nat) :
    (F.behind G d).depth = F.depth + (G.depth - 1) :=
  length_join (List.ne_nil_of_length_pos h) G.stack

/-- A change of one of the newer frames. -/
theorem join_modify {fs : List (List Nat)} {i : Nat} (hi : i < fs.length) (gs : List (List Nat)) (id : Nat) :
    (join d fs gs).modify i ((id + d) :: ·) = join d (fs.modify i (id :: ·)) gs := by
  match fs, gs, i with
  | [f], [], 0 => simp [join]
  | [f], g :: gs, 0 => simp [join]
  | [f], gs, i + 1 => simp at hi
  | f :: f' :: fs, gs, 0 => simp [join_cons_cons, List.modify_zero_cons]
  | f :: f' :: fs, gs, i + 1 =>
    rw [join_cons_cons, List.modify_succ_cons, join_modify (Nat.lt_of_succ_lt_succ hi),
      List.modify_succ_cons]
    cases hm : (f' :: fs).modify i (id :: ·) with
    | nil => simpa using congrArg List.length hm
    | cons x xs => rw [join_cons_cons]

theorem push_behind (h : 0 < F.depth) (G : Frames) (d : Nat) :
    (F.behind G d).push = F.push.behind G d := by
  obtain ⟨f, fs, hF⟩ := List.exists_cons_of_length_pos h
  simp only [push, behind, hF, join_cons_cons]
  rfl

/-- A variable waits for the frame of its level, which is not zero. -/
theorem recordAt_behind {level : Nat} (hl : 0 < level) (hF : 0 < F.depth) (G : Frames) (id : Nat) :
    (F.behind G d).recordAt (level + (G.depth - 1)) (id + d) = (F.recordAt level id).behind G d := by
  have hdepth := depth_behind hF G d
  simp only [recordAt, hdepth, Nat.add_le_add_iff_right, hl, Nat.add_pos_left hl, decide_true,
    Bool.true_and, decide_eq_true_eq]
  split
  next hle =>
    have hi : F.depth - level < F.stack.length := Nat.sub_lt hF hl
    rw [Nat.add_sub_add_right]
    exact congrArg Frames.mk (join_modify hi G.stack id)
  next => rfl

theorem record_behind (hF : 0 < F.depth) (G : Frames) (id : Nat) :
    (F.behind G d).record (id + d) = (F.record id).behind G d := by
  rw [record_eq, record_eq, depth_behind hF, recordAt_behind hF hF]

theorem foldl_record_behind (hF : 0 < F.depth) (G : Frames) (vs : List TyVar) :
    (vs.map (TyVar.shift d)).foldl (fun F v => F.record v.id) (F.behind G d) =
      (vs.foldl (fun F v => F.record v.id) F).behind G d := by
  induction vs generalizing F with
  | nil => rfl
  | cons v vs ih =>
    rw [List.map_cons, List.foldl_cons, List.foldl_cons]
    show (vs.map _).foldl _ ((F.behind G d).record (v.id + d)) = _
    rw [record_behind hF, ih (by rwa [depth_record])]

/-! ## New variables -/

theorem newVar_behind (hF : 0 < F.depth) (G : Frames) (name : String) (inferred rigid : Bool) :
    (F.behind G P.size).newVar (T.behind P (G.depth - 1)) name inferred rigid =
      ((F.newVar T name inferred rigid).1.shift P.size,
        (F.newVar T name inferred rigid).2.1.behind G P.size,
        (F.newVar T name inferred rigid).2.2.behind P (G.depth - 1)) := by
  simp only [newVar, depth_behind hF, Table.newVar_behind]
  refine congrArg (Prod.mk _) (congrArg (Prod.mk · _) ?_)
  exact record_behind hF G _

theorem instantiate_behind (hT : T.Acyclic) (hF : 0 < F.depth) (G : Frames) (t : Ty) :
    (F.behind G P.size).instantiate (T.behind P (G.depth - 1)) (t.shift P.size) =
      ((F.instantiate T t).1.shift P.size, (F.instantiate T t).2.1.behind G P.size,
        (F.instantiate T t).2.2.behind P (G.depth - 1)) := by
  simp only [instantiate, depth_behind hF, Table.instantiate_behind hT]
  rw [foldl_record_behind hF]

/-! ## Closing a frame -/

theorem settle_behind {depth : Nat} (hF : 0 < F.depth) (G : Frames) {ids : List Nat}
    (hids : ∀ id ∈ ids, 0 < T.level id) (done : List Nat) :
    settle (depth + (G.depth - 1)) (ids.map (· + P.size)) (F.behind G P.size)
        (T.behind P (G.depth - 1)) (done.map (· + P.size)) =
      ((settle depth ids F T done).1.map (· + P.size), (settle depth ids F T done).2.1.behind G P.size,
        (settle depth ids F T done).2.2.behind P (G.depth - 1)) := by
  induction ids generalizing F T done with
  | nil => rfl
  | cons id ids ih =>
    obtain ⟨hid, hids⟩ := List.forall_mem_cons.mp hids
    have hlt : id < T.size := Table.lt_size_of_lt_level hid
    rw [List.map_cons, settle, settle, Table.isBound_behind, Table.isGeneralized_behind,
      Table.level_behind hlt]
    split
    · exact ih hF hids done
    · simp only [Nat.add_le_add_iff_right]
      split
      · rw [Table.generalize_behind]
        exact ih hF (fun id hid => by rw [Table.level_generalize]; exact hids id hid) (id :: done)
      · rw [recordAt_behind hid hF]
        exact ih (by rwa [depth_recordAt]) hids done

/-- **Closing a frame that is not the outermost one.** -/
theorem pop_behind (hF : 1 < F.depth) (G : Frames) (h : ∀ id ∈ F.stack.flatten, 0 < T.level id) :
    (F.behind G P.size).pop (T.behind P (G.depth - 1)) =
      ((F.pop T).1.map (· + P.size), (F.pop T).2.1.behind G P.size,
        (F.pop T).2.2.behind P (G.depth - 1)) := by
  have hdepth := depth_behind (Nat.lt_of_succ_lt hF) G P.size
  obtain ⟨f, f', fs, hstack⟩ : ∃ f f' fs, F.stack = f :: f' :: fs := by
    match hs : F.stack with
    | [] | [_] => rw [depth, hs] at hF; simp at hF
    | f :: f' :: fs => exact ⟨f, f', fs, rfl⟩
  have hbehind : (F.behind G P.size).stack =
      f.map (· + P.size) :: (behind ⟨f' :: fs⟩ G P.size).stack := by
    rw [behind, hstack, join_cons_cons]
    rfl
  have hids : ∀ id ∈ f.reverse, 0 < T.level id := fun id hid =>
    h id (by rw [hstack]; exact List.mem_append_left _ (List.mem_reverse.mp hid))
  have key := @settle_behind ⟨f' :: fs⟩ T P F.depth (Nat.succ_pos _) G f.reverse hids []
  rw [pop, pop, hbehind, hstack]
  dsimp only
  rw [hdepth, ← List.map_reverse, show behind ⟨f' :: fs⟩ G P.size = ⟨(behind ⟨f' :: fs⟩ G P.size).stack⟩ from rfl]
    at *
  rw [show ([] : List Nat) = [].map (· + P.size) from rfl, key]
  simp

/-! ## What the operations keep -/

/-- Frames and table between two operations of a run. No snapshot is open, types are over the variables that
there are, and none of these has the level zero. -/
structure Grounded (F : Frames) (T : Table) : Prop where
  tame : T.Tame
  known : Table.Known T.size T.isGeneralized T
  snapshots : T.snapshots = 0
  level : ∀ id < T.size, 0 < T.level id
  waits : ∀ id ∈ F.stack.flatten, id < T.size
  depth : 0 < F.depth

end Frames

namespace Table

variable {T : Table}

/-- A unification, also one that fails, lowers levels only to those of other variables, so none gets to zero. -/
theorem stable_level (N : Nat) (marks : Nat → Bool) :
    Stable (fun T => T.Tame ∧ Known N marks T ∧ ∀ id < N, 0 < T.level id)
      (fun T T' => T.Advances T' ∧ Known N marks T' ∧ ∀ id < N, 0 < T'.level id) (Below N)
      fun T t => T.binds t = false where
  part hc ht v hv := ht v (hc.vars_subset hv)
  keeps _ h := ⟨h.1.grows.tame, h.2⟩
  refl h := ⟨⟨.refl h.1, .refl _⟩, h.2⟩
  trans h h' := ⟨h.1.trans h'.1, h'.2⟩
  snapshot h := ⟨⟨h.1.acyclic, fun hq => absurd hq (Nat.succ_ne_zero _)⟩, h.2.1.snapshot, h.2.2⟩
  rollback h h' := by
    rw [h'.1.restores.rollback_eq h.1.quiet]
    exact ⟨⟨.refl h.1, .refl _⟩, h.2⟩
  commit {T T'} h h' := by
    have hlevel : ∀ w, T'.commit.level w = T'.level w := fun w => by
      unfold Table.commit close; split <;> rfl
    exact ⟨Advances.stable.commit h.1 h'.1, h'.2.1.commit, fun id hid => hlevel id ▸ h'.2.2 id hid⟩
  unbound h := h
  resolve {T a} h ha := by
    obtain ⟨hkind, hkeep⟩ := (Known.lowering N marks).resolve h.2.1 ha
    refine ⟨hkind, .of_steady (steady_resolve h.1.acyclic a).1 h.1, hkeep, fun id hid => ?_⟩
    rw [(level_resolve h.1.acyclic a id).1]
    exact h.2.2 id hid
  resolve_final {T a b} h _ _ := by
    obtain ⟨h₁, -, hf₁⟩ := steady_resolve h.1.acyclic a
    obtain ⟨h₂, -, hf₂⟩ := steady_resolve (h₁.acyclic h.1.acyclic) b
    exact ⟨(h₂.same.binds _).trans hf₁, hf₂⟩
  mismatch {T a b} h ha hb := by
    have h₁ := (Known.lowering N marks).resolveDeep h.2.1 ha
    refine ⟨.mismatch h.1 a b, (Known.lowering N marks).resolveDeep h₁ hb, fun id hid => ?_⟩
    rw [Table.mismatch, Unified.table_error, (level_resolveDeep h₁.acyclic _ _).1,
      (level_resolveDeep h.1.acyclic _ _).1]
    exact h.2.2 id hid
  missingField {T a} field h ha := by
    refine ⟨.missingField h.1 field a, (Known.lowering N marks).resolveDeep h.2.1 ha, fun id hid => ?_⟩
    rw [Table.missingField, Unified.table_error, (level_resolveDeep h.1.acyclic _ _).1]
    exact h.2.2 id hid
  bind {T v t} h hv hf _ ht := by
    have hid := hv v (List.mem_singleton_self v)
    have hlow := (sinks_occurs h.1.acyclic v.id (T.level v.id) t).lowers
    have hsteady := (checks_occurs h.1.acyclic v.id (T.level v.id) t).2
    refine ⟨.bind h.1 hf, h.2.1.bind hid (isBound_eq_false.mp hf) ht, fun id hlt => ?_⟩
    have hpos : 0 < (T.occurs v.id (T.level v.id) t).2.level id := by
      rcases hlow id with heq | ⟨-, -, heq⟩ <;> rw [heq]
      · exact h.2.2 id hlt
      · exact h.2.2 v.id hid
    unfold Table.bind
    generalize T.occurs v.id (T.level v.id) t = r at hpos hsteady ⊢
    obtain ⟨b, S⟩ := r
    cases b with
    | true =>
      rw [Unified.table_error, (level_resolveDeep (hsteady.acyclic h.1.acyclic) _ _).1]
      exact hpos
    | false =>
      rw [Unified.table_ok, level_setBinding]
      exact hpos

theorem Known.newVar (h : Known T.size T.isGeneralized T) (name : String) (inferred rigid : Bool)
    (level : Nat) : Known (T.newVar name inferred rigid level).2.size
      (T.newVar name inferred rigid level).2.isGeneralized (T.newVar name inferred rigid level).2 where
  acyclic := h.acyclic.imp fun _ hr v t hv => hr v t (binding?_newVar name inferred rigid level v ▸ hv)
  size := rfl
  trail u hu := by
    rw [size_newVar]
    exact Nat.lt_succ_of_lt (h.trail u hu)
  binding id t hb v hv := by
    rw [binding?_newVar] at hb
    rw [size_newVar]
    exact Nat.lt_succ_of_lt (h.binding id t hb v hv)
  marks _ := rfl

/-- The state of an instantiation in which no unknown variables occur. -/
structure Instance.Known (S : Instance) : Prop where
  table : Table.Known S.table.size S.table.isGeneralized S.table
  copies : ∀ c ∈ S.copies, c.2.id < S.table.size

theorem below_instantiateWithin {level n : Nat} {t : Ty} {S : Instance} (ht : Below S.table.size t)
    (hS : Instance.Known S) :
    Ty.Yields (fun S' => Instance.Known S' ∧ S.table.size ≤ S'.table.size)
      (fun S' w => w.id < S'.table.size) S (instantiateWithin level n t S).1.vars
      (instantiateWithin level n t S).2 := by
  induction n generalizing t S with
  | zero => exact ⟨⟨hS, le_rfl⟩, fun _ h => h, ht⟩
  | succ n ih =>
    rw [instantiateWithin]
    refine Ty.yields_replaceVarsM t (fun v hv S' hS' => ?_) S ⟨hS, le_rfl⟩
    obtain ⟨hS', hle⟩ := hS'
    obtain ⟨hkind, hkeep⟩ := (Known.lowering _ _).resolve hS'.table
      (t := .var v) fun w hw => (List.eq_of_mem_singleton hw ▸ ht v hv).trans_le hle
    rw [Instance.resolveVar_bind]
    generalize S'.table.resolve (.var v) = r at hkind hkeep ⊢
    obtain ⟨u, T'⟩ := r
    have hsize : T'.size = S'.table.size := hkeep.size
    have hT' : Instance.Known ⟨T', S'.copies⟩ :=
      ⟨⟨hkeep.acyclic, rfl, fun u hu => hsize ▸ hkeep.trail u hu,
        fun id t hb => hsize ▸ hkeep.binding id t hb, fun _ => rfl⟩,
        fun c hc => hsize ▸ hS'.copies c hc⟩
    have hu : Below T'.size u := hsize.symm ▸ hkind
    have hgood : ∀ w : TyVar, w.id < S'.table.size → w.id < T'.size := fun _ h => hsize.symm ▸ h
    dsimp only
    split
    · next w =>
      rw [Instance.isGeneralized_bind]
      split
      · -- a generalized variable is replaced by its copy
        rw [Instance.copy]
        dsimp only
        split
        next c hlookup =>
          obtain ⟨before, after, heq, -⟩ := List.lookup_eq_some_iff.mp hlookup
          refine ⟨⟨hT', hsize.symm ▸ hle⟩, hgood, fun x hx => ?_⟩
          obtain rfl := List.eq_of_mem_singleton hx
          exact hT'.copies (w.id, x) (by rw [heq]; simp)
        next =>
          have hnew : T'.size < (T'.newVar w.name w.inferred false level).2.size := by
            rw [size_newVar]; exact Nat.lt_succ_self _
          have hlt {m : Nat} (h : m < T'.size) : m < (T'.newVar w.name w.inferred false level).2.size :=
            h.trans hnew
          refine ⟨⟨⟨hT'.table.newVar w.name w.inferred false level,
              List.forall_mem_cons.mpr ⟨hnew, fun c hc => hlt (hT'.copies c hc)⟩⟩,
            (hsize.symm ▸ hle : S.table.size ≤ T'.size).trans hnew.le⟩, fun x hx => hlt (hgood x hx), fun x hx => ?_⟩
          obtain rfl := List.eq_of_mem_singleton hx
          exact hnew
      · exact ⟨⟨hT', hsize.symm ▸ hle⟩, hgood, hu⟩
    · obtain ⟨⟨hS₁, hle₁⟩, hmono, hvars⟩ := ih (S := ⟨T', S'.copies⟩) hu hT'
      exact ⟨⟨hS₁, (hsize.symm ▸ hle).trans hle₁⟩, fun x hx => hmono x (hgood x hx), hvars⟩

/-- **An instance** is over the variables that there are afterwards. -/
theorem below_instantiate (h : Known T.size T.isGeneralized T) {t : Ty} (ht : Below T.size t) (level : Nat) :
    Below (T.instantiate t level).2.2.size (T.instantiate t level).1 :=
  (@below_instantiateWithin level (T.size + 1) t ⟨T, []⟩ ht ⟨h, nofun⟩).vars

end Table

namespace Frames

variable {F : Frames} {T T' : Table}

open Table

namespace Grounded

theorem initial : Grounded empty.push .empty where
  tame := ⟨Inv.empty.acyclic, fun _ => rfl⟩
  known := ⟨Inv.empty.acyclic, rfl, fun u hu => absurd hu (Array.not_mem_empty u),
    fun id _ h => absurd (lt_size_of_binding? h) (Nat.not_lt_zero id), fun _ => rfl⟩
  snapshots := rfl
  level id h := absurd h (Nat.not_lt_zero id)
  waits := nofun
  depth := Nat.one_pos

theorem trail (h : Grounded F T) : T.trail = #[] := h.tame.quiet h.snapshots

theorem levels (h : Grounded F T) : ∀ id ∈ F.stack.flatten, 0 < T.level id := fun id hid =>
  h.level id (h.waits id hid)

theorem push (h : Grounded F T) : Grounded F.push T :=
  { h with waits := h.waits, depth := Nat.succ_pos _ }

/-- What a search or a unification leaves: the same variables, at levels that are not zero. -/
theorem later (h : Grounded F T) (ht : T.Advances T') (hk : Known T.size T.isGeneralized T')
    (hl : ∀ id < T.size, 0 < T'.level id) : Grounded F T' where
  tame := ht.grows.tame
  known := ⟨hk.acyclic, rfl, fun u hu => hk.size.symm ▸ hk.trail u hu,
    fun id t hb => hk.size.symm ▸ hk.binding id t hb, fun _ => rfl⟩
  snapshots := ht.restores.snapshots.trans h.snapshots
  level id hid := hl id (hk.size ▸ hid)
  waits id hid := hk.size.symm ▸ h.waits id hid
  depth := h.depth

theorem resolve (h : Grounded F T) {t : Ty} (ht : Below T.size t) :
    Below T.size (T.resolve t).1 ∧ (T.resolve t).2.size = T.size ∧ Grounded F (T.resolve t).2 := by
  obtain ⟨hkind, hkeep⟩ := (Known.lowering T.size T.isGeneralized).resolve h.known ht
  have hadvances := Advances.of_steady (steady_resolve h.tame.acyclic t).1 h.tame
  refine ⟨hkind, hkeep.size, h.later hadvances hkeep fun id hid => ?_⟩
  rw [(level_resolve h.tame.acyclic t id).1]
  exact h.level id hid

theorem resolveDeep (h : Grounded F T) {t : Ty} (ht : Below T.size t) :
    Below T.size (T.resolveDeep t).1 ∧ (T.resolveDeep t).2.size = T.size ∧
      Grounded F (T.resolveDeep t).2 := by
  have hkeep := (Known.lowering T.size T.isGeneralized).resolveDeep h.known ht
  refine ⟨?_, hkeep.size, h.later (.resolveDeep h.tame t) hkeep fun id hid => ?_⟩
  · rw [(h.tame.resolveDeep t).2]
    exact below_deep h.tame.acyclic h.known.binding ht
  · rw [(level_resolveDeep h.tame.acyclic _ _).1]
    exact h.level id hid

/-- **Unification** keeps frames and table in order, also when it fails. -/
theorem unify (h : Grounded F T) {a b : Ty} (ha : Below T.size a) (hb : Below T.size b) :
    (T.unify a b).table.size = T.size ∧ Grounded F (T.unify a b).table := by
  obtain ⟨hadvances, hknown, hlevel⟩ := (stable_level T.size T.isGeneralized).unify
    ⟨h.tame, h.known, h.level⟩ ha hb
  exact ⟨hknown.size, h.later hadvances hknown hlevel⟩

/-! ### New variables -/

theorem newVar (h : Grounded F T) (name : String) (inferred rigid : Bool) :
    Grounded (F.record T.size) (T.newVar name inferred rigid F.depth).2 where
  tame := (h.tame.newVar name inferred rigid F.depth).tame
  known := h.known.newVar name inferred rigid F.depth
  snapshots := h.snapshots
  level id hid := by
    rw [size_newVar] at hid
    rw [level_newVar]
    split
    · exact h.depth
    · exact h.level id (by omega)
  waits id hid := by
    rw [size_newVar]
    obtain ⟨f, fs, hF⟩ := List.exists_cons_of_length_pos h.depth
    have hwaits := h.waits
    simp only [record, hF, List.flatten_cons, List.cons_append, List.mem_cons] at hid hwaits
    rcases hid with rfl | hid
    · exact Nat.lt_succ_self _
    · exact Nat.lt_succ_of_lt (hwaits id hid)
  depth := by rw [depth_record]; exact h.depth

/-- Instantiation creates its copies one by one. -/
theorem creates (N : Nat) (F : Frames) :
    Creates (fun vs T => T.size = N + vs.length ∧ Grounded (vs.foldl (fun F v => F.record v.id) F) T)
      (fun vs => Below (N + vs.length)) F.depth where
  shortcuts vs :=
    { acyclic := fun h => h.2.tame.acyclic
      bound := fun h _ hb => h.1 ▸ h.2.known.binding _ _ hb
      var := fun ht hv _ hw => List.eq_of_mem_singleton hw ▸ ht _ hv
      shortcut := fun {T v t} h _ ht hb hdeep hacyclic => by
        have hknown := h.2.known.setBinding (lt_size_of_isBound hb) (h.1.symm ▸ ht) hacyclic
        refine ⟨hknown.size.trans h.1, h.2.later (Refines.of_shortcut h.2.tame hb hdeep hacyclic).toAdvances
          hknown fun id hid => ?_⟩
        rw [level_setBinding]
        exact h.2.level id hid }
  mono v ht w hw := (ht w hw).trans_le (by simp)
  newVar {vs T} name inferred h := by
    have hnew := h.2.newVar name inferred false
    rw [depth_foldl_record] at hnew
    rw [List.foldl_append, List.length_append, size_newVar, h.1]
    exact ⟨rfl, hnew⟩

theorem instantiate (h : Grounded F T) {t : Ty} (ht : Below T.size t) :
    T.size ≤ (F.instantiate T t).2.2.size ∧ (F.instantiate T t).2.1.depth = F.depth ∧
      Below (F.instantiate T t).2.2.size (F.instantiate T t).1 ∧
      Grounded (F.instantiate T t).2.1 (F.instantiate T t).2.2 := by
  obtain ⟨hsize, hgrounded⟩ := @Creates.instantiate _ _ _ _ [] (creates T.size F) ⟨rfl, h⟩ t ht
  rw [List.nil_append] at hsize hgrounded
  exact ⟨hsize.symm ▸ Nat.le_add_right _ _, depth_foldl_record F _, below_instantiate h.known ht _, hgrounded⟩

/-! ### Closing a frame -/

theorem generalize (h : Grounded F T) (id : Nat) : Grounded F (T.generalize id) where
  tame := (h.tame.generalize id).tame
  known := ⟨(h.tame.generalize id).tame.acyclic, rfl, fun u hu => by
      rw [size_generalize]; exact h.known.trail u hu, fun w t hb => by
      rw [binding?_generalize] at hb
      rw [size_generalize]
      exact h.known.binding w t hb, fun _ => rfl⟩
  snapshots := h.snapshots
  level w hw := by
    rw [size_generalize] at hw
    rw [level_generalize]
    exact h.level w hw
  waits w hw := by
    rw [size_generalize]
    exact h.waits w hw
  depth := h.depth

theorem recordAt (h : Grounded F T) (level : Nat) {id : Nat} (hid : id < T.size) :
    Grounded (F.recordAt level id) T where
  tame := h.tame
  known := h.known
  snapshots := h.snapshots
  level := h.level
  waits w hw := by
    unfold Frames.recordAt at hw
    split at hw
    next hle =>
      rw [Bool.and_eq_true, decide_eq_true_eq, decide_eq_true_eq] at hle
      have hi : F.depth - level < F.stack.length := Nat.sub_lt h.depth hle.1
      rcases List.mem_cons.mp ((flatten_modify_perm hi id).mem_iff.mp hw) with rfl | hw
      · exact hid
      · exact h.waits w hw
    next => exact h.waits w hw
  depth := by rw [depth_recordAt]; exact h.depth

theorem settle (h : Grounded F T) (depth : Nat) {ids : List Nat} (hids : ∀ id ∈ ids, id < T.size)
    (done : List Nat) : (settle depth ids F T done).2.2.size = T.size ∧
      (settle depth ids F T done).2.1.depth = F.depth ∧
      Grounded (settle depth ids F T done).2.1 (settle depth ids F T done).2.2 := by
  induction ids generalizing F T done with
  | nil => exact ⟨rfl, rfl, h⟩
  | cons id ids ih =>
    obtain ⟨hid, hids⟩ := List.forall_mem_cons.mp hids
    rw [Frames.settle]
    split
    · exact ih h hids done
    · split
      · have key := ih (h.generalize id) (fun w hw => by rw [size_generalize]; exact hids w hw) (id :: done)
        rwa [size_generalize] at key
      · have key := ih (h.recordAt (T.level id) hid) hids done
        rwa [depth_recordAt] at key

/-- **Closing a frame that is not the outermost one.** -/
theorem pop (h : Grounded F T) (hF : 1 < F.depth) : (F.pop T).2.2.size = T.size ∧
    (F.pop T).2.1.depth + 1 = F.depth ∧ Grounded (F.pop T).2.1 (F.pop T).2.2 := by
  obtain ⟨f, fs, hstack⟩ := List.exists_cons_of_length_pos h.depth
  have hdepth : F.depth = fs.length + 1 := by rw [Frames.depth, hstack, List.length_cons]
  have hwaits := h.waits
  rw [hstack, List.flatten_cons] at hwaits
  have hrest : Grounded ⟨fs⟩ T :=
    { h with
      waits := fun id hid => hwaits id (List.mem_append_right _ hid)
      depth := by show 0 < fs.length; omega }
  obtain ⟨hsize, hd, hgrounded⟩ := hrest.settle F.depth
    (fun id hid => hwaits id (List.mem_append_left _ (List.mem_reverse.mp hid))) []
  rw [Frames.pop, hstack]
  exact ⟨hsize, (congrArg (· + 1) hd).trans hdepth.symm, hgrounded⟩

end Grounded

end Frames

end Reified
