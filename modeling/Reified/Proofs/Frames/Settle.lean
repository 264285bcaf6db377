import Mathlib.Data.List.Nodup
import Reified.Proofs.Table.Changes
import Reified.Ty.Generalize

/-!
# Closing a frame

A frame that is closed decides the fate of the variables that waited for it, one after the other. If none
of them waits twice, then the fate of one does not depend on the others: those still at the depth of the
frame are generalized, in order, and those of lower levels wait for the frames of their levels from now
on.

## Main definitions

* `Frames.Waits` — a variable waits for a frame that is no further out than a level
* `Frames.Moved` — variables have moved to the frames of their levels
* `Table.stays`, `Table.moves` — the fate of a variable when a frame is closed

## Main results

* `Frames.moved_foldl_recordAt` — where variables wait after they have moved
* `Frames.settle_eq`, `Frames.pop_eq` — closing a frame
-/

namespace Reified

namespace Table

variable {T : Table}

/-- The variable is neither bound nor generalized, and still at the depth. -/
def stays (T : Table) (depth id : Nat) : Bool :=
  !T.isBound id && !T.isGeneralized id && decide (depth ≤ T.level id)

/-- The variable is neither bound nor generalized, and can be reached from further out. -/
def moves (T : Table) (depth id : Nat) : Bool :=
  !T.isBound id && !T.isGeneralized id && decide (T.level id < depth)

/-- Mark variables as generalized. -/
def generalizeAll (T : Table) (ids : List Nat) : Table := ids.foldl generalize T

@[simp] theorem isBound_generalize (id w : Nat) : (T.generalize id).isBound w = T.isBound w := by
  simp [isBound, binding?_generalize]

theorem stays_generalize {id w : Nat} (h : w ≠ id) (depth : Nat) :
    (T.generalize id).stays depth w = T.stays depth w := by
  simp [stays, isGeneralized_generalize_of_ne h]

theorem moves_generalize {id w : Nat} (h : w ≠ id) (depth : Nat) :
    (T.generalize id).moves depth w = T.moves depth w := by
  simp [moves, isGeneralized_generalize_of_ne h]

section generalizeAll

variable (ids : List Nat)

theorem generalizeAll_induction {P : Table → Prop} (hT : P T)
    (step : ∀ S id, P S → P (S.generalize id)) : P (T.generalizeAll ids) := by
  induction ids generalizing T with
  | nil => exact hT
  | cons id ids ih => exact ih (step T id hT)

@[simp] theorem binding?_generalizeAll (w : Nat) :
    (T.generalizeAll ids).binding? w = T.binding? w :=
  generalizeAll_induction (P := fun S => S.binding? w = T.binding? w) ids rfl fun _ id h =>
    (binding?_generalize id w).trans h

@[simp] theorem level_generalizeAll (w : Nat) : (T.generalizeAll ids).level w = T.level w :=
  generalizeAll_induction (P := fun S => S.level w = T.level w) ids rfl fun _ id h =>
    (level_generalize id w).trans h

@[simp] theorem size_generalizeAll : (T.generalizeAll ids).size = T.size :=
  generalizeAll_induction (P := fun S => S.size = T.size) ids rfl fun _ id h =>
    (size_generalize id).trans h

@[simp] theorem trail_generalizeAll : (T.generalizeAll ids).trail = T.trail :=
  generalizeAll_induction (P := fun S => S.trail = T.trail) ids rfl fun _ _ h => h

theorem isGeneralized_generalizeAll (h : ∀ id ∈ ids, id < T.size) (w : Nat) :
    (T.generalizeAll ids).isGeneralized w = (decide (w ∈ ids) || T.isGeneralized w) := by
  induction ids generalizing T with
  | nil => rfl
  | cons id ids ih =>
    obtain ⟨hid, hids⟩ := List.forall_mem_cons.mp h
    rw [generalizeAll, List.foldl_cons]
    refine (ih fun x hx => by simpa using hids x hx).trans ?_
    rw [isGeneralized_generalize hid]
    by_cases hw : w = id <;> simp [hw]

end generalizeAll

end Table

namespace Frames

variable {F : Frames} {T : Table}

/-! ## Waiting -/

/-- The variable waits for a frame that is no further out than the level; the frames are listed from the
innermost one. -/
def Waits (level id : Nat) : List (List Nat) → Prop
  | [] => False
  | f :: fs => id ∈ f ∧ level ≤ fs.length + 1 ∨ Waits level id fs

theorem Waits.le_length {level id : Nat} {fs : List (List Nat)} (h : Waits level id fs) :
    level ≤ fs.length := by
  induction fs with
  | nil => exact h.elim
  | cons f fs ih =>
    rcases h with ⟨-, h⟩ | h
    · exact h
    · exact (ih h).trans (Nat.le_succ _)

theorem Waits.mono {level level' id : Nat} {fs : List (List Nat)} (h : Waits level id fs)
    (hle : level' ≤ level) : Waits level' id fs := by
  induction fs with
  | nil => exact h
  | cons f fs ih => exact h.imp (fun ⟨hm, hl⟩ => ⟨hm, hle.trans hl⟩) ih

theorem waits_modify {level id : Nat} {fs : List (List Nat)} (hl : 0 < level)
    (hle : level ≤ fs.length) : Waits level id (fs.modify (fs.length - level) (id :: ·)) := by
  induction fs with
  | nil => exact absurd (hl.trans_le hle) (lt_irrefl 0)
  | cons f fs ih =>
    rw [List.length_cons] at hle
    rcases Nat.eq_or_lt_of_le hle with heq | hlt
    · rw [List.length_cons, heq, Nat.sub_self, List.modify_zero_cons]
      exact .inl ⟨List.mem_cons_self, le_rfl⟩
    · have hle := Nat.le_of_lt_succ hlt
      rw [List.length_cons, Nat.succ_sub hle, List.modify_succ_cons]
      exact .inr (ih hle)

theorem Waits.modify {level w : Nat} {fs : List (List Nat)} (h : Waits level w fs) (i id : Nat) :
    Waits level w (fs.modify i (id :: ·)) := by
  induction fs generalizing i with
  | nil => exact h.elim
  | cons f fs ih =>
    cases i with
    | zero =>
      rw [List.modify_zero_cons]
      exact h.imp (fun ⟨hm, hl⟩ => ⟨List.mem_cons_of_mem id hm, hl⟩) fun h => h
    | succ i =>
      rw [List.modify_succ_cons, Waits, List.length_modify]
      exact h.imp (fun h => h) fun h => ih h i

theorem flatten_modify_perm {i : Nat} {fs : List (List Nat)} (hi : i < fs.length) (id : Nat) :
    (fs.modify i (id :: ·)).flatten.Perm (id :: fs.flatten) := by
  induction fs generalizing i with
  | nil => exact absurd hi (Nat.not_lt_zero i)
  | cons f fs ih =>
    cases i with
    | zero => rw [List.modify_zero_cons, List.flatten_cons, List.flatten_cons, List.cons_append]
    | succ i =>
      rw [List.modify_succ_cons, List.flatten_cons, List.flatten_cons]
      exact ((ih (Nat.lt_of_succ_lt_succ hi)).append_left f).trans List.perm_middle

/-! ## Moving to other frames -/

@[simp] theorem depth_recordAt (level id : Nat) : (F.recordAt level id).depth = F.depth := by
  unfold recordAt
  split
  · simp [depth]
  · rfl

/-- The variable moves to the innermost frame. -/
theorem record_eq (F : Frames) (id : Nat) : F.record id = F.recordAt F.depth id := by
  obtain ⟨stack⟩ := F
  cases stack with
  | nil => rfl
  | cons f fs => simp [record, recordAt, depth]

@[simp] theorem depth_record (F : Frames) (id : Nat) : (F.record id).depth = F.depth := by
  rw [record_eq, depth_recordAt]

theorem depth_foldl_record (F : Frames) (vs : List TyVar) :
    (vs.foldl (fun F v => F.record v.id) F).depth = F.depth := by
  induction vs generalizing F with
  | nil => rfl
  | cons v vs ih => rw [List.foldl_cons, ih, depth_record]

theorem depth_settle (depth : Nat) (ids : List Nat) (done : List Nat) :
    (settle depth ids F T done).2.1.depth = F.depth := by
  fun_induction settle depth ids F T done with
  | case1 => rfl
  | case2 _ _ _ _ _ _ ih => exact ih
  | case3 _ _ _ _ _ _ _ ih => exact ih
  | case4 F T done id ids _ _ ih => rw [ih, depth_recordAt]

/-- One frame less is open, if any was. -/
theorem depth_pop : (F.pop T).2.1.depth = F.depth - 1 := by
  obtain ⟨stack⟩ := F
  cases stack with
  | nil => rfl
  | cons f fs => exact depth_settle _ _ _

/-- The frames after variables have moved to the frames of their levels. -/
structure Moved (level : Nat → Nat) (ids : List Nat) (F F' : Frames) : Prop where
  depth : F'.depth = F.depth
  nodup : F'.stack.flatten.Nodup
  mem : ∀ w ∈ F'.stack.flatten, w ∈ ids ∨ w ∈ F.stack.flatten
  mono : ∀ l w, Waits l w F.stack → Waits l w F'.stack
  waits : ∀ id ∈ ids, 0 < level id → level id ≤ F.depth → Waits (level id) id F'.stack

theorem moved_recordAt (level : Nat → Nat) (hF : F.stack.flatten.Nodup) {id : Nat}
    (hid : id ∉ F.stack.flatten) : Moved level [id] F (F.recordAt (level id) id) := by
  unfold recordAt
  split
  · next h =>
    rw [Bool.and_eq_true, decide_eq_true_eq, decide_eq_true_eq] at h
    have hlt : F.depth - level id < F.stack.length := Nat.sub_lt (h.1.trans_le h.2) h.1
    have hperm := flatten_modify_perm hlt id
    refine ⟨by simp [Frames.depth], hperm.nodup_iff.mpr (List.nodup_cons.mpr ⟨hid, hF⟩),
      fun w hw => ?_, fun l w hw => hw.modify _ _, fun w hw _ _ => ?_⟩
    · exact (List.mem_cons.mp (hperm.mem_iff.mp hw)).imp_left List.mem_singleton.mpr
    · obtain rfl := List.mem_singleton.mp hw
      exact waits_modify h.1 h.2
  · next h =>
    refine ⟨rfl, hF, fun w hw => .inr hw, fun _ _ hw => hw, fun w hw hpos hle => ?_⟩
    obtain rfl := List.mem_singleton.mp hw
    exact absurd (by simp [hpos, hle]) h

theorem moved_foldl_recordAt (level : Nat → Nat) {ids : List Nat} (hF : F.stack.flatten.Nodup)
    (hids : ids.Nodup) (hdisjoint : ∀ id ∈ ids, id ∉ F.stack.flatten) :
    Moved level ids F (ids.foldl (fun F id => F.recordAt (level id) id) F) := by
  induction ids generalizing F with
  | nil => exact ⟨rfl, hF, fun w hw => .inr hw, fun _ _ hw => hw, nofun⟩
  | cons id ids ih =>
    obtain ⟨hnot, hids⟩ := List.nodup_cons.mp hids
    obtain ⟨hid, hdisjoint⟩ := List.forall_mem_cons.mp hdisjoint
    have h1 := moved_recordAt level hF hid
    have h2 := ih h1.nodup hids fun w hw hmem => by
      rcases h1.mem w hmem with hw' | hmem
      · exact hnot (List.mem_singleton.mp hw' ▸ hw)
      · exact hdisjoint w hw hmem
    rw [List.foldl_cons]
    refine ⟨h2.depth.trans h1.depth, h2.nodup, fun w hw => ?_, fun l w hw => h2.mono l w (h1.mono l w hw),
      fun w hw hpos hle => ?_⟩
    · rcases h2.mem w hw with hw | hw
      · exact .inl (List.mem_cons_of_mem id hw)
      · exact (h1.mem w hw).imp_left fun hw => List.mem_cons.mpr (.inl (List.mem_singleton.mp hw))
    · rcases List.mem_cons.mp hw with rfl | hw
      · exact h2.mono _ _ (h1.waits w List.mem_cons_self hpos hle)
      · exact h2.waits w hw hpos (h1.depth.symm ▸ hle)

/-! ## Closing -/

/-- **Closing a frame, all variables at once.** -/
theorem settle_eq {depth : Nat} {ids : List Nat} (hids : ids.Nodup) (done : List Nat) :
    settle depth ids F T done =
      ((ids.filter (T.stays depth)).reverse ++ done,
        (ids.filter (T.moves depth)).foldl (fun F id => F.recordAt (T.level id) id) F,
        T.generalizeAll (ids.filter (T.stays depth))) := by
  induction ids generalizing F T done with
  | nil => rfl
  | cons id ids ih =>
    obtain ⟨hid, hids⟩ := List.nodup_cons.mp hids
    rw [settle]
    split
    · next h =>
      have hstays : T.stays depth id = false := by
        rcases Bool.or_eq_true_iff.mp h with h | h <;> simp [Table.stays, h]
      have hmoves : T.moves depth id = false := by
        rcases Bool.or_eq_true_iff.mp h with h | h <;> simp [Table.moves, h]
      rw [ih hids, List.filter_cons_of_neg (by simp [hstays]),
        List.filter_cons_of_neg (by simp [hmoves])]
    · next h =>
      rw [Bool.or_eq_true, not_or, Bool.not_eq_true, Bool.not_eq_true] at h
      split
      · next hle =>
        -- what is marked here is not asked about again
        have hne : ∀ w ∈ ids, w ≠ id := fun w hw heq => hid (heq ▸ hw)
        have hstays : ids.filter ((T.generalize id).stays depth) = ids.filter (T.stays depth) :=
          List.filter_congr fun w hw => Table.stays_generalize (hne w hw) depth
        have hmoves : ids.filter ((T.generalize id).moves depth) = ids.filter (T.moves depth) :=
          List.filter_congr fun w hw => Table.moves_generalize (hne w hw) depth
        rw [ih hids, hstays, hmoves, List.filter_cons_of_pos (by simp [Table.stays, h, hle]),
          List.filter_cons_of_neg (by simp [Table.moves, h, hle])]
        simp [Table.generalizeAll]
      · next hlt =>
        rw [ih hids, List.filter_cons_of_neg (by simp [Table.stays, h, hlt]),
          List.filter_cons_of_pos (by simp [Table.moves, h, Nat.lt_of_not_le hlt])]
        rfl

/-- **Closing the innermost frame.** -/
theorem pop_eq {f : List Nat} {fs : List (List Nat)} (hF : F.stack = f :: fs) (hf : f.Nodup) :
    F.pop T = (f.reverse.filter (T.stays F.depth),
      (f.reverse.filter (T.moves F.depth)).foldl (fun F id => F.recordAt (T.level id) id) ⟨fs⟩,
      T.generalizeAll (f.reverse.filter (T.stays F.depth))) := by
  rw [pop, hF]
  dsimp only
  rw [settle_eq (List.nodup_reverse.mpr hf)]
  simp

end Frames

end Reified
