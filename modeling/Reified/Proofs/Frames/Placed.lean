import Reified.Proofs.Frames.Settle
import Reified.Proofs.Table.Refines

/-!
# Variables wait for their frames

Every variable that is neither bound nor generalized waits for a frame that is not further out than its
level, and no variable waits twice. Unification binds variables and lowers levels, whether it succeeds or
not, so a variable may wait further in than its level says; closing that frame moves it.

## Main definitions

* `Frames.Placed` — variables wait where they should

## Main results

* `Frames.Placed.sink`, `Frames.Placed.newVar`, `Frames.Placed.pop` — each operation keeps it so
* `Frames.Placed.pop_spec` — a frame that is closed generalizes all that is still at its depth
-/

namespace Reified

namespace Frames

open Table

variable {F : Frames} {T T' : Table}

/-- Every variable that is neither bound nor generalized waits for a frame that is no further out than its
level, and for no other. -/
structure Placed (F : Frames) (T : Table) : Prop where
  tame : T.Tame
  known : Known T.size T.isGeneralized T
  nodup : F.stack.flatten.Nodup
  lt : ∀ id ∈ F.stack.flatten, id < T.size
  waits : ∀ w, T.binding? w = none → T.isGeneralized w = false → 0 < T.level w →
    Waits (T.level w) w F.stack

namespace Placed

theorem empty : Placed .empty .empty where
  tame := ⟨Inv.empty.acyclic, fun _ => rfl⟩
  known := ⟨Inv.empty.acyclic, rfl, fun u hu => absurd hu (Array.not_mem_empty u),
    fun id _ h => absurd (lt_size_of_binding? h) (Nat.not_lt_zero id), fun _ => rfl⟩
  nodup := List.nodup_nil
  lt := nofun
  waits w _ _ h := absurd (lt_size_of_lt_level h) (Nat.not_lt_zero w)

theorem push (h : Placed F T) : Placed F.push T where
  tame := h.tame
  known := h.known
  nodup := h.nodup
  lt := h.lt
  waits w hu hg hl := .inr (h.waits w hu hg hl)

/-- Levels may sink: then a frame further out would do. -/
theorem sink (h : Placed F T) (ht : T'.Tame) (hk : Known T.size T.isGeneralized T')
    (hu : ∀ w, T'.binding? w = none → T.binding? w = none)
    (hl : ∀ w, T'.binding? w = none → T'.level w ≤ T.level w) : Placed F T' where
  tame := ht
  known := ⟨hk.acyclic, rfl, fun u hu => hk.size ▸ hk.trail u hu,
    fun id t hb => hk.size ▸ hk.binding id t hb, fun _ => rfl⟩
  nodup := h.nodup
  lt id hid := hk.size ▸ h.lt id hid
  waits w huw hg hlt := by
    have hle := hl w huw
    exact (h.waits w (hu w huw) ((hk.marks w).symm.trans hg) (hlt.trans_le hle)).mono hle

theorem snapshot (h : Placed F T) : Placed F T.snapshot.2 :=
  h.sink ⟨h.tame.acyclic, fun hq => absurd hq (Nat.succ_ne_zero _)⟩ h.known.snapshot (fun _ hw => hw)
    fun _ _ => le_rfl

theorem commit (h : Placed F T) : Placed F T.commit := by
  have hb : ∀ w, T.commit.binding? w = T.binding? w := fun w => by
    unfold Table.commit close; split <;> rfl
  have hl : ∀ w, T.commit.level w = T.level w := fun w => by
    unfold Table.commit close; split <;> rfl
  have hq : T.commit.snapshots = 0 → T.commit.trail = #[] := by
    unfold Table.commit close
    split
    · exact fun _ => rfl
    · next hlt => exact fun hq => absurd hq (by simp only; omega)
  exact h.sink ⟨h.known.commit.acyclic, hq⟩ h.known.commit (fun w hw => hb w ▸ hw)
    fun w _ => (hl w).le

theorem newVar (h : Placed F T) (name : String) (inferred rigid : Bool) :
    Placed (F.record T.size) (T.newVar name inferred rigid F.depth).2 := by
  have hnot : T.size ∉ F.stack.flatten := fun hm => lt_irrefl _ (h.lt _ hm)
  have hmoved := moved_recordAt (fun _ => F.depth) h.nodup hnot
  rw [← record_eq] at hmoved
  have hgrows := h.tame.newVar name inferred rigid F.depth
  refine ⟨hgrows.tame, ⟨hgrows.tame.acyclic, rfl, fun u hu => ?_, fun id t hb v hv => ?_, fun _ => rfl⟩,
    hmoved.nodup, fun id hid => ?_, fun w hu hg hl => ?_⟩
  · rw [size_newVar]
    exact Nat.lt_succ_of_lt (h.known.trail u hu)
  · rw [binding?_newVar] at hb
    rw [size_newVar]
    exact Nat.lt_succ_of_lt (h.known.binding id t hb v hv)
  · rw [size_newVar]
    rcases hmoved.mem id hid with hid | hid
    · exact List.eq_of_mem_singleton hid ▸ Nat.lt_succ_self _
    · exact Nat.lt_succ_of_lt (h.lt id hid)
  · rw [binding?_newVar] at hu
    rw [isGeneralized_newVar] at hg
    rw [level_newVar] at hl ⊢
    split
    · next hw =>
      rw [if_pos hw] at hl
      exact hw ▸ hmoved.waits _ (List.mem_singleton_self _) hl le_rfl
    · next hw =>
      rw [if_neg hw] at hl
      exact hmoved.mono _ _ (h.waits w hu hg hl)

/-- What is still at the depth of the innermost frame waits for it. -/
theorem mem_of_stays (h : Placed F T) {f : List Nat} {fs : List (List Nat)} (hF : F.stack = f :: fs)
    {id : Nat} (hstays : T.stays F.depth id = true) : id ∈ f := by
  simp only [stays, Bool.and_eq_true, Bool.not_eq_true', decide_eq_true_eq, and_assoc] at hstays
  obtain ⟨hu, hg, hle⟩ := hstays
  have hdepth : F.depth = fs.length + 1 := by rw [depth, hF, List.length_cons]
  have hwaits := h.waits id (isBound_eq_false.mp hu) hg (by omega)
  rw [hF] at hwaits
  rcases hwaits with ⟨hm, -⟩ | hrest
  · exact hm
  · have := hrest.le_length
    omega

/-- Closing a frame generalizes what is still at its depth, in the order in which it waits. -/
theorem pop_spec (h : Placed F T) (hd : 0 < F.depth) :
    ∃ ids : List Nat, ids.Nodup ∧ (∀ id, id ∈ ids ↔ T.stays F.depth id = true) ∧
      (F.pop T).1 = ids ∧ (F.pop T).2.2 = T.generalizeAll ids ∧
      (F.pop T).2.1.depth = F.depth - 1 ∧ Placed (F.pop T).2.1 (F.pop T).2.2 := by
  obtain ⟨f, fs, hF⟩ := List.exists_cons_of_length_pos hd
  have hnodup := h.nodup
  have hlt := h.lt
  rw [hF, List.flatten_cons, List.nodup_append'] at hnodup
  rw [hF, List.flatten_cons] at hlt
  obtain ⟨hf, hfs, hdisjoint⟩ := hnodup
  have hdepth : F.depth = fs.length + 1 := by rw [depth, hF, List.length_cons]
  have hfilter : ∀ p : Nat → Bool, ∀ id ∈ f.reverse.filter p, id ∈ f := fun p id hid =>
    List.mem_reverse.mp (List.mem_of_mem_filter hid)
  have hmem : ∀ id, id ∈ f.reverse.filter (T.stays F.depth) ↔ T.stays F.depth id = true := fun id => by
    rw [List.mem_filter, List.mem_reverse]
    exact and_iff_right_of_imp fun hs => h.mem_of_stays hF hs
  have hmoved := moved_foldl_recordAt (F := ⟨fs⟩) T.level hfs
    ((List.nodup_reverse.mpr hf).filter (T.moves F.depth)) fun id hid => hdisjoint (hfilter _ id hid)
  have hstays : ∀ id ∈ f.reverse.filter (T.stays F.depth), id < T.size := fun id hid =>
    hlt id (List.mem_append_left _ (hfilter _ id hid))
  have hgrows : T.Grows (T.generalizeAll (f.reverse.filter (T.stays F.depth))) :=
    generalizeAll_induction _ (.refl h.tame) fun _ id h => h.trans (h.tame.generalize id)
  refine ⟨f.reverse.filter (T.stays F.depth), (List.nodup_reverse.mpr hf).filter _, hmem, ?_⟩
  rw [pop_eq hF hf]
  refine ⟨rfl, rfl, hmoved.depth.trans (by rw [hdepth]; rfl), hgrows.tame,
    ⟨hgrows.tame.acyclic, rfl, fun u hu => ?_, fun id t hb => ?_, fun _ => rfl⟩, hmoved.nodup,
    fun id hid => ?_, fun w hu hg hl => ?_⟩
  · rw [trail_generalizeAll] at hu
    rw [size_generalizeAll]
    exact h.known.trail u hu
  · rw [binding?_generalizeAll] at hb
    rw [size_generalizeAll]
    exact h.known.binding id t hb
  · rw [size_generalizeAll]
    rcases hmoved.mem id hid with hid | hid
    · exact hlt id (List.mem_append_left _ (hfilter _ id hid))
    · exact hlt id (List.mem_append_right _ hid)
  · dsimp only at hu hg hl ⊢
    rw [binding?_generalizeAll] at hu
    rw [level_generalizeAll] at hl ⊢
    rw [isGeneralized_generalizeAll _ hstays, Bool.or_eq_false_iff, decide_eq_false_iff_not] at hg
    have hwaits := h.waits w hu hg.2 hl
    rw [hF] at hwaits
    rcases hwaits with ⟨hm, hle⟩ | hrest
    · -- it waited for the frame that is closed
      have hlow : T.level w < F.depth := by
        by_contra hge
        refine hg.1 ((hmem w).mpr ?_)
        simp [stays, isBound_eq_false.mpr hu, hg.2, Nat.le_of_not_lt hge]
      refine hmoved.waits w (List.mem_filter.mpr ⟨List.mem_reverse.mpr hm, ?_⟩) hl ?_
      · simp [moves, isBound_eq_false.mpr hu, hg.2, hlow]
      · rw [hdepth] at hlow
        exact Nat.le_of_lt_succ hlow
    · exact hmoved.mono _ _ hrest

/-- **Closing a frame** keeps variables where they should wait. -/
theorem pop (h : Placed F T) : Placed (F.pop T).2.1 (F.pop T).2.2 := by
  rcases Nat.eq_zero_or_pos F.depth with hd | hd
  · rw [Frames.pop, List.eq_nil_of_length_eq_zero hd]
    exact h
  · obtain ⟨_, _, _, _, _, _, hplaced⟩ := h.pop_spec hd
    exact hplaced

end Placed

end Frames

end Reified
