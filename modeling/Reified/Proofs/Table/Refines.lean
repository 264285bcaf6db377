import Mathlib.Order.Bounds.Basic
import Reified.Proofs.Table.Known

/-!
# Levels after a unification

A unification that succeeds leaves levels that can be told from the table before and the bindings
afterwards: what is still unbound has the least level of all that stands for it now. A single binding
does that, since the occurs check lowers exactly what remains in the type, and exactly to the level of
the variable. It is not so for a unification that fails: the occurs check that failed may have lowered
levels, and nothing was bound. Members of a union that fail are undone, levels included.

## Main definitions

* `Table.Refines` — the levels and the bindings after a unification that succeeds
* `Table.Drawn` — what is further out than a depth got there by bindings

## Main results

* `Table.Refines.trans` — least levels of least levels
* `Table.refines_bind` — binding a variable
* `Table.Known.unify` — unification
* `Table.Drawn.trans` — one change after the other
-/

namespace Reified

namespace Table

variable {N : Nat} {marks : Nat → Bool} {T T' : Table}

/-! ## Least levels -/

/-- The levels of unbound variables that stand for something in which `w` remains. -/
def levelsAbove (T T' : Table) (w : Nat) : Set Nat :=
  {l | ∃ x : TyVar, T.binding? x.id = none ∧ T'.Reaches (.var x) w ∧ T.level x.id = l}

/-- The second table knows more than the first. What is still unbound has the least level of the
variables in whose place it stands. -/
structure Refines (T T' : Table) : Prop extends T.Advances T' where
  unbound : ∀ w, T'.binding? w = none → T.binding? w = none
  least : ∀ w, T'.binding? w = none → IsLeast (T.levelsAbove T' w) (T'.level w)

/-- What remains in a type is what remains of what a table that knows less says of it. -/
theorem Grows.reaches_iff (h : T.Grows T') {t : Ty} {w : Nat} :
    T'.Reaches t w ↔ ∃ x ∈ (T.deep t).vars, T'.Reaches (.var x) w := by
  rw [← Table.reaches_iff, Reaches, Reaches, h.deep]

/-- A variable is known by its number. -/
theorem reaches_var_congr (hT : T.Acyclic) {v w : TyVar} (h : v.id = w.id) {id : Nat} :
    T.Reaches (.var v) id ↔ T.Reaches (.var w) id := by
  cases hb : T.binding? w.id with
  | none => rw [reaches_var_of_unbound (h.symm ▸ hb), reaches_var_of_unbound hb, h]
  | some s => rw [reaches_var_of_binding hT (h.symm ▸ hb), reaches_var_of_binding hT hb]

namespace Refines

theorem of_steady (h : T.Steady T') (hT : T.Tame) (hlevel : ∀ w, T'.level w = T.level w) :
    T.Refines T' where
  toAdvances := .of_steady h hT
  unbound _ := h.same.unbound_iff.mp
  least w hw := by
    rw [hlevel]
    refine ⟨⟨⟨w, "", false, false⟩, h.same.unbound_iff.mp hw, ?_, rfl⟩, ?_⟩
    · exact (reaches_var_of_unbound hw).mpr rfl
    · rintro l ⟨x, hx, hreach, rfl⟩
      rw [(reaches_var_of_unbound (h.same.unbound_iff.mpr hx)).mp hreach]

theorem refl (hT : T.Tame) : T.Refines T := of_steady (.refl T) hT fun _ => rfl

/-- Shortcuts make no difference. -/
theorem of_shortcut (hT : T.Tame) {id : Nat} {t : Ty} (hb : T.isBound id = true)
    (hdeep : ∀ u, (T.setBinding id t).deep u = T.deep u) (hacyclic : (T.setBinding id t).Acyclic) :
    T.Refines (T.setBinding id t) := by
  have hunbound : ∀ w, (T.setBinding id t).binding? w = none ↔ T.binding? w = none := fun w => by
    rw [binding?_setBinding (lt_size_of_isBound hb)]
    split
    · next hw =>
      obtain ⟨s, hs⟩ := isBound_eq_true.mp (hw ▸ hb)
      simp [hs]
    · rfl
  have hrestores := Restores.setBinding T id t
  refine ⟨⟨⟨⟨hacyclic, fun hq => ?_⟩, fun u => ?_⟩, hrestores⟩, fun w hw => (hunbound w).mp hw,
    fun w hw => ?_⟩
  · rw [hrestores.snapshots] at hq
    rw [hrestores.quiet hq, hT.quiet hq]
  · rw [hdeep, hdeep, deep_deep hT.acyclic]
  · rw [level_setBinding]
    refine ⟨⟨⟨w, "", false, false⟩, (hunbound w).mp hw, (reaches_var_of_unbound hw).mpr rfl, rfl⟩, ?_⟩
    rintro l ⟨x, hx, hreach, rfl⟩
    rw [(reaches_var_of_unbound ((hunbound x.id).mpr hx)).mp hreach]

theorem level_le (h : T.Refines T') {w : Nat} (hw : T'.binding? w = none) : T'.level w ≤ T.level w :=
  (h.least w hw).2 ⟨⟨w, "", false, false⟩, h.unbound w hw, (reaches_var_of_unbound hw).mpr rfl, rfl⟩

/-- Least levels of least levels are least levels. -/
theorem trans {T₁ T₂ T₃ : Table} (h : T₁.Refines T₂) (h' : T₂.Refines T₃) : T₁.Refines T₃ where
  toAdvances := h.toAdvances.trans h'.toAdvances
  unbound w hw := h.unbound w (h'.unbound w hw)
  least w hw := by
    obtain ⟨⟨y, hy, hreach, hlevel⟩, hle⟩ := h'.least w hw
    obtain ⟨⟨x, hx, hreach', hlevel'⟩, -⟩ := h.least y.id hy
    refine ⟨⟨x, hx, ?_, hlevel'.trans hlevel⟩, ?_⟩
    · obtain ⟨z, hz, hid⟩ := hreach'
      exact h'.grows.reaches_iff.mpr ⟨z, hz, (reaches_var_congr h'.grows.tame.acyclic hid).mpr hreach⟩
    · rintro l ⟨x, hx, hreach, rfl⟩
      obtain ⟨y, hy, hreach⟩ := h'.grows.reaches_iff.mp hreach
      have hunbound := unbound_of_mem_vars_deep h.grows.tame.acyclic hy
      calc T₃.level w ≤ T₂.level y.id := hle ⟨y, hunbound, hreach, rfl⟩
        _ ≤ T₁.level x.id := (h.least y.id hunbound).2 ⟨x, hx, ⟨y, hy, rfl⟩, rfl⟩

/-- Nothing but bindings and levels matters to the levels. -/
theorem congr {S S' : Table} (h : T.Refines T') (ha : S.Advances S')
    (hb : ∀ id, S.binding? id = T.binding? id) (hlevel : ∀ w, S.level w = T.level w)
    (hb' : ∀ id, S'.binding? id = T'.binding? id) (hlevel' : ∀ w, S'.level w = T'.level w) :
    S.Refines S' where
  toAdvances := ha
  unbound w hw := hb w ▸ h.unbound w (hb' w ▸ hw)
  least w hw := by
    have hreach : ∀ t w, S'.Reaches t w ↔ T'.Reaches t w := fun t w => by
      rw [Reaches, deep_congr h.grows.tame.acyclic hb']; rfl
    have habove : S.levelsAbove S' w = T.levelsAbove T' w := by
      simp only [levelsAbove, hb, hreach, hlevel]
    rw [habove, hlevel']
    exact h.least w (hb' w ▸ hw)

end Refines

/-- **Binding a variable** that does not remain in the type. -/
theorem refines_bind (hT : T.Tame) {v : TyVar} (hv : v.id < T.size) (hu : T.binding? v.id = none)
    (t : Ty) : (T.bind v t).Leaves T.Refines T.Advances := by
  have hadvances := Advances.bind hT (t := t) (isBound_eq_false.mpr hu)
  obtain ⟨hiff, hsteady⟩ := checks_occurs hT.acyclic v.id (T.level v.id) t
  obtain ⟨hlow, hall⟩ := sinks_occurs hT.acyclic v.id (T.level v.id) t
  unfold Table.bind at hadvances ⊢
  generalize T.occurs v.id (T.level v.id) t = r at hiff hsteady hlow hall hadvances ⊢
  obtain ⟨b, S⟩ := r
  cases b with
  | true => exact hadvances
  | false =>
    have hnot : ¬ T.Reaches t v.id := fun h => Bool.false_ne_true (hiff.mpr h)
    have hvS : v.id < S.size := hsteady.same.size.symm ▸ hv
    have huS := hsteady.same.unbound_iff.mpr hu
    have hnotS : ¬ S.Reaches t v.id := by
      rw [Reaches, hsteady.same.deep]
      exact hnot
    have hdeep := deep_setBinding (hsteady.acyclic hT.acyclic) hvS huS hnotS
    have hunbound : ∀ w, (S.setBinding v.id t).binding? w = none → w ≠ v.id ∧ T.binding? w = none :=
      fun w hw => by
        rw [binding?_setBinding hvS] at hw
        split at hw
        · simp at hw
        · next hne => exact ⟨hne, hsteady.same.unbound_iff.mp hw⟩
    -- an unbound variable stands for itself, or for the type if it is the one that was bound
    have hreach : ∀ x : TyVar, T.binding? x.id = none → ∀ w,
        (S.setBinding v.id t).Reaches (.var x) w ↔
          if x.id = v.id then T.Reaches t w else x.id = w := fun x hx w => by
      rw [Reaches, hdeep, deep_var_of_unbound (hsteady.same.unbound_iff.mpr hx), Ty.subst]
      split
      · rw [hsteady.same.deep]; rfl
      · simp [Ty.vars]
    refine ⟨hadvances, fun w hw => (hunbound w hw).2, fun w hw => ?_⟩
    obtain ⟨hne, huw⟩ := hunbound w hw
    rw [level_setBinding]
    have hself : T.level w ∈ T.levelsAbove (S.setBinding v.id t) w :=
      ⟨⟨w, "", false, false⟩, huw, (hreach _ huw w).mpr (by simp [hne]), rfl⟩
    have hbound : T.Reaches t w → T.level v.id ∈ T.levelsAbove (S.setBinding v.id t) w := fun h =>
      ⟨v, hu, (hreach v hu w).mpr (by simpa using h), rfl⟩
    refine ⟨?_, ?_⟩
    · rcases hlow w with h | ⟨h, -, heq⟩
      · rw [h]
        exact hself
      · rw [heq]
        exact hbound h
    · rintro l ⟨x, hx, hxw, rfl⟩
      rw [hreach x hx] at hxw
      split at hxw
      · next hid => exact hid ▸ hall rfl w hxw
      · exact hxw ▸ hlow.le x.id

/-! ## Unification -/

theorem outcomes_refines (N : Nat) (marks : Nat → Bool) :
    Outcomes (fun T => T.Tame ∧ Known N marks T) (fun T T' => T.Refines T' ∧ Known N marks T')
      (fun T T' => T.Advances T' ∧ Known N marks T') (Below N) fun T t => T.binds t = false where
  part hc ht v hv := ht v (hc.vars_subset hv)
  keeps _ h := ⟨h.1.grows.tame, h.2⟩
  weaken h := ⟨h.1.toAdvances, h.2⟩
  refl h := ⟨.refl h.1, h.2⟩
  trans h h' := ⟨h.1.trans h'.1, h'.2⟩
  trans_fails h h' := ⟨h.1.trans h'.1, h'.2⟩
  snapshot h := ⟨⟨h.1.acyclic, fun hq => absurd hq (Nat.succ_ne_zero _)⟩, h.2.snapshot⟩
  rollback h h' := by
    rw [h'.1.restores.rollback_eq h.1.quiet]
    exact ⟨.refl h.1, h.2⟩
  commit {T T'} h h' := by
    have hlevel : ∀ w, T'.commit.level w = T'.level w := fun w => by
      unfold Table.commit close; split <;> rfl
    have hb : ∀ w, T'.commit.binding? w = T'.binding? w := fun w => by
      unfold Table.commit close; split <;> rfl
    exact ⟨h'.1.congr (Advances.stable.commit h.1 h'.1.toAdvances) (fun _ => rfl) (fun _ => rfl) hb
      hlevel, h'.2.commit⟩
  unbound h := h
  resolve {T a} h ha := by
    obtain ⟨hkind, hkeep⟩ := (Known.lowering N marks).resolve h.2 ha
    refine ⟨hkind, .of_steady (steady_resolve h.2.acyclic a).1 h.1 fun w => ?_, hkeep⟩
    exact (level_resolve h.2.acyclic a w).1
  resolve_final {T a b} h _ _ := by
    obtain ⟨h₁, -, hf₁⟩ := steady_resolve h.2.acyclic a
    obtain ⟨h₂, -, hf₂⟩ := steady_resolve (h₁.acyclic h.2.acyclic) b
    exact ⟨(h₂.same.binds _).trans hf₁, hf₂⟩
  mismatch h ha hb := by
    refine ⟨Advances.mismatch h.1 _ _, ?_⟩
    exact (Known.lowering N marks).resolveDeep ((Known.lowering N marks).resolveDeep h.2 ha) hb
  missingField field h ha := ⟨Advances.missingField h.1 field _,
    (Known.lowering N marks).resolveDeep h.2 ha⟩
  bind h hv hf _ ht := by
    have hid := hv _ (List.mem_singleton_self _)
    have hu := isBound_eq_false.mp hf
    exact (refines_bind h.1 (h.2.size.symm ▸ hid) hu _).and (h.2.bind hid hu ht)

/-- **The levels after a unification.** If it succeeds, each unbound variable has the least level of those
in whose place it stands. -/
theorem Known.unify (hT : Known N marks T) (ht : T.Tame) {a b : Ty} (ha : Below N a)
    (hb : Below N b) :
    (T.unify a b).Leaves (fun T' => T.Refines T' ∧ Known N marks T')
      fun T' => T.Advances T' ∧ Known N marks T' :=
  (outcomes_refines N marks).unify ⟨ht, hT⟩ ha hb

/-! ## Further out than a depth -/

/-- Whatever is unbound and further out than the depth remains in something that was there before, unbound
and as far out. -/
def Drawn (depth : Nat) (T T' : Table) : Prop :=
  ∀ w < T'.size, T'.binding? w = none → T'.level w < depth →
    ∃ x : TyVar, x.id < T.size ∧ T.binding? x.id = none ∧ T.level x.id = T'.level w ∧
      T'.Reaches (.var x) w

namespace Drawn

variable {depth e : Nat}

/-- What was unbound and as far out before remains in itself. -/
theorem of_level (hs : T'.size = T.size) (hu : ∀ w, T'.binding? w = none → T.binding? w = none)
    (hl : ∀ w, T'.level w = T.level w) : T.Drawn depth T' := fun w hw hb _ =>
  ⟨⟨w, "", false, false⟩, hs ▸ hw, hu w hb, (hl w).symm, (reaches_var_of_unbound hb).mpr rfl⟩

theorem refl (T : Table) : T.Drawn depth T := of_level rfl (fun _ h => h) fun _ => rfl

theorem mono (h : T.Drawn depth T') (hle : e ≤ depth) : T.Drawn e T' := fun w hw hb hl =>
  h w hw hb (hl.trans_le hle)

/-- One change after the other, if the second only learns. -/
theorem trans {T₁ T₂ T₃ : Table} (h : T₁.Drawn depth T₂) (h' : T₂.Drawn depth T₃)
    (hgrows : T₂.Grows T₃) : T₁.Drawn depth T₃ := by
  intro w hw hb hl
  obtain ⟨y, hy, hyb, hyl, hreach⟩ := h' w hw hb hl
  obtain ⟨x, hx, hxb, hxl, z, hz, hid⟩ := h y.id hy hyb (hyl ▸ hl)
  refine ⟨x, hx, hxb, hxl.trans hyl, hgrows.reaches_iff.mpr ⟨z, hz, ?_⟩⟩
  exact (reaches_var_congr hgrows.tame.acyclic hid).mpr hreach

/-- A new variable is not further out than the depth at which it is created. -/
theorem newVar (name : String) (inferred rigid : Bool) {level : Nat} (hle : depth ≤ level) :
    T.Drawn depth (T.newVar name inferred rigid level).2 := by
  intro w hw hb hl
  rw [size_newVar] at hw
  rw [level_newVar] at hl ⊢
  split at hl
  · exact absurd hle (Nat.not_le.mpr hl)
  · next hne =>
    rw [if_neg hne]
    refine ⟨⟨w, "", false, false⟩, by dsimp only; omega, ?_, rfl, (reaches_var_of_unbound hb).mpr rfl⟩
    rwa [binding?_newVar] at hb

end Drawn

/-- A unification that succeeds lowers levels by bindings only. -/
theorem Refines.drawn {depth : Nat} (h : T.Refines T') (hs : T'.size = T.size) : T.Drawn depth T' := by
  intro w hw hb _
  obtain ⟨⟨x, hx, hreach, hlevel⟩, -⟩ := h.least w hb
  refine ⟨x, ?_, hx, hlevel, hreach⟩
  by_contra hge
  -- an unknown variable stands for itself
  have hux := binding?_of_size_le (T := T') (hs ▸ Nat.le_of_not_lt hge)
  rw [reaches_var_of_unbound hux] at hreach
  omega

end Table

end Reified
