import Reified.Proofs.Frames.Settle
import Reified.Proofs.Table.Graded
import Reified.Proofs.Table.Refines

/-!
# Live types

While it is inside some frames, the checker works with live types: nothing that remains in one is
generalized or belongs to a frame further in. What names stand for may have generalized variables besides,
which are replaced by live ones when the name is used. Working with live types, the checker never binds a
variable that has been generalized, and live types and what names stand for remain so, up to the depth at
which the work is done.

A set of variables may be set apart. If in nothing that the checker works with they remain other than as
rigid ones, they are left alone as well: a rigid variable equals only itself.

## Main definitions

* `Table.Remains` — a property of everything that remains in a type
* `Table.Live`, `Table.Scheme` — types to work with, and what names may stand for
* `Table.Evolves` — a later table, for which earlier types of both kinds are still such
* `Table.Healthy` — what is asked of tables

## Main results

* `Table.works_unify` — unification of live types
* `Table.Remains.substitute` — live types in place of what remains in a live type
* `Table.evolves_generalizeAll` — closing a frame
-/

namespace Reified

namespace Table

variable {T T' : Table} {P Q : TyVar → Prop}

/-! ## What remains in a type -/

/-- The type is over the variables of the table, and everything that remains in it has the property. -/
structure Remains (P : TyVar → Prop) (T : Table) (t : Ty) : Prop where
  below : Below T.size t
  deep : ∀ w ∈ (T.deep t).vars, P w

namespace Remains

theorem iff_vars {t : Ty} : T.Remains P t ↔ ∀ v ∈ t.vars, T.Remains P (.var v) := by
  constructor
  · intro h v hv
    refine ⟨fun x hx => List.eq_of_mem_singleton hx ▸ h.below v hv, fun w hw => h.deep w ?_⟩
    rw [deep_eq_subst]
    exact Ty.mem_vars_subst.mpr ⟨v, hv, hw⟩
  · intro h
    refine ⟨fun v hv => (h v hv).below v (List.mem_singleton_self v), fun w hw => ?_⟩
    rw [deep_eq_subst] at hw
    obtain ⟨v, hv, hw⟩ := Ty.mem_vars_subst.mp hw
    exact (h v hv).deep w hw

theorem mono {t : Ty} (h : T.Remains P t) (hPQ : ∀ w, P w → Q w) : T.Remains Q t :=
  ⟨h.below, fun w hw => hPQ w (h.deep w hw)⟩

theorem part {c t : Ty} (h : T.Remains P t) (hc : c.Part t) : T.Remains P c :=
  iff_vars.mpr fun v hv => iff_vars.mp h v (hc.vars_subset hv)

theorem of_parts {t : Ty} (h : ∀ v ∈ t.vars, ∃ c, v ∈ c.vars ∧ T.Remains P c) : T.Remains P t :=
  iff_vars.mpr fun v hv => by
    obtain ⟨c, hvc, hc⟩ := h v hv
    exact iff_vars.mp hc v hvc

theorem name (n : String) : T.Remains P (.name n) := of_parts nofun

theorem array {t : Ty} (h : T.Remains P t) : T.Remains P (.array t) :=
  of_parts fun _ hv => ⟨t, hv, h⟩

theorem binding {n : String} {t : Ty} (h : T.Remains P t) : T.Remains P (.binding n t) :=
  of_parts fun _ hv => ⟨t, hv, h⟩

theorem union {a b : Ty} (ha : T.Remains P a) (hb : T.Remains P b) : T.Remains P (.union a b) :=
  of_parts fun _ hv => (List.mem_append.mp hv).elim (fun h => ⟨a, h, ha⟩) fun h => ⟨b, h, hb⟩

theorem tuple {ts : List Ty} (h : ∀ t ∈ ts, T.Remains P t) : T.Remains P (.tuple ts) :=
  of_parts fun v hv => by
    rw [Ty.vars, Ty.varsList_eq] at hv
    obtain ⟨t, ht, hv⟩ := List.mem_flatMap.mp hv
    exact ⟨t, hv, h t ht⟩

theorem record {fs : List (String × Ty)} (h : ∀ f ∈ fs, T.Remains P f.2) :
    T.Remains P (.record fs) :=
  of_parts fun v hv => by
    rw [Ty.vars, Ty.varsFields_eq] at hv
    obtain ⟨f, hf, hv⟩ := List.mem_flatMap.mp hv
    exact ⟨f.2, hv, h f hf⟩

theorem fn {ps : List Ty} {r : Ty} {k : Nat} (hps : ∀ t ∈ ps, T.Remains P t) (hr : T.Remains P r) :
    T.Remains P (.fn ps r k) :=
  of_parts fun v hv => by
    rw [Ty.vars, Ty.varsList_eq] at hv
    rcases List.mem_append.mp hv with hv | hv
    · obtain ⟨t, ht, hv⟩ := List.mem_flatMap.mp hv
      exact ⟨t, hv, hps t ht⟩
    · exact ⟨r, hv, hr⟩

/-- An unbound variable remains in itself only. -/
theorem of_unbound {v : TyVar} (hv : v.id < T.size) (hu : T.binding? v.id = none) (hP : P v) :
    T.Remains P (.var v) := by
  refine ⟨fun _ hx => List.eq_of_mem_singleton hx ▸ hv, fun w hw => ?_⟩
  rw [deep_var_of_unbound hu] at hw
  exact List.eq_of_mem_singleton hw ▸ hP

theorem unbound {v : TyVar} (h : T.Remains P (.var v)) (hu : T.binding? v.id = none) : P v :=
  h.deep v (by rw [deep_var_of_unbound hu]; exact List.mem_singleton_self v)

/-- The property may be asked of another type that stands for the same. -/
theorem congr {t u : Ty} (h : T.Remains P t) (hu : Below T.size u) (hdeep : T.deep u = T.deep t) :
    T.Remains P u :=
  ⟨hu, fun w hw => h.deep w (hdeep ▸ hw)⟩

end Remains

/-- The variable is not set apart, or occurs as a rigid one. -/
def Spares (X : Nat → Prop) (w : TyVar) : Prop := X w.id → w.rigid = true

/-- A variable that is not set apart or occurs as a rigid one, neither generalized nor further in than the
depth. -/
def IsLive (X : Nat → Prop) (depth : Nat) (T : Table) (w : TyVar) : Prop :=
  Spares X w ∧ T.isGeneralized w.id = false ∧ T.level w.id ≤ depth

/-- A variable that is not set apart or occurs as a rigid one, and is generalized or not further in than
the depth. -/
def IsKept (X : Nat → Prop) (depth : Nat) (T : Table) (w : TyVar) : Prop :=
  Spares X w ∧ (T.isGeneralized w.id = true ∨ T.level w.id ≤ depth)

/-- A type that the checker works with at a depth. -/
abbrev Live (X : Nat → Prop) (depth : Nat) (T : Table) (t : Ty) : Prop :=
  T.Remains (IsLive X depth T) t

/-- A type that a name may stand for at a depth. -/
abbrev Scheme (X : Nat → Prop) (depth : Nat) (T : Table) (t : Ty) : Prop :=
  T.Remains (IsKept X depth T) t

variable {X : Nat → Prop} {d e depth : Nat} {t : Ty}

theorem Live.scheme (h : T.Live X depth t) : T.Scheme X depth t :=
  h.mono fun _ h => ⟨h.1, .inr h.2.2⟩

theorem Live.mono_depth (h : T.Live X depth t) (hle : depth ≤ e) : T.Live X e t :=
  h.mono fun _ h => ⟨h.1, h.2.1, h.2.2.trans hle⟩

theorem Scheme.mono_depth (h : T.Scheme X depth t) (hle : depth ≤ e) : T.Scheme X e t :=
  h.mono fun _ h => ⟨h.1, h.2.imp_right fun h => h.trans hle⟩

/-! ## Later tables -/

/-- A later table: it has learnt, what was live or a scheme up to the depth still is, and what was
generalized or set apart has not been bound. -/
structure Evolves (X : Nat → Prop) (depth : Nat) (T T' : Table) : Prop where
  grows : T.Grows T'
  size : T.size ≤ T'.size
  marks : ∀ w, T.isGeneralized w = true → T'.isGeneralized w = true
  sealed : ∀ w, X w ∨ T.isGeneralized w = true → T.binding? w = none → T'.binding? w = none
  /-- What is set apart stays as far in as it is, at most. -/
  apart : ∀ w < T.size, X w → T.binding? w = none → T.level w ≤ depth →
    T'.isGeneralized w = T.isGeneralized w ∧ T'.level w ≤ T.level w
  live : ∀ e ≤ depth, ∀ t, T.Live X e t → T'.Live X e t
  scheme : ∀ e ≤ depth, ∀ t, T.Scheme X e t → T'.Scheme X e t

namespace Evolves

theorem refl (hT : T.Tame) : T.Evolves X depth T :=
  ⟨.refl hT, le_rfl, fun _ h => h, fun _ _ h => h, fun _ _ _ _ _ => ⟨rfl, le_rfl⟩, fun _ _ _ h => h,
    fun _ _ _ h => h⟩

theorem trans {T₁ T₂ T₃ : Table} (h : T₁.Evolves X depth T₂) (h' : T₂.Evolves X depth T₃) :
    T₁.Evolves X depth T₃ where
  grows := h.grows.trans h'.grows
  size := h.size.trans h'.size
  marks w hw := h'.marks w (h.marks w hw)
  sealed w hw hu := h'.sealed w (hw.imp_right (h.marks w)) (h.sealed w hw hu)
  apart w hw hX hu hl := by
    obtain ⟨hg, hle⟩ := h.apart w hw hX hu hl
    obtain ⟨hg', hle'⟩ := h'.apart w (hw.trans_le h.size) hX (h.sealed w (.inl hX) hu) (hle.trans hl)
    exact ⟨hg'.trans hg, hle'.trans hle⟩
  live e he t ht := h'.live e he t (h.live e he t ht)
  scheme e he t ht := h'.scheme e he t (h.scheme e he t ht)

theorem mono_depth (h : T.Evolves X depth T') (hle : e ≤ depth) : T.Evolves X e T' :=
  { h with
    apart := fun w hw hX hu hl => h.apart w hw hX hu (hl.trans hle)
    live := fun k hk => h.live k (hk.trans hle)
    scheme := fun k hk => h.scheme k (hk.trans hle) }

/-- What an unbound variable stands for later: itself, its level not higher than before, or, if it was not
generalized, live variables of no higher level. -/
def Replaces (X : Nat → Prop) (depth : Nat) (T T' : Table) (x w : TyVar) : Prop :=
  w = x ∧ T'.level w.id ≤ T.level w.id ∧
      (T.level w.id ≤ depth → T'.isGeneralized w.id = T.isGeneralized w.id) ∨
    T.isGeneralized x.id = false ∧ Spares X w ∧ T'.isGeneralized w.id = false ∧ T'.level w.id ≤ T.level x.id

theorem of_replaces (hT : T.Acyclic) (hgrows : T.Grows T') (hsize : T.size ≤ T'.size)
    (hmarks : ∀ w, T.isGeneralized w = true → T'.isGeneralized w = true)
    (hsealed : ∀ w, X w ∨ T.isGeneralized w = true → T.binding? w = none → T'.binding? w = none)
    (h : ∀ x : TyVar, x.id < T.size → T.binding? x.id = none → ∀ w ∈ (T'.deep (.var x)).vars,
      Replaces X depth T T' x w)
    (hk : ∀ id t, T.binding? id = some t → Below T.size t) : T.Evolves X depth T' := by
  have below : ∀ t, Below T.size t → Below T'.size t := fun t ht v hv => (ht v hv).trans_le hsize
  have reach : ∀ {t w}, Below T.size t → w ∈ (T'.deep t).vars → ∃ x ∈ (T.deep t).vars,
      Replaces X depth T T' x w := fun {t w} ht hw => by
    rw [← hgrows.deep, deep_eq_subst] at hw
    obtain ⟨x, hx, hxw⟩ := Ty.mem_vars_subst.mp hw
    exact ⟨x, hx, h x (below_deep hT hk ht x hx) (unbound_of_mem_vars_deep hT hx) w hxw⟩
  refine ⟨hgrows, hsize, hmarks, hsealed, fun w hw hX hu hl => ?_,
    fun e he t ht => ⟨below t ht.below, fun w hw => ?_⟩,
    fun e he t ht => ⟨below t ht.below, fun w hw => ?_⟩⟩
  · -- as a flexible one it is not live
    let x : TyVar := ⟨w, "", false, false⟩
    have hself : x ∈ (T'.deep (.var x)).vars := by
      rw [deep_var_of_unbound (hsealed w (.inl hX) hu)]
      exact List.mem_singleton_self x
    rcases h x hw hu x hself with ⟨-, hle, hsame⟩ | ⟨-, hspares, -⟩
    · exact ⟨hsame hl, hle⟩
    · exact absurd (hspares hX) Bool.false_ne_true
  · obtain ⟨x, hx, hxw⟩ := reach ht.below hw
    obtain ⟨hX, hg, hl⟩ := ht.deep x hx
    rcases hxw with ⟨rfl, hle, hsame⟩ | ⟨-, hX', hg', hle⟩
    · exact ⟨hX, (hsame (hl.trans he)).trans hg, hle.trans hl⟩
    · exact ⟨hX', hg', hle.trans hl⟩
  · obtain ⟨x, hx, hxw⟩ := reach ht.below hw
    obtain ⟨hX, hl⟩ := ht.deep x hx
    rcases hxw with ⟨rfl, hle, -⟩ | ⟨hg, hX', -, hle⟩
    · exact ⟨hX, hl.imp (hmarks w.id) hle.trans⟩
    · rw [hg] at hl
      exact ⟨hX', .inr (hle.trans (hl.resolve_left Bool.false_ne_true))⟩

end Evolves

/-! ## Healthy tables -/

/-- A table that can only be rolled back to what it was, in which only its own variables occur and what a
variable stands for has no higher level. -/
structure Healthy (T : Table) : Prop where
  tame : T.Tame
  known : Known T.size T.isGeneralized T
  graded : T.Graded

namespace Healthy

theorem below_binding (hT : T.Healthy) (id : Nat) (t : Ty) (h : T.binding? id = some t) :
    Below T.size t :=
  hT.known.binding id t h

theorem newVar (hT : T.Healthy) (name : String) (inferred rigid : Bool) (level : Nat) :
    (T.newVar name inferred rigid level).2.Healthy := by
  have hgrows := hT.tame.newVar name inferred rigid level
  refine ⟨hgrows.tame, ⟨hgrows.tame.acyclic, rfl, fun u hu => ?_, fun id t hb v hv => ?_, fun _ => rfl⟩,
    hT.graded.newVar hT.tame.acyclic hT.below_binding name inferred rigid level⟩
  · rw [size_newVar]
    exact Nat.lt_succ_of_lt (hT.known.trail u hu)
  · rw [binding?_newVar] at hb
    rw [size_newVar]
    exact Nat.lt_succ_of_lt (hT.below_binding id t hb v hv)

theorem generalizeAll (hT : T.Healthy) (ids : List Nat) : (T.generalizeAll ids).Healthy := by
  have hgrows : T.Grows (T.generalizeAll ids) :=
    generalizeAll_induction _ (.refl hT.tame) fun _ id h => h.trans (h.tame.generalize id)
  refine ⟨hgrows.tame, ⟨hgrows.tame.acyclic, rfl, fun u hu => ?_, fun id t hb => ?_, fun _ => rfl⟩,
    hT.graded.congr hT.tame.acyclic (binding?_generalizeAll ids) (level_generalizeAll ids)⟩
  · rw [trail_generalizeAll] at hu
    rw [size_generalizeAll]
    exact hT.known.trail u hu
  · rw [binding?_generalizeAll] at hb
    rw [size_generalizeAll]
    exact hT.below_binding id t hb

end Healthy

/-- Only variables of the table remain in a type. -/
theorem Remains.lt_size (hT : T.Healthy) (h : T.Remains P t) :
    T.Remains (fun w => P w ∧ w.id < T.size) t :=
  ⟨h.below, fun w hw => ⟨h.deep w hw, below_deep hT.tame.acyclic hT.below_binding h.below w hw⟩⟩

/-- If only new variables are set apart, then they need not be. -/
theorem Evolves.forget (h : T.Evolves X depth T') (hT : T.Healthy) (hX : ∀ w, X w → T.size ≤ w) :
    T.Evolves (fun _ => False) depth T' := by
  have hnot : ∀ w : TyVar, w.id < T.size → Spares X w := fun w hw hXw =>
    absurd (hX w.id hXw) (Nat.not_le_of_lt hw)
  refine ⟨h.grows, h.size, h.marks, fun w hw => h.sealed w (hw.imp_left False.elim), fun _ _ => nofun,
    fun e he t ht => ?_, fun e he t ht => ?_⟩
  · exact (h.live e he t ((ht.lt_size hT).mono fun w hw => ⟨hnot w hw.2, hw.1.2⟩)).mono fun w hw =>
      ⟨False.elim, hw.2⟩
  · exact (h.scheme e he t ((ht.lt_size hT).mono fun w hw => ⟨hnot w hw.2, hw.1.2⟩)).mono fun w hw =>
      ⟨False.elim, hw.2⟩

/-- Nothing that was there can reach what is set apart from now on. -/
theorem Live.widen {Y : Nat → Prop} (hT : T.Healthy) (h : T.Live X depth t)
    (hY : ∀ w, Y w → X w ∨ T.size ≤ w) : T.Live Y depth t :=
  (h.lt_size hT).mono fun w hw =>
    ⟨fun hYw => hw.1.1 ((hY w.id hYw).resolve_right (Nat.not_le.mpr hw.2)), hw.1.2⟩

theorem Scheme.widen {Y : Nat → Prop} (hT : T.Healthy) (h : T.Scheme X depth t)
    (hY : ∀ w, Y w → X w ∨ T.size ≤ w) : T.Scheme Y depth t :=
  (h.lt_size hT).mono fun w hw =>
    ⟨fun hYw => hw.1.1 ((hY w.id hYw).resolve_right (Nat.not_le.mpr hw.2)), hw.1.2⟩

/-- More may be set apart, if it is new. -/
theorem Evolves.widen {Y : Nat → Prop} (h : T.Evolves X depth T') (hT' : T'.Healthy)
    (hXY : ∀ w, X w → Y w) (hYX : ∀ w, Y w → X w ∨ T'.size ≤ w) : T.Evolves Y depth T' where
  grows := h.grows
  size := h.size
  marks := h.marks
  sealed w hw hu := by
    rcases hw with hw | hw
    · exact (hYX w hw).elim (fun hw => h.sealed w (.inl hw) hu) binding?_of_size_le
    · exact h.sealed w (.inr hw) hu
  apart w hw hYw := h.apart w hw ((hYX w hYw).resolve_right (Nat.not_le.mpr (hw.trans_le h.size)))
  live e he t ht := (h.live e he t (ht.mono fun w hw => ⟨fun hX => hw.1 (hXY _ hX), hw.2⟩)).widen hT' hYX
  scheme e he t ht :=
    (h.scheme e he t (ht.mono fun w hw => ⟨fun hX => hw.1 (hXY _ hX), hw.2⟩)).widen hT' hYX

theorem evolves_newVar (hT : T.Healthy) (name : String) (inferred rigid : Bool) (level : Nat) :
    T.Evolves X depth (T.newVar name inferred rigid level).2 := by
  have hb := binding?_newVar (T := T) name inferred rigid level
  refine .of_replaces hT.tame.acyclic (hT.tame.newVar name inferred rigid level) (by simp)
    (fun w hw => (isGeneralized_newVar name inferred rigid level w).trans hw)
    (fun w _ hu => (hb w).trans hu) (fun x hx hu w hw => ?_) hT.below_binding
  rw [deep_var_of_unbound ((hb x.id).trans hu)] at hw
  obtain rfl := List.eq_of_mem_singleton hw
  refine .inl ⟨rfl, ?_, fun _ => isGeneralized_newVar name inferred rigid level w.id⟩
  rw [level_newVar, if_neg hx.ne]

/-- A new variable is live. -/
theorem live_newVar (hX : ∀ w, X w → w < T.size) (name : String) (inferred rigid : Bool) (level : Nat) :
    (T.newVar name inferred rigid level).2.Live X level (.var (T.newVar name inferred rigid level).1) := by
  have hnone : T.isGeneralized T.size = false := by
    simp [isGeneralized, size]
  refine .of_unbound ?_ ?_ ⟨fun h => absurd (hX T.size h) (lt_irrefl _), ?_, ?_⟩
  · rw [size_newVar]
    exact Nat.lt_succ_self _
  · rw [binding?_newVar]
    exact binding?_of_size_le le_rfl
  · rw [isGeneralized_newVar]
    exact hnone
  · rw [level_newVar]
    exact (if_pos rfl).le

/-- Marking what is further in than the depth. -/
theorem evolves_generalizeAll (hT : T.Healthy) {ids : List Nat}
    (hids : ∀ id ∈ ids, id < T.size ∧ depth < T.level id) :
    T.Evolves X depth (T.generalizeAll ids) := by
  have hgrows : T.Grows (T.generalizeAll ids) :=
    generalizeAll_induction _ (.refl hT.tame) fun _ id h => h.trans (h.tame.generalize id)
  have hmarks := isGeneralized_generalizeAll ids fun id hid => (hids id hid).1
  refine .of_replaces hT.tame.acyclic hgrows (size_generalizeAll ids).ge
    (fun w hw => by rw [hmarks, hw, Bool.or_true])
    (fun w _ hu => (binding?_generalizeAll ids w).trans hu) (fun x hx hu w hw => ?_) hT.below_binding
  rw [deep_var_of_unbound ((binding?_generalizeAll ids x.id).trans hu)] at hw
  obtain rfl := List.eq_of_mem_singleton hw
  refine .inl ⟨rfl, (level_generalizeAll ids w.id).le, fun hle => ?_⟩
  rw [hmarks, decide_eq_false fun hid => Nat.not_lt.mpr hle (hids _ hid).2, Bool.false_or]

/-- When all that is further in than the depth has been marked, every type is a scheme. -/
theorem scheme_generalizeAll (hT : T.Acyclic) {ids : List Nat}
    (hids : ∀ id, id ∈ ids ↔ T.stays (depth + 1) id = true) (ht : T.Remains (Spares X) t) :
    (T.generalizeAll ids).Scheme X depth t := by
  have hlt : ∀ id ∈ ids, id < T.size := fun id hid => by
    have hstays := (hids id).mp hid
    simp only [stays, Bool.and_eq_true, decide_eq_true_eq] at hstays
    exact lt_size_of_lt_level hstays.2
  refine ⟨(size_generalizeAll (T := T) ids).symm ▸ ht.below, fun w hw => ?_⟩
  rw [deep_congr hT (binding?_generalizeAll ids)] at hw
  refine ⟨ht.deep w hw, ?_⟩
  rw [isGeneralized_generalizeAll ids hlt, level_generalizeAll, Bool.or_eq_true, decide_eq_true_eq, hids]
  by_contra hnot
  simp only [not_or, Bool.not_eq_true] at hnot
  obtain ⟨⟨hstays, hg⟩, hlevel⟩ := hnot
  have hu := isBound_eq_false.mpr (unbound_of_mem_vars_deep hT hw)
  simp [stays, hu, hg, Nat.succ_le_of_lt (Nat.lt_of_not_le hlevel)] at hstays

/-! ## Shortcuts -/

/-- A table that differs by shortcuts only. -/
structure Unchanged (T T' : Table) : Prop where
  healthy : T'.Healthy
  grows : T.Grows T'
  size : T'.size = T.size
  level : ∀ w, T'.level w = T.level w
  marks : ∀ w, T'.isGeneralized w = T.isGeneralized w
  deep : ∀ t, T'.deep t = T.deep t
  unbound : ∀ w, T'.binding? w = none ↔ T.binding? w = none

namespace Unchanged

theorem refl (hT : T.Healthy) : T.Unchanged T :=
  ⟨hT, .refl hT.tame, rfl, fun _ => rfl, fun _ => rfl, fun _ => rfl, fun _ => .rfl⟩

theorem shortcut (h : T.Unchanged T') {id : Nat} {t : Ty} (ht : Below T.size t)
    (hb : T'.isBound id = true) (hdeep : ∀ u, (T'.setBinding id t).deep u = T'.deep u)
    (hacyclic : (T'.setBinding id t).Acyclic) : T.Unchanged (T'.setBinding id t) := by
  have hid := lt_size_of_isBound hb
  have hlevel := level_setBinding (T := T') id t
  have hrefines := Refines.of_shortcut h.healthy.tame hb hdeep hacyclic
  have hsize := size_setBinding (T := T') id t
  have hknown := h.healthy.known.setBinding hid (h.size.symm ▸ ht) hacyclic
  refine ⟨⟨hrefines.grows.tame, ⟨hacyclic, rfl, fun u hu => ?_, fun id t hb => ?_, fun _ => rfl⟩,
    h.healthy.graded.of_deep_eq hdeep hlevel⟩, h.grows.trans hrefines.grows, hsize.trans h.size,
    fun w => (hlevel w).trans (h.level w), fun w => (isGeneralized_setBinding id t w).trans (h.marks w),
    fun u => (hdeep u).trans (h.deep u), fun w => ?_⟩
  · exact hsize ▸ hknown.trail u hu
  · exact hsize ▸ hknown.binding id t hb
  · rw [← h.unbound, binding?_setBinding hid]
    split
    · next hw =>
      obtain ⟨s, hs⟩ := isBound_eq_true.mp (hw ▸ hb)
      simp [hs]
    · rfl

theorem known (h : T.Unchanged T') : Known T.size T.isGeneralized T' where
  acyclic := h.healthy.tame.acyclic
  size := h.size
  trail u hu := h.size ▸ h.healthy.known.trail u hu
  binding id t hb := h.size ▸ h.healthy.known.binding id t hb
  marks := h.marks

theorem shortcuts : Shortcuts T.Unchanged (Below T.size) where
  acyclic h := h.healthy.tame.acyclic
  bound h _ hb := h.size ▸ h.healthy.below_binding _ _ hb
  var ht hv _ hw := List.eq_of_mem_singleton hw ▸ ht _ hv
  shortcut h _ ht hb hdeep hacyclic := h.shortcut ht hb hdeep hacyclic

theorem evolves (h : T.Unchanged T') (hT : T.Healthy) : T.Evolves X depth T' := by
  refine .of_replaces hT.tame.acyclic h.grows h.size.ge (fun w hw => (h.marks w).trans hw)
    (fun w _ hu => (h.unbound w).mpr hu) (fun x hx hu w hw => ?_) hT.below_binding
  rw [deep_var_of_unbound ((h.unbound x.id).mpr hu)] at hw
  obtain rfl := List.eq_of_mem_singleton hw
  exact .inl ⟨rfl, (h.level w.id).le, fun _ => h.marks w.id⟩

end Unchanged

theorem unchanged_resolve (hT : T.Healthy) (ht : Below T.size t) :
    T.Unchanged (T.resolve t).2 ∧ Below T.size (T.resolve t).1 ∧ T.deep (T.resolve t).1 = T.deep t := by
  obtain ⟨hkind, hkeep⟩ := Unchanged.shortcuts.resolve (.refl hT) ht
  exact ⟨hkeep, hkind, (hT.tame.resolve t).2⟩

theorem unchanged_resolveDeep (hT : T.Healthy) (ht : Below T.size t) :
    T.Unchanged (T.resolveDeep t).2 ∧ (T.resolveDeep t).1 = T.deep t :=
  ⟨Unchanged.shortcuts.resolveDeep (.refl hT) ht, (hT.tame.resolveDeep t).2⟩

/-! ## Unification -/

/-- What the unification of live types does to a table: the bindings of other variables stay as they are,
live variables are bound to live types, and levels sink. -/
structure Works (X : Nat → Prop) (depth : Nat) (T S : Table) : Prop where
  tame : S.Tame
  graded : S.Graded
  known : Known T.size T.isGeneralized S
  level : ∀ w, S.level w ≤ T.level w
  unbound : ∀ w, S.binding? w = none → T.binding? w = none
  apart : ∀ w, X w → S.binding? w = none
  inside : ∀ (v : TyVar) t, T.Live X depth (.var v) → S.binding? v.id = some t →
    ∀ w ∈ t.vars, T.Live X depth (.var w)
  outside : ∀ v : TyVar, ¬ T.Live X depth (.var v) → S.binding? v.id = T.binding? v.id

/-- A variable that is not set apart is known by its number. -/
theorem Live.var_congr (hT : T.Acyclic) {v w : TyVar} (h : T.Live X depth (.var v)) (hX : ¬ X v.id)
    (hid : w.id = v.id) : T.Live X depth (.var w) := by
  have hbelow : Below T.size (.var w) := fun _ hx =>
    List.eq_of_mem_singleton hx ▸ hid ▸ h.below v (List.mem_singleton_self v)
  cases hb : T.binding? v.id with
  | some t =>
    refine h.congr hbelow ?_
    rw [deep_var_of_binding hT hb, deep_var_of_binding hT (hid ▸ hb)]
  | none =>
    obtain ⟨-, hg, hl⟩ := h.unbound hb
    exact .of_unbound (hbelow w (List.mem_singleton_self w)) (hid ▸ hb)
      ⟨fun hXw => absurd (hid ▸ hXw) hX, hid ▸ hg, hid ▸ hl⟩

namespace Works

variable {S : Table}

theorem refl (hT : T.Healthy) (hX : ∀ w, X w → T.binding? w = none) : Works X depth T T where
  tame := hT.tame
  graded := hT.graded
  known := hT.known
  level _ := le_rfl
  unbound _ h := h
  apart := hX
  inside v t hv hb := by
    refine Remains.iff_vars.mp ⟨hT.below_binding _ _ hb, fun w hw => hv.deep w ?_⟩
    rwa [deep_var_of_binding hT.tame.acyclic hb]
  outside _ _ := rfl

theorem setBinding (h : Works X depth T S) (hT : T.Acyclic) {v : TyVar} {t : Ty} (hX : ¬ X v.id)
    (hv : T.Live X depth (.var v)) (ht : T.Live X depth t) (hgrows : S.Grows (S.setBinding v.id t))
    (hgraded : (S.setBinding v.id t).Graded) : Works X depth T (S.setBinding v.id t) := by
  have hid : v.id < T.size := hv.below v (List.mem_singleton_self v)
  have hb := binding?_setBinding (h.known.size.symm ▸ hid) t
  refine ⟨hgrows.tame, hgraded, h.known.setBinding hid ht.below hgrows.tame.acyclic,
    fun w => (level_setBinding v.id t w).trans_le (h.level w), fun w hw => ?_, fun w hw => ?_,
    fun x u hx hxu => ?_, fun x hx => ?_⟩
  · rw [hb] at hw
    split at hw
    · simp at hw
    · exact h.unbound w hw
  · rw [hb, if_neg fun hid : w = v.id => hX (hid ▸ hw)]
    exact h.apart w hw
  · rw [hb] at hxu
    split at hxu
    · exact Option.some.inj hxu ▸ Remains.iff_vars.mp ht
    · exact h.inside x u hx hxu
  · rw [hb, if_neg fun hid => hx (hv.var_congr hT hX hid)]
    exact h.outside x hx

theorem setLevel (h : Works X depth T S) {id level : Nat} (hu : S.binding? id = none)
    (hlt : level < S.level id) : Works X depth T (S.setLevel id level) := by
  have hid := lt_size_of_lt_level hlt
  have hb := binding?_setLevel (T := S) id level
  refine ⟨((Steady.setLevel h.tame.acyclic id level).grows h.tame).tame,
    h.graded.setLevel h.tame.acyclic hu hlt, h.known.setLevel (h.known.size ▸ hid) level, fun w => ?_,
    fun w hw => h.unbound w (hb w ▸ hw), fun w hw => (hb w).trans (h.apart w hw),
    fun x u hx hxu => h.inside x u hx (hb x.id ▸ hxu), fun x hx => (hb x.id).trans (h.outside x hx)⟩
  rw [level_setLevel hid]
  split
  · next hw => exact hw ▸ hlt.le.trans (h.level id)
  · exact h.level w

theorem changes (hT : T.Healthy) : Changes (Works X depth T) (T.Live X depth) where
  acyclic h := h.tame.acyclic
  bound h hv hb := Remains.iff_vars.mpr (h.inside _ _ hv hb)
  var ht hv := Remains.iff_vars.mp ht _ hv
  shortcut h hv ht hb hdeep hacyclic :=
    h.setBinding hT.tame.acyclic
      (fun hX => Bool.false_ne_true ((isBound_eq_false.mpr (h.apart _ hX)).symm.trans hb)) hv ht
      (Refines.of_shortcut h.tame hb hdeep hacyclic).grows (h.graded.of_deep_eq hdeep (level_setBinding _ _))
  lower h hu hlt := h.setLevel hu hlt
  quiet h := h.tame.quiet
  part hc ht := ht.part hc
  snapshot h :=
    ⟨⟨h.tame.acyclic, fun hq => absurd hq (Nat.succ_ne_zero _)⟩,
      h.graded.congr h.tame.acyclic (fun _ => rfl) fun _ => rfl, h.known.snapshot, h.level, h.unbound,
      h.apart, h.inside, h.outside⟩
  commit {S} h := by
    have hb : ∀ w, S.commit.binding? w = S.binding? w := fun w => by
      unfold Table.commit close; split <;> rfl
    have hl : ∀ w, S.commit.level w = S.level w := fun w => by
      unfold Table.commit close; split <;> rfl
    have hq : S.commit.snapshots = 0 → S.commit.trail = #[] := by
      unfold Table.commit close
      split
      · exact fun _ => rfl
      · next hlt => exact fun hq => absurd hq (by simp only; omega)
    exact ⟨⟨h.known.commit.acyclic, hq⟩, h.graded.congr h.tame.acyclic hb hl, h.known.commit,
      fun w => (hl w).trans_le (h.level w), fun w hw => h.unbound w (hb w ▸ hw),
      fun w hw => (hb w).trans (h.apart w hw), fun v t hv hvt => h.inside v t hv (hb v.id ▸ hvt), fun v hv => (hb v.id).trans (h.outside v hv)⟩
  bind {S v t} h hv ht hr hu hreach hle := by
    have hid : v.id < S.size := h.known.size.symm ▸ hv.below v (List.mem_singleton_self v)
    -- a live flexible variable is not set apart
    have hX : ¬ X v.id := fun hX =>
      Bool.false_ne_true (hr.symm.trans ((hv.unbound (h.unbound _ hu)).1 hX))
    exact h.setBinding hT.tame.acyclic hX hv ht (Advances.setBinding h.tame hu hreach).grows
      (h.graded.setBinding h.tame.acyclic hid hu hreach hle)

theorem healthy (h : Works X depth T T') : T'.Healthy := by
  refine ⟨h.tame, ⟨h.tame.acyclic, rfl, fun u hu => ?_, fun id t hb => ?_, fun _ => rfl⟩, h.graded⟩
  · exact h.known.size ▸ h.known.trail u hu
  · exact h.known.size ▸ h.known.binding id t hb

theorem evolves (h : Works X depth T T') (hT : T.Healthy) (hgrows : T.Grows T') :
    T.Evolves X e T' := by
  refine .of_replaces hT.tame.acyclic hgrows h.known.size.ge (fun w hw => (h.known.marks w).trans hw)
    (fun w hw hu => ?_) (fun x hx hu w hw => ?_) hT.below_binding
  · refine (h.outside ⟨w, "", false, false⟩ fun hlive => ?_).trans hu
    obtain ⟨hX, hg, -⟩ := hlive.unbound hu
    exact hw.elim (fun hw => Bool.false_ne_true (hX hw)) fun hw => Bool.false_ne_true (hg.symm.trans hw)
  · by_cases hlive : T.Live X depth (.var x)
    · -- all that it stands for is live
      have hwlive := forall_vars_deep h.tame.acyclic (P := fun v => T.Live X depth (.var v))
        (fun v t hv hb => h.inside v t hv hb) (t := .var x)
        (fun v hv => List.eq_of_mem_singleton hv ▸ hlive) w hw
      obtain ⟨hX, hg, -⟩ := hwlive.unbound (h.unbound _ (unbound_of_mem_vars_deep h.tame.acyclic hw))
      refine .inr ⟨(hlive.unbound hu).2.1, hX, (h.known.marks _).trans hg, ?_⟩
      exact (h.graded x w.id ⟨w, hw, rfl⟩).trans (h.level x.id)
    · rw [deep_var_of_unbound ((h.outside x hlive).trans hu)] at hw
      obtain rfl := List.eq_of_mem_singleton hw
      exact .inl ⟨rfl, h.level w.id, fun _ => h.known.marks w.id⟩

end Works

/-- **Unifying live types** leaves alone what is generalized or set apart, whether it succeeds or not. -/
theorem works_unify (hT : T.Healthy) (hX : ∀ w, X w → T.binding? w = none) {a b : Ty}
    (ha : T.Live X depth a) (hb : T.Live X depth b) : Works X depth T (T.unify a b).table :=
  (Works.changes hT).unify (.refl hT hX) ha hb

/-! ## Substitution -/

theorem substituteWithin_eq {rank : Nat → Nat} (hr : T.Ranks rank) (image : List (Nat × Ty)) {n : Nat}
    {t : Ty} (hn : ∀ w ∈ t.vars, rank w.id < n) (hT' : T.Steady T') :
    (substituteWithin image n t T').1 =
        (T.deep t).subst (fun w => (image.lookup w.id).getD (.var w)) ∧
      T.Steady (substituteWithin image n t T').2 := by
  induction n generalizing t T' with
  | zero =>
    refine ⟨?_, hT'⟩
    have hnone : ∀ w, w ∉ t.vars := fun w hw => absurd (hn w hw) (Nat.not_lt_zero _)
    rw [deep_eq_subst, Ty.subst_subst, Ty.subst_congr (τ := .var) fun w hw => absurd hw (hnone w),
      Ty.subst_var]
    rfl
  | succ n ih =>
    rw [substituteWithin, deep_eq_subst, Ty.subst_subst]
    refine Ty.replaceVarsM_eq_subst t (fun v hv S hS => ?_) T' hT'
    have hvr := finds_resolve (hS.acyclic hr.acyclic) v
    have hsteady := hS.trans hvr.steady
    rw [resolveVar_bind]
    generalize S.resolve (.var v) = r at hvr hsteady ⊢
    obtain ⟨u, S'⟩ := r
    dsimp only
    split
    · refine ⟨?_, hsteady⟩
      rw [← hS.same.deep, (hvr.deep_var rfl).1, Ty.subst]
      rfl
    · next hnot =>
      obtain ⟨s, hs⟩ := hvr.bound hnot
      rw [← hS.same.deep, ← hvr.deep, hS.same.deep]
      refine ih (fun w hw => ?_) hsteady
      have h1 := hvr.lt s hs rank (hS.same.ranks rank hr) w hw
      have h2 := hn v hv
      omega

/-- **`substitute` replaces what remains in the resolved type**, as far as the list names it. -/
theorem substitute_eq (hT : T.Acyclic) (t : Ty) (image : List (Nat × Ty)) :
    (T.substitute t image).1 = (T.deep t).subst fun w => (image.lookup w.id).getD (.var w) := by
  obtain ⟨rank, hr⟩ := hT.exists_ranks
  exact (substituteWithin_eq hr image (fun w _ => Nat.lt_succ_of_le (hr.le_size _)) (.refl T)).1

theorem unchanged_substitute (hT : T.Healthy) (ht : Below T.size t) (image : List (Nat × Ty)) :
    T.Unchanged (T.substitute t image).2 :=
  Unchanged.shortcuts.substitute (.refl hT) ht image

/-- Live types for what remains in a live type give a live type. -/
theorem Remains.substitute (hT : T.Healthy) (h : T.Remains P t) {image : List (Nat × Ty)}
    (himage : ∀ x ∈ image, T.Remains P x.2) : T.Remains P (T.substitute t image).1 := by
  rw [substitute_eq hT.tame.acyclic]
  refine .of_parts fun v hv => ?_
  obtain ⟨w, hw, hv⟩ := Ty.mem_vars_subst.mp hv
  refine ⟨_, hv, ?_⟩
  cases hlookup : image.lookup w.id with
  | some u =>
    obtain ⟨before, after, rfl, -⟩ := List.lookup_eq_some_iff.mp hlookup
    exact himage (w.id, u) (by simp)
  | none =>
    refine .of_unbound (below_deep hT.tame.acyclic hT.below_binding h.below w hw)
      (unbound_of_mem_vars_deep hT.tame.acyclic hw) (h.deep w hw)

end Table

end Reified
