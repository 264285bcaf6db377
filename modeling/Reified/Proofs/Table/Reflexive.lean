import Mathlib
import Reified.Proofs.Table.Refines
import Reified.Proofs.Table.Unions

/-!
# Types and themselves

A type without unions unifies with itself, and nothing is bound. It is not so for every union. Its members are
tried against the whole of it, from left to right, and a flexible variable never passes: it would have to be
bound to a type that contains it. So the union unifies with itself only if some other member does with the
union, and that member meets the flexible variables before it first: it is bound to none of them only if it
contains them all.

## Main definitions

* `Ty.members` — the members of a union
* `Ty.Leads` — a member that all flexible variables before it are contained in
* `Ty.Led` — in all unions some member leads
* `Unified.Quiet` — a success that changes nothing
* `Unified.Still` — a success that changes nothing but levels
* `Table.UnifiesItself` — the same of a type and itself, told by resolving types

## Main results

* `Table.quiet_of_led` — what unifies with itself
* `Table.led_of_still` — what has to be so for that
* `Table.unifies_itself` — both together
-/

namespace Reified

namespace Ty

/-- The members of a type: those of both sides of a union, or the type alone. Attached names are left out. -/
def members : Ty → List Ty
  | .union l r => l.members ++ r.members
  | .binding _ t => t.members
  | t => [t]

/-- The type is a flexible variable. -/
def isFlexible : Ty → Bool
  | .var v => !v.rigid
  | _ => false

/-- A member that is not a flexible variable, while all members before it are, and are contained in it. -/
def Leads (m : Ty) (ms : List Ty) : Prop :=
  m.isFlexible = false ∧ ∃ pre post, ms = pre ++ m :: post ∧
    ∀ p ∈ pre, ∃ v, p = .var v ∧ v.rigid = false ∧ ∃ w ∈ m.vars, w.id = v.id

/-- Some member leads in each of the unions that are no part of another one, and, if unions within members
count as well, the same is true of what leads. -/
inductive Led (within : Bool) : Ty → Prop where
  | form {t : Ty} : (∀ l r, t ≠ .union l r) → (∀ c ∈ t.parts, Led within c) → Led within t
  | union {l r m : Ty} : m.Leads (l.members ++ r.members) → (within = true → Led within m) →
    Led within (.union l r)

/-- No member of a union has a union in it. -/
inductive Flat : Ty → Prop where
  | form {t : Ty} : (∀ l r, t ≠ .union l r) → (∀ c ∈ t.parts, Flat c) → Flat t
  | union {l r : Ty} : (∀ m ∈ l.members ++ r.members, m.UnionFree) → Flat (.union l r)

theorem Leads.mem {m : Ty} {ms : List Ty} (h : m.Leads ms) : m ∈ ms := by
  obtain ⟨-, pre, post, rfl, -⟩ := h
  simp

/-- Induction from the parts of a type to the type. -/
theorem parts_induction {motive : Ty → Prop} (step : ∀ t, (∀ c ∈ t.parts, motive c) → motive t) (t : Ty) :
    motive t :=
  step t fun c hc =>
    have := (part_of_mem_parts hc).sizeOf_lt
    parts_induction step c
termination_by sizeOf t

/-- Without unions there is nothing to lead. -/
theorem UnionFree.led {t : Ty} (h : t.UnionFree) (within : Bool) : t.Led within := by
  induction t using parts_induction with
  | step t ih =>
    refine .form (fun l r ht => ?_) fun c hc => ih c hc ((part_of_mem_parts hc).unionFree h)
    rw [ht] at h
    exact h

/-- Where no union is within another one, it does not matter whether those within members count. -/
theorem Flat.led {t : Ty} (h : t.Flat) (hled : t.Led false) : t.Led true := by
  induction h with
  | form hunion _ ih =>
    cases hled with
    | form _ hparts => exact .form hunion fun c hc => ih c hc (hparts c hc)
    | union => exact absurd rfl (hunion _ _)
  | union hfree =>
    cases hled with
    | form hunion => exact absurd rfl (hunion _ _)
    | union hlead _ => exact .union hlead fun _ => (hfree _ hlead.mem).led true

/-! ## Members -/

/-- A member is a type of its own: no union, and no name attached to a type. -/
theorem form_of_mem_members {m t : Ty} (h : m ∈ t.members) :
    (∀ n u, m ≠ .binding n u) ∧ ∀ l r, m ≠ .union l r := by
  induction t with
  | union l r ihl ihr => exact (List.mem_append.mp h).elim ihl ihr
  | binding n t ih => exact ih h
  | _ =>
    obtain rfl := List.mem_singleton.mp h
    exact ⟨nofun, nofun⟩

theorem vars_of_mem_members {m t : Ty} (h : m ∈ t.members) : ∀ v ∈ m.vars, v ∈ t.vars := by
  induction t with
  | union l r ihl ihr =>
    intro v hv
    rw [vars]
    rcases List.mem_append.mp h with h | h
    · exact List.mem_append_left _ (ihl h v hv)
    · exact List.mem_append_right _ (ihr h v hv)
  | binding n t ih => exact ih h
  | _ =>
    obtain rfl := List.mem_singleton.mp h
    exact fun _ => id

theorem over_of_mem_members {vs : List TyVar} {m t : Ty} (ht : t.Over vs) (h : m ∈ t.members) : m.Over vs := by
  induction t with
  | union l r ihl ihr =>
    exact (List.mem_append.mp h).elim (ihl (ht.part .left)) (ihr (ht.part .right))
  | binding n t ih => exact ih (ht.part .inner) h
  | _ => exact List.mem_singleton.mp h ▸ ht

/-- Either all types of a list have a property, or there is a first one that does not have it. -/
theorem all_or_first (P : Ty → Prop) (ms : List Ty) : (∀ m ∈ ms, P m) ∨
    ∃ pre m post, ms = pre ++ m :: post ∧ (∀ p ∈ pre, P p) ∧ ¬ P m := by
  induction ms with
  | nil => exact .inl (by simp)
  | cons t ms ih =>
    by_cases ht : P t
    · rcases ih with h | ⟨pre, m, post, rfl, hpre, hm⟩
      · exact .inl (List.forall_mem_cons.mpr ⟨ht, h⟩)
      · exact .inr ⟨t :: pre, m, post, rfl, List.forall_mem_cons.mpr ⟨ht, hpre⟩, hm⟩
    · exact .inr ⟨[], t, ms, rfl, by simp, ht⟩

theorem eq_var_of_isFlexible {t : Ty} (h : t.isFlexible = true) : ∃ v, t = .var v ∧ v.rigid = false := by
  cases t with
  | var v => exact ⟨v, rfl, by simpa [isFlexible] using h⟩
  | _ => cases h

/-! ## A type and itself -/

theorem pairFields_self {fs gs : List (String × Ty)} (h : ∀ g ∈ gs, Fields.get? g.1 fs = some g.2) :
    pairFields fs gs = ((gs.map Prod.snd).map fun c => (c, c), none) := by
  induction gs with
  | nil => rfl
  | cons g gs ih =>
    obtain ⟨name, t⟩ := g
    obtain ⟨hg, hgs⟩ := List.forall_mem_cons.mp h
    have hg : Fields.get? name fs = some t := hg
    rw [pairFields, hg, ih hgs]
    rfl

theorem zip_self (ts : List Ty) : ts.zip ts = ts.map fun c => (c, c) := by
  induction ts with
  | nil => rfl
  | cons t ts ih => rw [List.zip_cons_cons, ih, List.map_cons]

/-- A type that is no union meets itself in its parts. -/
theorem meet_self {t : Ty} (hunion : ∀ l r, t ≠ .union l r) (hbinding : ∀ n u, t ≠ .binding n u)
    (ht : t.Tidy) : t.meet t = .all (t.parts.map fun c => (c, c)) none := by
  cases t with
  | var v => rw [meet, if_pos rfl]; rfl
  | name n => rw [meet, if_pos rfl]; rfl
  | array t => rfl
  | tuple ts => rw [meet, if_pos rfl, zip_self]; rfl
  | record fs =>
    have hget : ∀ f ∈ fs, Fields.get? f.1 fs = some f.2 := fun f hf => Fields.get?_of_mem ht.1 hf
    have hnone : (fs.find? fun f => !Fields.has f.1 fs) = none := by
      rw [List.find?_eq_none]
      intro f hf
      simp [Fields.has, hget f hf]
    rw [meet, pairFields_self hget, hnone]
    rfl
  | fn ps r k => rw [meet, if_pos rfl, zip_self]; rfl
  | union l r => exact absurd rfl (hunion l r)
  | binding n t => exact absurd rfl (hbinding n t)

end Ty

/-! ## Attempts -/

namespace Unified

variable {r r' x y : Unified}

/-- The unification succeeded and changed nothing. -/
def Quiet (T : Table) (r : Unified) : Prop := ∃ S, r = .ok () S ∧ T.Alike S

theorem Quiet.isOk {T : Table} (h : r.Quiet T) : r.isOk = true := by
  obtain ⟨S, rfl, -⟩ := h
  rfl

/-- The unification succeeded, and every type resolves to what it did before. -/
def Still (T : Table) (r : Unified) : Prop := ∃ S, r = .ok () S ∧ ∀ t, S.deep t = T.deep t

theorem Quiet.still {T : Table} (h : r.Quiet T) : r.Still T := by
  obtain ⟨S, rfl, halike⟩ := h
  exact ⟨S, rfl, halike.deep⟩

theorem Agrees.still {T : Table} (h : r.Agrees r') (hr : r.Still T) : r'.Still T := by
  obtain ⟨S, rfl, hdeep⟩ := hr
  rcases h.cases with ⟨R, R', hR, rfl, halike⟩ | ⟨e, R, e', R', hR, rfl⟩
  · cases hR
    exact ⟨R', rfl, fun t => (halike.deep t).trans (hdeep t)⟩
  · cases hR

theorem Agrees.quiet {T : Table} (h : r.Agrees r') (hr : r.Quiet T) : r'.Quiet T := by
  obtain ⟨S, rfl, halike⟩ := hr
  rcases h.cases with ⟨R, R', hR, rfl, halike'⟩ | ⟨e, R, e', R', hR, rfl⟩
  · cases hR
    exact ⟨R', rfl, halike.trans halike'⟩
  · cases hR

theorem orElse_of_isOk (h : x.isOk = true) (y : Unified) : x.orElse y = x := by
  cases x with
  | ok _ S => rfl
  | error e S => cases h

theorem orElse_of_fails (h : x.isOk = false) (y : Unified) : x.orElse y = y := by
  cases x with
  | ok _ S => cases h
  | error e S => rfl

/-- Attempts at the members of a type, one after the other. -/
structure Attempts (f : Ty → Unified) : Prop where
  refl : ∀ t, (f t).Agrees (f t)
  union : ∀ l r, ((f l).orElse (f r)).Agrees (f (.union l r))
  binding : ∀ n t, (f t).Agrees (f (.binding n t))

namespace Attempts

variable {f : Ty → Unified} {t : Ty}

/-- If the attempts at all members fail, then the attempt at the type does. -/
theorem fails (h : Attempts f) (hm : ∀ m ∈ t.members, (f m).isOk = false) : (f t).isOk = false := by
  induction t with
  | union l r ihl ihr =>
    rw [(h.union l r).isOk_eq, orElse_of_fails (ihl fun m hml => hm m (List.mem_append_left _ hml))]
    exact ihr fun m hmr => hm m (List.mem_append_right _ hmr)
  | binding n t ih =>
    rw [(h.binding n t).isOk_eq]
    exact ih hm
  | _ => exact hm _ (List.mem_singleton.mpr rfl)

/-- The first attempt at a member that succeeds is the attempt at the type. -/
theorem first (h : Attempts f) {pre post : List Ty} {m : Ty} (ht : t.members = pre ++ m :: post)
    (hpre : ∀ p ∈ pre, (f p).isOk = false) (hm : (f m).isOk = true) : (f m).Agrees (f t) := by
  induction t generalizing pre post with
  | union l r ihl ihr =>
    refine Agrees.trans ?_ (h.union l r)
    rcases List.append_eq_append_iff.mp ht with ⟨as, rfl, hr⟩ | ⟨bs, hl, hbs⟩
    · rw [orElse_of_fails (h.fails fun p hp => hpre p (List.mem_append_left _ hp))]
      exact ihr hr fun p hp => hpre p (List.mem_append_right _ hp)
    · cases bs with
      | nil =>
        rw [List.append_nil] at hl
        rw [orElse_of_fails (h.fails fun p hp => hpre p (hl ▸ hp))]
        have hr : r.members = [] ++ m :: post := hbs.symm
        exact ihr hr (by simp)
      | cons b bs =>
        obtain ⟨rfl, -⟩ := List.cons.inj hbs
        have hfirst := ihl hl hpre
        rw [orElse_of_isOk (by rw [hfirst.isOk_eq, hm])]
        exact hfirst
  | binding n t ih => exact (ih ht hpre).trans (h.binding n t)
  | _ =>
    obtain ⟨rfl, hnil⟩ | ⟨-, h⟩ := List.singleton_eq_append_iff.mp ht
    · obtain ⟨rfl, -⟩ := List.cons.inj hnil
      exact h.refl _
    · cases h

end Attempts

end Unified

namespace Table

variable {vs : List TyVar} {T S : Table}

theorem unify_of_binds_eq_false (hT : T.Acyclic) {a b : Ty} (ha : T.binds a = false) (hb : T.binds b = false) :
    T.unify a b = (handle a b T (a.meet b)).eval unifies := by
  rw [unify_eq hT, unifyBody_eq_handle hT ha hb]

/-- A name attached to what is expected makes no difference. -/
theorem agrees_expected_binding (hT : T.Acyclic) (n : String) (t b : Ty) :
    (T.unify t b).Agrees (T.unify (.binding n t) b) := by
  have hmeet (b : Ty) : (Ty.binding n t).meet b = .all [(t, b)] none := by cases b <;> rfl
  have hres : T.resolve (.binding n t) = (.binding n t, T) := resolve_of_not_var (by rintro v ⟨⟩)
  rw [unify_eq hT (.binding n t), unifyBody, hres]
  dsimp only
  rw [hmeet, eval_one]
  exact unify_agrees (.resolve hT b) rfl (steady_resolve hT b).2.1

/-- A name attached to what is found makes no difference. -/
theorem agrees_found_binding (hT : T.Acyclic) (n : String) (t a : Ty) :
    (T.unify a t).Agrees (T.unify a (.binding n t)) := by
  have hres (S : Table) : S.resolve (.binding n t) = (.binding n t, S) := resolve_of_not_var (by rintro v ⟨⟩)
  induction h : (T.deep a).size using Nat.strong_induction_on generalizing a with
  | _ size ih =>
    subst h
    have ha := (steady_resolve hT a).2.1
    by_cases hbinding : ∃ m u, (T.resolve a).1 = .binding m u
    · -- names attached to what is expected come first
      obtain ⟨m, u, hu⟩ := hbinding
      have hdeep : T.deep a = T.deep (.binding m u) := by rw [← hu, ha]
      have hlt : (T.deep u).size < (T.deep a).size := by
        rw [hdeep]
        exact (Ty.Part.inner.subst _).size_lt
      have hstrip (b : Ty) : (T.unify u b).Agrees (T.unify a b) :=
        (agrees_expected_binding hT m u b).trans (unify_agrees (.refl hT) hdeep rfl)
      exact ((hstrip t).symm.trans (ih _ hlt u rfl)).trans (hstrip _)
    · have hmeet : (T.resolve a).1.meet (.binding n t) = .all [((T.resolve a).1, t)] none := by
        cases hres : (T.resolve a).1 with
        | binding m u => exact absurd ⟨m, u, hres⟩ hbinding
        | _ => rfl
      rw [unify_eq hT a (.binding n t), unifyBody]
      dsimp only
      rw [hres]
      dsimp only
      rw [hmeet, eval_one]
      exact unify_agrees (.resolve hT a) ha rfl

/-- Both sides without the name attached to them. -/
theorem agrees_bindings (hT : T.Acyclic) (n : String) (t : Ty) :
    (T.unify t t).Agrees (T.unify (.binding n t) (.binding n t)) :=
  (agrees_found_binding hT n t t).trans (agrees_expected_binding hT n t _)

theorem agrees_self (hT : T.Acyclic) (a b : Ty) : (T.unify a b).Agrees (T.unify a b) :=
  unify_agrees (.refl hT) rfl rfl

section union

variable {m u : Ty}

/-- A member of a union, and other types that are neither unions nor flexible, are tried against the members of
what is found. -/
theorem attempts_found (hT : T.Acyclic) (hm : T.binds m = false) (hflexible : m.isFlexible = false)
    (hform : (∀ n t, m ≠ .binding n t) ∧ ∀ l r, m ≠ .union l r) :
    Unified.Attempts fun t => T.unify m t := by
  have hres : (T.resolve m).1 = m := congrArg Prod.fst (resolve_of_binds_eq_false hT hm)
  refine ⟨agrees_self hT m, fun l r => ?_, fun n t => agrees_found_binding hT n t m⟩
  refine agrees_found_union hT (by rw [resolve_union]) (by rw [hres]; exact hform.1) (fun v hv => ?_)
    (by rw [hres]; exact hform.2)
  rw [hres.symm.trans hv] at hflexible
  simpa [Ty.isFlexible] using hflexible

/-- The members of what is expected are tried against a union. -/
theorem attempts_expected (hT : T.Acyclic) (l r : Ty) :
    Unified.Attempts fun t => T.unify t (.union l r) :=
  ⟨fun t => agrees_self hT t _,
    fun c d => agrees_expected_union hT (by rw [resolve_union]) (by rw [resolve_union]; nofun)
      (by rw [resolve_union]; nofun),
    fun n t => agrees_expected_binding hT n t _⟩

/-- A flexible variable is bound to nothing that contains it. -/
theorem fails_of_reaches (hT : T.Inv vs) {v : TyVar} {t : Ty} (ht : t.Over vs) (h : T.Reaches t v.id) :
    (T.bind v t).isOk = false := by
  obtain ⟨e, S, he, -⟩ := bind_of_reaches hT ht h
  rw [he]
  rfl

/-- A flexible variable that is not contained in a type is bound to it. -/
theorem bind_not_still (hT : T.Inv vs) {v : TyVar} {t : Ty} (hv : v ∈ vs) (hu : T.binding? v.id = none)
    (ht : t.Over vs) (h : ¬ T.Reaches t v.id) : (T.bind v t).isOk = true ∧ ¬ (T.bind v t).Still T := by
  obtain ⟨S, hS, hagrees⟩ := bind_of_not_reaches hT ht h
  have hid := hagrees.inv.lt_size hv
  have hacyclic : (S.setBinding v.id t).Acyclic :=
    hagrees.inv.acyclic.setBinding hid (hagrees.same.unbound_iff.mpr hu) fun hreaches =>
      h (by rwa [Reaches, hagrees.same.deep] at hreaches)
  rw [hS]
  refine ⟨rfl, ?_⟩
  rintro ⟨R, hR, hdeep⟩
  cases hR
  -- the variable would have to remain what it resolves to
  have hmem : v ∈ ((S.setBinding v.id t).deep (.var v)).vars := by
    rw [hdeep, deep_var_of_unbound hu]
    simp [Ty.vars]
  have hunbound := unbound_of_mem_vars_deep hacyclic hmem
  rw [binding?_setBinding hid, if_pos rfl] at hunbound
  cases hunbound

end union

/-! ## What unifies with itself -/

theorem quiet_unifyAll (h : T.Alike S) {ps : List (Ty × Ty)}
    (hps : ∀ p ∈ ps, (T.unify p.1 p.2).Quiet T) : ((unifyAll none ps S).eval unifies).Quiet T := by
  induction ps generalizing S with
  | nil => exact ⟨S, rfl, h⟩
  | cons p ps ih =>
    obtain ⟨hp, hps⟩ := List.forall_mem_cons.mp hps
    obtain ⟨R, hR, halike⟩ := (unify_agrees h (a := p.1) (b := p.2) rfl rfl).quiet hp
    rw [eval_cons, unifies]
    dsimp only
    rw [hR]
    exact ih halike hps

/-- What is not bound and resolves to itself at every depth. -/
def Resolved (T : Table) (t : Ty) : Prop := ∀ v ∈ t.vars, T.binding? v.id = none

theorem Resolved.binds {t : Ty} (h : T.Resolved t) : T.binds t = false := by
  cases t with
  | var v => exact isBound_eq_false.mpr (h v (by simp [Ty.vars]))
  | _ => rfl

theorem Resolved.reaches_iff {t : Ty} (h : T.Resolved t) {id : Nat} :
    T.Reaches t id ↔ ∃ w ∈ t.vars, w.id = id := by
  have hdeep : T.deep t = t := by
    conv_rhs => rw [← Ty.subst_var t]
    exact Ty.subst_congr fun w hw => deep_var_of_unbound (h w hw)
  rw [Reaches, hdeep]

theorem resolved_deep (hT : T.Acyclic) (t : Ty) : T.Resolved (T.deep t) := fun _ =>
  unbound_of_mem_vars_deep hT

theorem Resolved.part {c t : Ty} (h : T.Resolved t) (hc : c.Part t) : T.Resolved c := fun v hv =>
  h v (hc.vars_subset hv)

theorem Resolved.member {m t : Ty} (h : T.Resolved t) (hm : m ∈ t.members) : T.Resolved m := fun v hv =>
  h v (Ty.vars_of_mem_members hm v hv)

section union

variable {l r m : Ty} {pre post : List Ty}

/-- A flexible variable that is found is bound. -/
theorem unify_flexible (hT : T.Inv vs) (hm : m.Over vs) (hres : T.Resolved m) (hflexible : m.isFlexible = false)
    (hform : ∀ n t, m ≠ .binding n t) {v : TyVar} (hv : v ∈ vs) (hrigid : v.rigid = false)
    (hu : T.binding? v.id = none) : T.unify m (.var v) = T.bind v m := by
  have hmeet : m.meet (.var v) = .bind v m := by
    cases m with
    | binding n t => exact absurd rfl (hform n t)
    | var w =>
      have hwrigid : w.rigid = true := by simpa [Ty.isFlexible] using hflexible
      have hne : w.id ≠ v.id := fun hid => by
        rw [hT.eq_of_id (hm.vars w (by simp [Ty.vars])) hv hid, hrigid] at hwrigid
        cases hwrigid
      simp [Ty.meet, hne, hwrigid, hrigid]
    | _ => simp [Ty.meet, hrigid]
  rw [unify_of_binds_eq_false (b := .var v) hT.acyclic hres.binds (isBound_eq_false.mpr hu), hmeet, eval_bind]

/-- Flexible variables among the members of a union that is expected do not pass. -/
theorem fails_flexible_member (hT : T.Inv vs) (ht : (Ty.union l r).Over vs) (hres : T.Resolved (.union l r))
    {p : Ty} (hp : p ∈ l.members ++ r.members) (hflexible : p.isFlexible = true) :
    (T.unify p (.union l r)).isOk = false := by
  obtain ⟨v, rfl, hrigid⟩ := Ty.eq_var_of_isFlexible hflexible
  have hv : v ∈ (Ty.union l r).vars :=
    Ty.vars_of_mem_members (t := .union l r) hp v (by simp [Ty.vars])
  have hmeet : (Ty.var v).meet (.union l r) = .bind v (.union l r) := by simp [Ty.meet, hrigid]
  rw [unify_of_binds_eq_false (a := .var v) hT.acyclic (isBound_eq_false.mpr (hres v hv)) rfl, hmeet, eval_bind]
  exact fails_of_reaches hT ht (hres.reaches_iff.mpr ⟨v, hv, rfl⟩)

/-- The first member that is not a flexible variable is the first one that can pass. -/
theorem agrees_of_member (hT : T.Inv vs) (ht : (Ty.union l r).Over vs) (hres : T.Resolved (.union l r))
    (hms : l.members ++ r.members = pre ++ m :: post) (hpre : ∀ p ∈ pre, p.isFlexible = true)
    (hok : (T.unify m (.union l r)).isOk = true) :
    (T.unify m (.union l r)).Agrees (T.unify (.union l r) (.union l r)) := by
  refine (attempts_expected hT.acyclic l r).first (t := .union l r) hms (fun p hp => ?_) hok
  exact fails_flexible_member hT ht hres (hms ▸ List.mem_append_left _ hp) (hpre p hp)

/-- Against the members of the union it passes at the first one that is not a flexible variable contained in
it. -/
theorem agrees_of_found (hT : T.Inv vs) (ht : (Ty.union l r).Over vs) (hres : T.Resolved (.union l r))
    (hm : m ∈ l.members ++ r.members) (hflexible : m.isFlexible = false) {x : Ty}
    (hms : l.members ++ r.members = pre ++ x :: post)
    (hpre : ∀ p ∈ pre, ∃ v, p = .var v ∧ v.rigid = false ∧ ∃ w ∈ m.vars, w.id = v.id)
    (hok : (T.unify m x).isOk = true) : (T.unify m x).Agrees (T.unify m (.union l r)) := by
  have hover := Ty.over_of_mem_members ht (m := m) hm
  have hresolved := hres.member (m := m) hm
  have hform := Ty.form_of_mem_members (t := .union l r) hm
  refine (attempts_found hT.acyclic hresolved.binds hflexible hform).first (t := .union l r) hms
    (fun p hp => ?_) hok
  obtain ⟨v, rfl, hrigid, hin⟩ := hpre p hp
  have hmem : .var v ∈ l.members ++ r.members := hms ▸ List.mem_append_left _ hp
  have hv : v ∈ (Ty.union l r).vars :=
    Ty.vars_of_mem_members (t := .union l r) hmem v (by simp [Ty.vars])
  rw [unify_flexible hT hover hresolved hflexible hform.1 (ht.vars v hv) hrigid (hres v hv)]
  exact fails_of_reaches hT hover (hresolved.reaches_iff.mpr hin)

end union

/-- **What unifies with itself**, and changes nothing: a type in all of whose unions some member leads. -/
theorem quiet_of_led (hT : T.Inv vs) {t : Ty} (h : t.Led true) (ht : t.Over vs) (hres : T.Resolved t) :
    (T.unify t t).Quiet T := by
  induction h with
  | @form t hunion _ ih =>
    by_cases hbinding : ∃ n u, t = .binding n u
    · obtain ⟨n, u, rfl⟩ := hbinding
      exact (agrees_bindings hT.acyclic n u).quiet
        (ih u (by simp [Ty.parts]) (ht.part .inner) (hres.part .inner))
    · rw [unify_of_binds_eq_false hT.acyclic hres.binds hres.binds,
        Ty.meet_self hunion (fun n u h => hbinding ⟨n, u, h⟩) ht.tidy, handle]
      refine quiet_unifyAll (.refl hT.acyclic) fun p hp => ?_
      obtain ⟨c, hc, rfl⟩ := List.mem_map.mp hp
      have hpart := Ty.part_of_mem_parts hc
      exact ih c hc (ht.part hpart) (hres.part hpart)
  | @union l r m hlead _ ih =>
    obtain ⟨hflexible, pre, post, hms, hpre⟩ := hlead
    have hmem : m ∈ l.members ++ r.members := hms ▸ by simp
    have hself := ih rfl (Ty.over_of_mem_members (t := .union l r) ht hmem) (hres.member (t := .union l r) hmem)
    have hfound := agrees_of_found hT ht hres hmem hflexible hms hpre hself.isOk
    have hquiet := hfound.quiet hself
    refine (agrees_of_member hT ht hres hms (fun p hp => ?_) hquiet.isOk).quiet hquiet
    obtain ⟨v, rfl, hrigid, -⟩ := hpre p hp
    simp [Ty.isFlexible, hrigid]

/-! ## What does not -/

/-- A table that the invariant holds of knows its own variables only. -/
theorem Inv.known (hT : T.Inv vs) : Known T.size T.isGeneralized T where
  acyclic := hT.acyclic
  size := rfl
  trail := hT.trail
  binding id t ht v hv := hT.lt_size ((hT.now.written id t ht).vars v hv)
  marks _ := rfl

theorem refines_unify (hT : T.Inv vs) {a b : Ty} (ha : a.Over vs) (hb : b.Over vs)
    (h : T.unify a b = .ok () S) : T.Refines S := by
  have hleaves := hT.known.unify ⟨hT.acyclic, hT.quiet⟩ (fun v hv => hT.lt_size (ha.vars v hv))
    fun v hv => hT.lt_size (hb.vars v hv)
  rw [h] at hleaves
  exact hleaves.1

/-- If in the end all types resolve to what they did at first, they did so in between. -/
theorem Refines.deep_eq_of_grows {R : Table} (h : T.Refines S) (h' : S.Grows R) (hT : T.Acyclic)
    (hR : ∀ t, R.deep t = T.deep t) (t : Ty) : S.deep t = T.deep t := by
  rw [← h.grows.deep t, deep_eq_subst (T := S)]
  conv_rhs => rw [← Ty.subst_var (T.deep t)]
  refine Ty.subst_congr fun v hv => ?_
  have hvT : T.deep (.var v) = .var v := deep_var_of_unbound (unbound_of_mem_vars_deep hT hv)
  -- what stands for the variable resolves to it in the end
  have hback : T.deep (S.deep (.var v)) = .var v := by rw [← hR, h'.deep, hR, hvT]
  cases hw : S.deep (.var v) with
  | var w =>
    have hmem : w ∈ (S.deep (.var v)).vars := by rw [hw]; simp [Ty.vars]
    have hwS := unbound_of_mem_vars_deep h.grows.tame.acyclic hmem
    rw [hw, deep_var_of_unbound (h.unbound _ hwS)] at hback
    exact hback
  | _ =>
    rw [hw, deep_eq_subst] at hback
    cases hback

/-- Every part of a type that is unified with itself is, in a table in which types resolve to the same. -/
theorem still_of_unifyAll {R : Table} {cs : List Ty} (hT : T.Inv vs) (hcs : ∀ c ∈ cs, c.Over vs)
    (h : (unifyAll none (cs.map fun c => (c, c)) T).eval unifies = .ok () R) : T.Refines R ∧
      ((∀ t, R.deep t = T.deep t) → ∀ c ∈ cs, ∃ S : Table, S.Inv vs ∧ (∀ t, S.deep t = T.deep t) ∧
        (S.unify c c).Still S) := by
  induction cs generalizing T with
  | nil =>
    cases h
    exact ⟨.refl ⟨hT.acyclic, hT.quiet⟩, fun _ => by simp⟩
  | cons c cs ih =>
    obtain ⟨hc, hcs⟩ := List.forall_mem_cons.mp hcs
    rw [List.map_cons, eval_cons, unifies] at h
    dsimp only at h
    cases hS : T.unify c c with
    | error e S => rw [hS] at h; cases h
    | ok u S =>
      rw [hS] at h
      have hrefines := refines_unify hT hc hc hS
      have hinv := hT.unify hc hc
      rw [hS] at hinv
      obtain ⟨hrest, ih⟩ := ih hinv hcs h
      refine ⟨hrefines.trans hrest, fun hR => ?_⟩
      have hdeep := hrefines.deep_eq_of_grows hrest.grows hT.acyclic hR
      refine List.forall_mem_cons.mpr ⟨⟨T, hT, fun _ => rfl, S, hS, hdeep⟩, fun d hd => ?_⟩
      obtain ⟨S', hS', hdeep', hstill⟩ := ih (fun t => (hR t).trans (hdeep t).symm) d hd
      exact ⟨S', hS', fun t => (hdeep' t).trans (hdeep t), hstill⟩

/-- What is resolved in a table is resolved in all tables in which types resolve to the same. -/
theorem Resolved.congr (hS : S.Acyclic) (hdeep : ∀ t, S.deep t = T.deep t) {t : Ty} (h : T.Resolved t) :
    S.Resolved t := fun v hv => by
  refine unbound_of_mem_vars_deep hS (t := .var v) ?_
  rw [hdeep, deep_var_of_unbound (h v hv)]
  simp [Ty.vars]

/-- **What unifies with itself has a leading member in all of its unions** that are no part of another one. -/
theorem led_of_still (hT : T.Inv vs) {t : Ty} (ht : t.Over vs) (hres : T.Resolved t)
    (h : (T.unify t t).Still T) : t.Led false := by
  induction t using Ty.parts_induction generalizing T with
  | step t ih =>
    by_cases hunion : ∀ l r, t ≠ .union l r
    · refine .form hunion ?_
      by_cases hbinding : ∃ n u, t = .binding n u
      · obtain ⟨n, u, rfl⟩ := hbinding
        simpa [Ty.parts] using ih u (by simp [Ty.parts]) hT (ht.part .inner) (hres.part .inner)
          ((agrees_bindings hT.acyclic n u).symm.still h)
      · rw [unify_of_binds_eq_false hT.acyclic hres.binds hres.binds,
          Ty.meet_self hunion (fun n u h => hbinding ⟨n, u, h⟩) ht.tidy, handle] at h
        obtain ⟨R, hR, hdeep⟩ := h
        intro c hc
        have hpart := Ty.part_of_mem_parts hc
        obtain ⟨S, hS, hdeepS, hstill⟩ :=
          (still_of_unifyAll hT (fun c hc => ht.part (Ty.part_of_mem_parts hc)) hR).2 hdeep c hc
        exact ih c hc hS (ht.part hpart) ((hres.part hpart).congr hS.acyclic hdeepS) hstill
    · obtain ⟨l, r, rfl⟩ : ∃ l r, t = .union l r := by simpa using hunion
      have hmembers : (Ty.union l r).members = l.members ++ r.members := rfl
      rcases Ty.all_or_first (·.isFlexible = true) (l.members ++ r.members) with hall |
        ⟨pre, m, post, hms, hpre, hm⟩
      · -- no flexible variable passes
        have hfails := (attempts_expected hT.acyclic l r).fails (t := .union l r) fun p hp =>
          fails_flexible_member hT ht hres hp (hall p hp)
        obtain ⟨R, hR, -⟩ := h
        rw [hR] at hfails
        cases hfails
      · have hflexible : m.isFlexible = false := by simpa using hm
        have hmem : m ∈ l.members ++ r.members := hms ▸ by simp
        refine .union ⟨hflexible, pre, post, hms, ?_⟩ fun h => by cases h
        rcases Ty.all_or_first (fun p => ∃ v, p = .var v ∧ v.rigid = false ∧ ∃ w ∈ m.vars, w.id = v.id) pre
          with hall | ⟨pre', p, post', rfl, hpre', hp⟩
        · exact hall
        -- the first one that is not contained in the member is bound to it
        obtain ⟨v, rfl, hrigid⟩ := Ty.eq_var_of_isFlexible (hpre p (by simp))
        have hv : v ∈ (Ty.union l r).vars :=
          Ty.vars_of_mem_members (t := .union l r) (m := .var v) (by rw [hmembers, hms]; simp) v
            (by simp [Ty.vars])
        have hover := Ty.over_of_mem_members (t := .union l r) ht hmem
        have hresm := hres.member (t := .union l r) hmem
        have hbound := unify_flexible hT hover hresm hflexible
          (Ty.form_of_mem_members (t := .union l r) hmem).1 (ht.vars v hv) hrigid (hres v hv)
        obtain ⟨hok, hnot⟩ := bind_not_still hT (ht.vars v hv) (hres v hv) hover fun hreaches =>
          hp ⟨v, rfl, hrigid, hresm.reaches_iff.mp hreaches⟩
        rw [← hbound] at hok hnot
        have hfirst : l.members ++ r.members = pre' ++ .var v :: (post' ++ m :: post) := by rw [hms]; simp
        have hfound := agrees_of_found hT ht hres hmem hflexible hfirst hpre' hok
        have hself := hfound.trans (agrees_of_member hT ht hres hms hpre (hfound.isOk_eq ▸ hok))
        exact absurd (hself.symm.still h) hnot

/-! ## Both together -/

/-- The type unifies with itself, and every type resolves to what it did before. -/
def UnifiesItself (T : Table) (t : Ty) : Prop :=
  (T.unify t t).isOk = true ∧ ∀ u, ((T.unify t t).table.resolveDeep u).1 = (T.resolveDeep u).1

theorem unifiesItself_iff (hT : T.Inv vs) {t : Ty} (ht : t.Over vs) :
    T.UnifiesItself t ↔ (T.unify (T.deep t) (T.deep t)).Still T := by
  have hagrees := unify_agrees (.refl hT.acyclic) (deep_deep hT.acyclic t) (deep_deep hT.acyclic t)
  have hinv := hT.unify ht ht
  unfold UnifiesItself
  cases hS : T.unify t t with
  | ok u S =>
    rw [hS] at hinv hagrees
    have hdeep : (∀ u, (S.resolveDeep u).1 = (T.resolveDeep u).1) ↔ ∀ u, S.deep u = T.deep u :=
      forall_congr' fun u => by
        rw [(steady_resolveDeep (T := S) hinv.acyclic u).1, (steady_resolveDeep hT.acyclic u).1]
    refine ⟨fun h => hagrees.still ⟨S, rfl, hdeep.mp h.2⟩, fun h => ?_⟩
    obtain ⟨R, hR, hsame⟩ := hagrees.symm.still h
    cases hR
    exact ⟨rfl, hdeep.mpr hsame⟩
  | error e S =>
    rw [hS] at hagrees
    refine ⟨fun h => absurd h.1 Bool.false_ne_true, fun h => ?_⟩
    obtain ⟨R, hR, -⟩ := hagrees.symm.still h
    cases hR

/-- **Which types unify with themselves** and change no other type: those in all of whose unions, once they are
resolved, some member leads. Only of the unions within members this need not be so. -/
theorem unifies_itself (hT : Reached vs T) {t : Ty} (ht : t.Over vs) :
    ((T.resolveDeep t).1.Led true → T.UnifiesItself t) ∧
    (T.UnifiesItself t → (T.resolveDeep t).1.Led false) ∧
    ((T.resolveDeep t).1.Flat → (T.UnifiesItself t ↔ (T.resolveDeep t).1.Led false)) := by
  have hinv := hT.inv
  have hover := hinv.over_deep ht
  have hres := resolved_deep hinv.acyclic t
  rw [(steady_resolveDeep hinv.acyclic t).1, unifiesItself_iff hinv ht]
  have hsufficient (h : (T.deep t).Led true) := (quiet_of_led hinv h hover hres).still
  have hnecessary := led_of_still hinv hover hres
  exact ⟨hsufficient, hnecessary, fun hflat => ⟨hnecessary, fun h => hsufficient (hflat.led h)⟩⟩

/-- A variable, or an array of it: the variable is not bound to the array, which contains it. -/
theorem unifies_itself_array :
    let a : TyVar := ⟨0, "a", false, false⟩
    let T := (Table.empty.newVar "a" false false 0).2
    Reached [a] T ∧ (Ty.union (.var a) (.array (.var a))).Over [a] ∧
      T.UnifiesItself (.union (.var a) (.array (.var a))) := by
  intro a T
  have hT : Reached [a] T := .newVar "a" false false 0 .empty
  have ha : (Ty.union (.var a) (.array (.var a))).Over [a] := ⟨by simp [Ty.vars], by simp [Ty.Tidy]⟩
  refine ⟨hT, ha, (unifies_itself hT ha).1 ?_⟩
  refine .union (m := .array (.var a)) ⟨rfl, [.var a], [], rfl, fun p hp => ?_⟩ fun _ => ?_
  · obtain rfl := List.mem_singleton.mp hp
    exact ⟨a, rfl, rfl, a, by simp [Ty.vars], rfl⟩
  · exact Ty.UnionFree.led (by simp [Ty.UnionFree]) true

/-- A union of two variables does not unify with itself. With numbers in place of the second one it does, but the
first one is bound to them. -/
theorem unifies_itself_not_variables :
    let a : TyVar := ⟨0, "a", false, false⟩
    let b : TyVar := ⟨1, "b", false, false⟩
    let T := ((Table.empty.newVar "a" false false 1).2.newVar "b" false false 1).2
    Reached [a, b] T ∧ (Ty.union (.var a) (.var b)).Over [a, b] ∧ (Ty.union (.var a) .number).Over [a, b] ∧
      ¬ T.UnifiesItself (.union (.var a) (.var b)) ∧ ¬ T.UnifiesItself (.union (.var a) .number) := by
  intro a b T
  have hT : Reached [a, b] T := .newVar "b" false false 1 (.newVar "a" false false 1 .empty)
  have hvariables : (Ty.union (.var a) (.var b)).Over [a, b] := ⟨by simp [Ty.vars], by simp [Ty.Tidy]⟩
  have hnumber : (Ty.union (.var a) .number).Over [a, b] :=
    ⟨by simp [Ty.vars, Ty.number], by simp [Ty.Tidy, Ty.number]⟩
  have hfails : (T.unify (.union (.var a) (.var b)) (.union (.var a) (.var b))).isOk = false := by cbv
  have hbound : ((T.unify (.union (.var a) .number) (.union (.var a) .number)).table.resolveDeep (.var a)).1 =
      .number := by cbv
  have hbefore : (T.resolveDeep (.var a)).1 = .var a := by cbv
  refine ⟨hT, hvariables, hnumber, fun h => ?_, fun h => ?_⟩
  · rw [UnifiesItself, hfails] at h
    exact absurd h.1 Bool.false_ne_true
  · have hsame := h.2 (.var a)
    rw [hbound, hbefore] at hsame
    cases hsame

end Table

end Reified
