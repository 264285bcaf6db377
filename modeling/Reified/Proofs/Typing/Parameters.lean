import Reified.Proofs.Typing.Containment

/-!
# The variables of type parameters

The variables of the type parameters and of the inferred parameters of a function are created when its check
begins, and occur as rigid ones only. So they can be set apart from then on: whatever the body does, they are
not bound.

## Main definitions

* `FnHead.Declares` — the variables of the type parameters and the inferred parameters of a function
* `Check.enterFunction` — what the check of a function does before it gets to the body
* `Checker.Reserves` — new variables have been set apart

## Main results

* `Checker.Held.reserveRigid` — a new rigid variable that is set apart is live
* `Checker.Held.enterFunction` — the state in which the body of a function is checked
-/

namespace Reified

/-- The variables of the type parameters, which are the first ones created for the function, and those of the
inferred parameters, which its signature begins with. -/
inductive FnHead.Declares (head : FnHead) (first : Nat) : Ty → TyVar → Prop
  | typeParam {signature : Ty} {i : Nat} {name : String} : head.typeParams[i]? = some name →
    Declares head first signature ⟨first + i, name, false, true⟩
  | inferred {params : List Ty} {result : Ty} {implicit : Nat} {name : String} {v : TyVar} :
    .binding name (.var v) ∈ params.take implicit → Declares head first (.fn params result implicit) v

/-- What the check of a function does inside its frame before it gets to the body: the signature and the
result type, and the number of loops around the function. -/
def Check.enterFunction (head : FnHead) : Check (Ty × Ty × Nat) := do
  pushScope
  bindTypeParams head.typeParams
  let (params, implicit) ← paramTypes [] 0 head.params
  let result ← optionalType "" head.result
  let signature := Ty.fn params result implicit
  bindValue head.name signature
  bindParams head.params params
  let loopDepth ← enterBody result
  return (signature, result, loopDepth)

theorem Check.fnBody_eq (head : FnHead) (body : Ty → Check (List Decl)) : fnBody head body = do
    let (signature, result, loopDepth) ← enterFunction head
    let body ← body result
    leaveBody loopDepth
    popScope
    return (signature, body) := by
  unfold fnBody enterFunction
  simp only [bind_assoc, pure_bind]

namespace Checker

open Check (Contains)

variable {α : Type} {B B' B'' : Base} {p q : Position} {s s' s₁ : Checker} {t : Ty} {v : TyVar}

/-- From a state at one place another has been reached, and new variables have been set apart on the way. -/
structure Reserves (B : Base) (s : Checker) (B' : Base) (q : Position) (s' : Checker) : Prop where
  held : Held B' q s'
  base : ∃ X, B' = { B with apart := X }
  evolves : B'.Evolves s.table s'.table
  keeps : ∀ w, B.apart w → B'.apart w
  fresh : ∀ w, B'.apart w → B.apart w ∨ s.table.size ≤ w

namespace Reserves

theorem refl (hs : Held B p s) : Reserves B s B p s :=
  ⟨hs, ⟨_, rfl⟩, hs.later, fun _ h => h, fun _ h => .inl h⟩

theorem of_contains {act : Check α} {post : α → Table → Prop} {known : Table → Prop} {a : α}
    (hs : Held B p s) (h : Contains B p q known post act) (hk : ∀ T, B.Evolves s.table T → known T)
    (hact : act s = .ok a s') :
    Reserves B s B q s' ∧ ∀ T, B.Evolves s'.table T → post a T := by
  have h1 := h s hs hk
  rw [hact] at h1
  exact ⟨⟨h1.1, ⟨B.apart, rfl⟩, h1.2.1, fun _ h => h, fun _ h => .inl h⟩, h1.2.2⟩

theorem trans (h : Reserves B s B' p s') (h' : Reserves B' s' B'' q s₁) : Reserves B s B'' q s₁ where
  held := h'.held
  base := by
    obtain ⟨X, rfl⟩ := h.base
    obtain ⟨Y, rfl⟩ := h'.base
    exact ⟨Y, rfl⟩
  evolves := by
    have hdepth : B''.depth = B'.depth := by
      obtain ⟨Y, rfl⟩ := h'.base
      rfl
    have hev := h.evolves.widen h.held.healthy h'.keeps h'.fresh
    exact Table.Evolves.trans (hdepth ▸ hev) h'.evolves
  keeps w hw := h'.keeps w (h.keeps w hw)
  fresh w hw := by
    rcases h'.fresh w hw with hw | hw
    · exact h.fresh w hw
    · exact .inr (h.evolves.size.trans hw)

/-- What was live is live where more has been set apart. -/
theorem live (h : Reserves B s B' q s') (hs : s.table.Healthy) {t : Ty} (ht : B.Live s.table t) :
    B'.Live s'.table t := by
  have hdepth : B'.depth = B.depth := by
    obtain ⟨X, rfl⟩ := h.base
    rfl
  refine h.evolves.live _ le_rfl _ ?_
  rw [hdepth]
  exact Table.Live.widen hs ht h.fresh

end Reserves

/-- The variable is set apart, and live as a rigid one. -/
def SetsApart (B : Base) (s : Checker) (v : TyVar) : Prop := B.apart v.id ∧ B.Live s.table (.var v)

theorem SetsApart.later (h : SetsApart B s v) (hr : Reserves B s B' q s') (hs : s.table.Healthy) :
    SetsApart B' s' v :=
  ⟨hr.keeps _ h.1, hr.live hs h.2⟩

/-- A new rigid variable is live although it is set apart from the start. -/
theorem Held.reserveRigid (hs : Held B p s) {name : String} {inferred : Bool}
    (hok : Check.newVar name inferred true s = .ok t s') :
    t = .var ⟨s.table.size, name, inferred, true⟩ ∧ s'.table.size = s.table.size + 1 ∧
      Reserves B s (B.reserve s.table.size) p s' ∧
      SetsApart (B.reserve s.table.size) s' ⟨s.table.size, name, inferred, true⟩ := by
  cases hok
  obtain ⟨hheld, hev⟩ := hs.reserve name inferred true
  refine ⟨rfl, Table.size_newVar name inferred true s.frames.depth,
    ⟨hheld, ⟨_, rfl⟩, hev, fun w hw => .inl hw, fun w hw => hw.imp_right Eq.ge⟩, .inr rfl, ?_⟩
  have hlive := Table.live_newVar (fun w hw => (hs.apart w hw).1) name inferred true s.frames.depth
  have hu := (hheld.apart s.table.size (.inr rfl)).2
  obtain ⟨-, hg, hl⟩ := hlive.unbound hu
  exact .of_unbound (hlive.below _ (List.mem_singleton_self _)) hu ⟨fun _ => rfl, hg, hs.depth ▸ hl⟩

/-- A name for a live type. -/
theorem Held.bindType (hs : Held B p.inScope s) {name : String} (ht : B.Live s.table t)
    (hok : Check.bindType name t s = .ok () s') :
    s'.table = s.table ∧ Reserves B s B p.inScope s' := by
  have hcontains : Contains B p.inScope p.inScope (B.Live · t) Check.Anything (Check.bindType name t) :=
    Check.contains_bindType name fun _ h => h
  obtain ⟨hreserves, -⟩ := Reserves.of_contains hs hcontains (fun T hT => hT.live _ le_rfl _ ht) hok
  cases hok
  exact ⟨rfl, hreserves⟩

/-- A name for a new rigid variable. -/
theorem Held.bindRigid (hs : Held B p.inScope s) {name : String} {inferred : Bool}
    (hnew : Check.newVar name inferred true s = .ok t s₁) (hbind : Check.bindType name t s₁ = .ok () s') :
    t = .var ⟨s.table.size, name, inferred, true⟩ ∧ s'.table.size = s.table.size + 1 ∧
      Reserves B s (B.reserve s.table.size) p.inScope s' ∧
      SetsApart (B.reserve s.table.size) s' ⟨s.table.size, name, inferred, true⟩ := by
  obtain ⟨rfl, hsize, hreserves, hapart⟩ := hs.reserveRigid hnew
  obtain ⟨htable, hreserves'⟩ := hreserves.held.bindType hapart.2 hbind
  exact ⟨rfl, htable ▸ hsize, hreserves.trans hreserves', hapart.later hreserves' hreserves.held.healthy⟩

/-- The type parameters of a function. -/
theorem Held.bindTypeParams {names : List String} (hs : Held B p.inScope s)
    (hok : Check.bindTypeParams names s = .ok () s') :
    ∃ B', Reserves B s B' p.inScope s' ∧
      ∀ i name, names[i]? = some name → SetsApart B' s' ⟨s.table.size + i, name, false, true⟩ := by
  induction names generalizing B s with
  | nil =>
    cases hok
    exact ⟨B, .refl hs, nofun⟩
  | cons name names ih =>
    rw [Check.bindTypeParams] at hok
    obtain ⟨t, s₁, hnew, hok⟩ := Check.bind_eq_ok hok
    obtain ⟨⟨⟩, s₂, hbind, hok⟩ := Check.bind_eq_ok hok
    obtain ⟨-, hsize, hreserves, hapart⟩ := hs.bindRigid hnew hbind
    obtain ⟨B', hreserves', hrest⟩ := ih hreserves.held hok
    refine ⟨B', hreserves.trans hreserves', fun i n hn => ?_⟩
    cases i with
    | zero =>
      obtain rfl : name = n := by simpa using hn
      exact hapart.later hreserves' hreserves.held.healthy
    | succ i =>
      have h := hrest i n (by simpa using hn)
      rwa [hsize, Nat.add_assoc, Nat.add_comm 1 i] at h

/-- Among types, the variables attached to names are set apart, and live as rigid ones. -/
def SlotsApart (B : Base) (s : Checker) (types : List Ty) : Prop :=
  ∀ name v, .binding name (.var v) ∈ types → SetsApart B s v

/-- The parameters of a function: the inferred ones come first. -/
theorem Held.paramTypes {ps : List Param} {r : List Ty × Nat} (hs : Held B p.inScope s) (done : List Ty)
    {implicit : Nat} (hdone : ∀ t ∈ done, B.Live s.table t) (hle : implicit ≤ done.length)
    (hslots : SlotsApart B s (done.reverse.take implicit))
    (hok : Check.paramTypes done implicit ps s = .ok r s') :
    ∃ B', Reserves B s B' p.inScope s' ∧ (∀ t ∈ r.1, B'.Live s'.table t) ∧
      SlotsApart B' s' (r.1.take r.2) := by
  induction ps generalizing B s done implicit with
  | nil =>
    cases hok
    exact ⟨B, .refl hs, fun t ht => hdone t (List.mem_reverse.mp ht), hslots⟩
  | cons param ps ih =>
    rw [Check.paramTypes] at hok
    split at hok
    · split at hok
      · obtain ⟨_, _, hfail, -⟩ := Check.bind_eq_ok hok
        cases hfail
      · next hlength =>
        obtain ⟨t, s₁, hnew, hok⟩ := Check.bind_eq_ok hok
        obtain ⟨⟨⟩, s₂, hbind, hok⟩ := Check.bind_eq_ok hok
        obtain ⟨rfl, -, hreserves, hapart⟩ := hs.bindRigid hnew hbind
        have hall : implicit = done.length := not_not.mp hlength
        obtain ⟨B', hreserves', hlive, hslots'⟩ := ih hreserves.held (_ :: done)
          (List.forall_mem_cons.mpr ⟨hapart.2.binding, fun t ht => hreserves.live hs.healthy (hdone t ht)⟩)
          (Nat.succ_le_succ hle) (fun name v hv => by
            rw [List.reverse_cons, List.take_of_length_le (by simp [hall]), List.mem_append,
              List.mem_singleton] at hv
            rcases hv with hv | hv
            · refine (hslots name v ?_).later hreserves hs.healthy
              rwa [List.take_of_length_le (by simp [hall])]
            · cases hv
              exact hapart) hok
        exact ⟨B', hreserves.trans hreserves', hlive, hslots'⟩
    · obtain ⟨t, s₁, htype, hok⟩ := Check.bind_eq_ok hok
      have hcontains : Contains B p.inScope p.inScope (fun _ => True) (fun r T => B.Live T r)
          (Check.optionalType param.name param.annotation) := Check.contains_optionalType _ _
      obtain ⟨hreserves, hlive⟩ := Reserves.of_contains hs hcontains (fun _ _ => trivial) htype
      obtain ⟨B', hreserves', hlive', hslots'⟩ := ih hreserves.held (t :: done)
        (List.forall_mem_cons.mpr
          ⟨hlive _ hreserves.held.later, fun t ht => hreserves.live hs.healthy (hdone t ht)⟩)
        (hle.trans (Nat.le_succ _)) (fun name v hv => by
          rw [List.reverse_cons, List.take_append_of_le_length (by simpa using hle)] at hv
          exact (hslots name v hv).later hreserves hs.healthy) hok
      exact ⟨B', hreserves.trans hreserves', hlive', hslots'⟩

/-- **The state in which the body of a function is checked.** The variables of its type parameters and its
inferred parameters are set apart. -/
theorem Held.enterFunction {head : FnHead} {signature result : Ty} {loopDepth : Nat} (hs : Held B p s)
    (hok : Check.enterFunction head s = .ok (signature, result, loopDepth) s') :
    ∃ B', Reserves B s B' (p.inScope.inBody result) s' ∧ B'.Live s'.table signature ∧ B'.Live s'.table result ∧
      ∀ v, head.Declares s.table.size signature v → SetsApart B' s' v := by
  unfold Check.enterFunction at hok
  obtain ⟨⟨⟩, s₁, hpush, hok⟩ := Check.bind_eq_ok hok
  obtain ⟨⟨⟩, s₂, htypes, hok⟩ := Check.bind_eq_ok hok
  obtain ⟨⟨params, implicit⟩, s₃, hparams, hok⟩ := Check.bind_eq_ok hok
  have h1 : Reserves B s B p.inScope s₁ := (Reserves.of_contains hs
    (Check.contains_pushScope : Contains B p p.inScope (fun _ => True) Check.Anything _)
    (fun _ _ => trivial) hpush).1
  have hsize : s₁.table.size = s.table.size := by
    cases hpush
    rfl
  obtain ⟨B₂, h2, htypeParams⟩ := h1.held.bindTypeParams htypes
  obtain ⟨B₃, h3, hlive, hslots⟩ := h2.held.paramTypes [] (by simp) le_rfl nofun hparams
  -- from here on nothing more is set apart
  obtain ⟨t, s₄, hresult, hok⟩ := Check.bind_eq_ok hok
  have htype : Contains B₃ p.inScope p.inScope (fun _ => True) (fun r T => B₃.Live T r)
      (Check.optionalType "" head.result) := Check.contains_optionalType "" head.result
  obtain ⟨h4, hresult⟩ := Reserves.of_contains h3.held htype (fun _ _ => trivial) hresult
  have hrest : Contains B₃ p.inScope (p.inScope.inBody t)
      (fun T => (∀ u ∈ params, B₃.Live T u) ∧ B₃.Live T t) Check.Anything (do
        Check.bindValue head.name (.fn params t implicit)
        Check.bindParams head.params params
        let loopDepth ← Check.enterBody t
        return (.fn params t implicit, t, loopDepth) : Check (Ty × Ty × Nat)) := by
    refine (Check.contains_bindValue head.name fun T hk => ?_).bind fun _ => ?_
    · exact Table.Live.scheme (.fn hk.1 hk.2)
    · refine (Check.contains_bindParams head.params params fun T hk => hk.1.1).bind fun _ => ?_
      exact (Check.contains_enterBody fun T hk => hk.1.1.2).bind fun _ => .pure fun _ _ => trivial
  have hlive₄ : ∀ u ∈ params, B₃.Live s₄.table u := fun u hu => h4.live h3.held.healthy (hlive u hu)
  have hresult₄ := hresult _ h4.held.later
  obtain ⟨h5, -⟩ := Reserves.of_contains h4.held hrest (fun T hT =>
    ⟨fun u hu => hT.live _ le_rfl _ (hlive₄ u hu), hT.live _ le_rfl _ hresult₄⟩) hok
  have hanswer : signature = .fn params t implicit ∧ result = t := by
    obtain ⟨_, _, -, hok⟩ := Check.bind_eq_ok hok
    obtain ⟨_, _, -, hok⟩ := Check.bind_eq_ok hok
    obtain ⟨_, _, -, hok⟩ := Check.bind_eq_ok hok
    cases hok
    exact ⟨rfl, rfl⟩
  obtain ⟨rfl, rfl⟩ := hanswer
  have h45 := h4.trans h5
  have hsignature : B₃.Live s₄.table (.fn params result implicit) := .fn hlive₄ hresult₄
  refine ⟨B₃, h1.trans (h2.trans (h3.trans h45)), h5.live h4.held.healthy hsignature,
    h5.live h4.held.healthy hresult₄, fun v hv => ?_⟩
  cases hv with
  | typeParam hname =>
    have h := (htypeParams _ _ hname).later (h3.trans h45) h2.held.healthy
    rwa [hsize] at h
  | inferred hslot => exact (hslots _ _ hslot).later h45 h3.held.healthy

end Checker

end Reified
