import Reified.Proofs.Typing.Visits

/-!
# What becomes of type parameters

When the check of a function closes its frame, the variables of its type parameters and its inferred
parameters are unbound. Each is generalized unless it has escaped: a flexible variable that was there before
the function may have been bound to a type in which it remains, and has then drawn it out of the frame. What
is generalized occurs in nothing that outlives the function.

## Main definitions

* `Check.openFunction` — the check of a function up to the closing of its frame

## Main results

* `Checker.Visits.generalizes_parameters` — what becomes of the variables when the frame is closed
* `Checker.Visits.parameter_escapes` — one may escape
-/

namespace Reified

namespace Check

/-- The check of a function up to the closing of its frame: the signature, not yet generalized, and the
body. -/
def openFunction [Policy] (head : FnHead) (body : List Decl) : Check (Ty × List Decl) := do
  pushFrame
  fnBody head fun result => inBlock result body head.bodySpan (decls result [] body)

theorem decl_fn_eq [Policy] (expected : Ty) (head : FnHead) (body : List Decl) :
    decl expected (.fn head body) = (do
      let (signature, body) ← openFunction head body
      popFrame
      let signature ← resolveDeep signature
      bindValue head.name signature
      unify expected .void head.span
      return .fn { head with signature := some signature } body) := by
  rw [decl, function_eq]
  unfold fnType openFunction
  simp only [bind_assoc, pure_bind]

end Check

namespace Checker

open Check (Subject Contains Anything freshVar)

variable {B B' : Base} {p : Position} {s s₁ : Checker}

/-! ## Inside the frame -/

/-- Such a variable is unbound and neither generalized nor further in than the frame. -/
theorem SetsApart.unbound {v : TyVar} {q : Position} (h : SetsApart B s v) (hs : Held B q s) :
    v.id < s.table.size ∧ s.table.binding? v.id = none ∧ s.table.isGeneralized v.id = false ∧
      s.table.level v.id ≤ B.depth := by
  obtain ⟨hsize, hu⟩ := hs.apart _ h.1
  exact ⟨hsize, hu, (h.2.unbound hu).2⟩

section function

variable [Check.Policy]

/-- The body of a function is checked with the variables of its parameters set apart. -/
theorem Sound.openFunction {t signature : Ty} {head : FnHead} {body body' : List Decl}
    (hs : Sound (.decl t (.fn head body)) s)
    (hok : Check.openFunction head body s = .ok (signature, body') s₁) :
    ∃ B', Held B' .base s₁ ∧ B'.depth = s.frames.depth + 1 ∧ B'.scopes = s.scope.frames ∧
      B'.table = s.table ∧ (∀ w, B'.apart w → s.table.size ≤ w) ∧ B'.Evolves s.table s₁.table ∧
      ∀ v, head.Declares s.table.size signature v → SetsApart B' s₁ v := by
  unfold Check.openFunction at hok
  rw [Check.fnBody_eq] at hok
  obtain ⟨⟨⟩, s₂, hpush, hok⟩ := Check.bind_eq_ok hok
  obtain ⟨⟨found, result, loopDepth⟩, s₃, henter, hok⟩ := Check.bind_eq_ok hok
  obtain ⟨body₁, s₄, hbody, hok⟩ := Check.bind_eq_ok hok
  obtain ⟨⟨⟩, s₅, hleave, hok⟩ := Check.bind_eq_ok hok
  obtain ⟨⟨⟩, s₆, hpop, hok⟩ := Check.bind_eq_ok hok
  cases hok
  cases hpush
  obtain ⟨B', hreserves, -, hresult, hapart⟩ := hs.idle.held.inFrame.enterFunction henter
  have hblock : Contains B' (Position.base.inScope.inBody result) (Position.base.inScope.inBody result)
      (B'.Live · result) Anything
      (Check.inBlock result body head.bodySpan (Check.decls result [] body)) :=
    Check.contains_inBlock (fun _ h => h) fun h => Check.contains_decls body h
  have hleaves : Contains B' (Position.base.inScope.inBody result) Position.base.inScope (fun _ => True)
      Anything (Check.leaveBody loopDepth) := Check.contains_leaveBody loopDepth
  have hpops : Contains B' Position.base.inScope .base (fun _ => True) Anything Check.popScope :=
    Check.contains_popScope
  have h4 := (Reserves.of_contains hreserves.held hblock (fun T hT => hT.live _ le_rfl _ hresult) hbody).1
  have h5 := (Reserves.of_contains h4.held hleaves (fun _ _ => trivial) hleave).1
  have h6 := (Reserves.of_contains h5.held hpops (fun _ _ => trivial) hpop).1
  have hreserves' := h4.trans (h5.trans h6)
  have hall := hreserves.trans hreserves'
  obtain ⟨X, rfl⟩ := hreserves.base
  exact ⟨_, hall.held, rfl, rfl, rfl, fun w hw => (hall.fresh w hw).resolve_left id, hall.evolves,
    fun v hv => (hapart v hv).later hreserves' hreserves.held.healthy⟩

/-- **What becomes of the variables of type parameters and inferred parameters** of a function, at any depth
in any program, when its check succeeds and the frame of the function is closed: they are unbound; each is
thereby generalized if and only if it occurs in the resolved type of no variable that was there before the
function; if it is generalized, it occurs in the resolved type of nothing that is still in scope. -/
theorem Visits.generalizes_parameters {program : Program} {d : Decl} {s₀ : Checker} {t signature : Ty}
    {head : FnHead} {body body' : List Decl} (h₀ : Starts program s₀)
    (h : Visits d s₀ (.decl t (.fn head body)) s)
    (hok : Check.openFunction head body s = .ok (signature, body') s₁) {v : TyVar}
    (hv : head.Declares s.table.size signature v) :
    s₁.table.isBound v.id = false ∧
    (v.id ∈ (s₁.frames.pop s₁.table).1 ↔
      ∀ u : TyVar, u.id < s.table.size → ∀ w ∈ (s₁.table.resolveDeep (.var u)).1.vars, w.id ≠ v.id) ∧
    (v.id ∈ (s₁.frames.pop s₁.table).1 → ∀ f ∈ s₁.scope.frames, ∀ x ∈ f.values ++ f.types,
      ∀ w ∈ (s₁.table.resolveDeep x.2).1.vars, w.id ≠ v.id) := by
  have hsound := h.sound h₀.idle
  obtain ⟨B', hheld, hdepth, hscopes, htable, hnew, hev, hapart⟩ := hsound.openFunction hok
  obtain ⟨hsize, hu, hg, hle⟩ := (hapart v hv).unbound hheld
  have hid : s.table.size ≤ v.id := hnew _ (hapart v hv).1
  have hdeep : ∀ t, (s₁.table.resolveDeep t).1 = s₁.table.deep t := fun t =>
    (Table.steady_resolveDeep hheld.placed.tame.acyclic t).1
  have hplaced := hsound.idle.held.placed
  have hhealthy := hsound.idle.held.healthy
  -- nothing that was there before is as far in as the frame, unless it is generalized
  have hlow : ∀ u : TyVar, u.id < s.table.size → s₁.table.Reaches (.var u) v.id →
      s₁.table.level v.id ≤ s.frames.depth := fun u hlt hreach => by
    obtain ⟨y, hy, hreach⟩ := hev.grows.reaches_iff.mp hreach
    have hyu := Table.unbound_of_mem_vars_deep hplaced.tame.acyclic hy
    have hylt : y.id < s.table.size := Table.below_deep hplaced.tame.acyclic hhealthy.below_binding
      (t := .var u) (fun x hx => List.eq_of_mem_singleton hx ▸ hlt) y hy
    have hyg : s.table.isGeneralized y.id = false := by
      by_contra hg
      have hyu' := hev.sealed y.id (.inr (Bool.not_eq_false _ ▸ hg)) hyu
      have := (Table.reaches_var_of_unbound hyu').mp hreach
      omega
    have hyl : s.table.level y.id ≤ s.frames.depth := by
      rcases Nat.eq_zero_or_pos (s.table.level y.id) with hzero | hpos
      · omega
      · exact (hplaced.waits y.id hyu hyg hpos).le_length
    have hlive : s.table.Live B'.apart s.frames.depth (.var y) :=
      .of_unbound hylt hyu ⟨fun hX => absurd (hnew _ hX) (by omega), hyg, hyl⟩
    obtain ⟨w, hw, hwid⟩ := hreach
    exact hwid ▸ ((hev.live _ (by omega) _ hlive).deep w hw).2.2
  have hframes : s₁.frames.depth = s.frames.depth + 1 := hheld.depth.trans hdepth
  obtain ⟨ids, -, hmem, hids, -⟩ := hheld.placed.pop_spec (by omega)
  have hstays : v.id ∈ (s₁.frames.pop s₁.table).1 ↔ s.frames.depth < s₁.table.level v.id := by
    rw [hids, hmem, Table.stays, hframes]
    simp [Table.isBound_eq_false.mpr hu, hg]
  have hunreached : v.id ∈ (s₁.frames.pop s₁.table).1 ↔
      ∀ u : TyVar, u.id < s.table.size → ¬ s₁.table.Reaches (.var u) v.id := by
    rw [hstays]
    constructor
    · intro hlt u hulow hreach
      exact absurd (hlow u hulow hreach) (Nat.not_le.mpr hlt)
    · intro hall
      by_contra hnot
      obtain ⟨x, hx, -, -, hreach⟩ := hheld.drawn v.id hsize hu (by omega)
      exact hall x (htable ▸ hx) hreach
  refine ⟨Table.isBound_eq_false.mpr hu, ?_, fun hpop f hf x hx w hw hwid => ?_⟩
  · simp only [hunreached, hdeep, Table.Reaches, not_exists, not_and, ne_eq]
  · rw [hheld.frames_eq, hscopes] at hf
    have hbelow : Table.Below s.table.size x.2 := (List.mem_append.mp hx).elim
      (fun hx => (hsound.idle.held.covers.values f hf x hx).below)
      fun hx => (hsound.idle.held.covers.types f hf x hx).below
    rw [hdeep] at hw
    obtain ⟨u, hmemu, hreach⟩ := Table.reaches_iff.mp ⟨w, hw, hwid⟩
    exact hunreached.mp hpop u (hbelow u hmemu) hreach

end function

/-! ## Two functions with a type parameter -/

/-- The head of a function `g` with a type parameter `T` and a parameter `y` of that type. -/
def genericHead : FnHead := { (default : FnHead) with
  name := "g", typeParams := ["T"], params := [⟨"y", some (.name "T" default), false, default⟩] }

/-- A body that gives `y` back. -/
def echo : List Decl := [.stmt (.expr (.ident default "y"))]

/-- The variable of `T`, when it is the first one that is created. -/
def variableOfT (first : Nat) : TyVar := ⟨first, "T", false, true⟩

theorem declares_T (first : Nat) (signature : Ty) :
    genericHead.Declares first signature (variableOfT first) := .typeParam (i := 0) rfl

/-- The checker before the only declaration of a program. -/
def beforeOnly (d : Decl) : Checker := initial.after (openProgram [d])

/-- When `g` is declared by itself, `T` is generalized. -/
theorem generalized_T : (match freshVar "" (beforeOnly (.fn genericHead echo)) with
    | .error _ _ => false
    | .ok _ s => match Check.openFunction genericHead echo s with
      | .error _ _ => false
      | .ok _ s₁ => decide (s.table.size ∈ (s₁.frames.pop s₁.table).1)) = true := by
  cbv

/-- The variable of `T` then occurs in nothing that was there before. -/
theorem Visits.generalizes_parameters_echo : ∃ t s signature body' s₁,
    Visits (.fn genericHead echo) (beforeOnly (.fn genericHead echo)) (.decl t (.fn genericHead echo)) s ∧
    Check.openFunction genericHead echo s = .ok (signature, body') s₁ ∧
    s.table.size ∈ (s₁.frames.pop s₁.table).1 ∧
    ∀ u : TyVar, u.id < s.table.size → ∀ w ∈ (s₁.table.resolveDeep (.var u)).1.vars, w.id ≠ s.table.size := by
  have hgeneralized := generalized_T
  cases hnew : freshVar "" (beforeOnly (.fn genericHead echo)) with
  | error e s =>
    rw [hnew] at hgeneralized
    cases hgeneralized
  | ok t s =>
    simp only [hnew] at hgeneralized
    cases hopen : Check.openFunction genericHead echo s with
    | error e s₁ =>
      rw [hopen] at hgeneralized
      cases hgeneralized
    | ok r s₁ =>
      simp only [hopen, decide_eq_true_eq] at hgeneralized
      have hstart : Starts [.fn genericHead echo] (beforeOnly (.fn genericHead echo)) := .first
      have hmain := Visits.generalizes_parameters hstart (.start hnew) hopen (declares_T s.table.size r.1)
      exact ⟨t, s, r.1, r.2, s₁, .start hnew, hopen, hgeneralized, hmain.2.1.mp hgeneralized⟩

/-- A body that compares `y` with an `x` from outside. -/
def compare : List Decl :=
  [.stmt (.expr (.binary default .equal (.ident default "x") (.ident default "y")))]

/-- A function `f` with a parameter `x` of any type. -/
def outerHead : FnHead := { (default : FnHead) with name := "f", params := [⟨"x", none, false, default⟩] }

/-- A function inside it compares a value of its type parameter with `x`. -/
def nested : Decl := .fn outerHead [.fn genericHead compare]

/-- Its variable is not generalized when its frame is closed: it has become the type of `x`. -/
theorem not_generalized_T : (match freshVar "" (beforeOnly nested) with
    | .error _ _ => false
    | .ok _ s => match Check.openBody outerHead [.fn genericHead compare] s with
      | .error _ _ => false
      | .ok _ s' => match Check.openFunction genericHead compare s' with
        | .error _ _ => false
        | .ok _ s₁ => decide (s'.table.size ∉ (s₁.frames.pop s₁.table).1)) = true := by
  cbv

/-- **A type parameter may escape its function.** -/
theorem Visits.parameter_escapes : ¬ ∀ (program : Program) (d : Decl) (s₀ s s₁ : Checker) (t signature : Ty)
    (head : FnHead) (body body' : List Decl) (v : TyVar), Starts program s₀ →
      Visits d s₀ (.decl t (.fn head body)) s → Check.openFunction head body s = .ok (signature, body') s₁ →
      head.Declares s.table.size signature v → v.id ∈ (s₁.frames.pop s₁.table).1 := by
  intro hall
  have hnot := not_generalized_T
  cases hnew : freshVar "" (beforeOnly nested) with
  | error e s =>
    rw [hnew] at hnot
    cases hnot
  | ok t s =>
    simp only [hnew] at hnot
    cases hbody : Check.openBody outerHead [.fn genericHead compare] s with
    | error e s' =>
      rw [hbody] at hnot
      cases hnot
    | ok u s' =>
      simp only [hbody] at hnot
      cases hopen : Check.openFunction genericHead compare s' with
      | error e s₁ =>
        rw [hopen] at hnot
        cases hnot
      | ok r s₁ =>
        simp only [hopen, decide_eq_true_eq] at hnot
        have hinside : Visits nested (beforeOnly nested) (.decl u (.fn genericHead compare)) s' :=
          ((Visits.start hnew).step (.body outerHead _) hbody).step (.first _ []) rfl
        exact hnot (hall [nested] nested _ s' s₁ u r.1 genericHead compare r.2 _ .first hinside hopen
          (declares_T s'.table.size r.1))

end Checker

end Reified
