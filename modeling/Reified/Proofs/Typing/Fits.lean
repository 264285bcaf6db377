import Reified.Proofs.Table.Generic
import Reified.Proofs.Tree.Ordered
import Reified.Proofs.Typing.Actions
import Reified.Typing.Expr

/-!
# The types of data

Of an expression that only puts other ones together it can be said which types it has under an assignment of
types to the variables of a checker, without checking it. Checking it, with or without an expected type, finds
just these: the solutions of the table afterwards are those under which the expression has the type, whatever is
assigned to the variables that are new.

## Main definitions

* `Expr.IsData` — identifiers, literals, and what puts expressions together
* `Expr.Fits` — the types of an expression under an assignment
* `Check.Determines` — an action determines a relation on assignments

## Main results

* `Check.finds_typing` — **checking determines** that an expression has a type
-/

namespace Reified

/-! ## Types of expressions -/

/-- Identifiers, literals, parentheses, arrays, tuples and objects. -/
def Expr.IsData : Expr → Prop
  | .ident .. | .literal .. | .paren .. | .array .. | .tuple .. | .object .. => True
  | _ => False

mutual

/-- The expression has the type under the assignment: identifiers have the instances of their types. -/
def Expr.Fits (s : Checker) (θ : TyVar → Ty) : Expr → Ty → Prop
  | .ident _ x, τ => ∃ t, s.scope.lookup x = some t ∧ s.table.HasInstance t θ τ
  | .literal _ v, τ => τ = v.ty.erase
  | .paren _ e, τ => e.Fits s θ τ
  | .array _ es, τ => ∃ item, τ = .array item ∧ Expr.FitsList s θ es (List.replicate es.length item)
  | .tuple _ es, τ => ∃ τs, τ = .tuple τs ∧ Expr.FitsList s θ es τs
  | .object _ fs, τ => ∃ τs, τ = .record τs ∧ Expr.FitsFields s θ fs τs
  | _, _ => False

/-- `Expr.Fits` for each expression of a list. -/
def Expr.FitsList (s : Checker) (θ : TyVar → Ty) : List Expr → List Ty → Prop
  | [], τs => τs = []
  | e :: es, τs => ∃ τ rest, τs = τ :: rest ∧ e.Fits s θ τ ∧ Expr.FitsList s θ es rest

/-- `Expr.Fits` for the expression of each field. -/
def Expr.FitsFields (s : Checker) (θ : TyVar → Ty) : List (String × Expr) → List (String × Ty) → Prop
  | [], τs => τs = []
  | (name, e) :: fs, τs => ∃ τ rest, τs = (name, τ) :: rest ∧ e.Fits s θ τ ∧ Expr.FitsFields s θ fs rest

end

/-- The types in scope are over the variables of the table. -/
structure Checker.Known (us : List TyVar) (s : Checker) : Prop where
  inv : s.table.Inv us
  scope : ∀ x t, s.scope.lookup x = some t → t.Over us

section congr

variable {us : List TyVar} {s : Checker} {θ θ' : TyVar → Ty}

mutual

/-- Only what is assigned to the variables of the checker matters. -/
theorem Expr.Fits.congr (hs : s.Known us) (hθ : ∀ v ∈ us, θ v = θ' v) : (e : Expr) → ∀ {τ : Ty},
    e.Fits s θ τ → e.Fits s θ' τ
  | .ident .., τ, h => by
    obtain ⟨t, ht, h⟩ := h
    exact ⟨t, ht, h.congr hs.inv (hs.scope _ t ht) hθ⟩
  | .literal .., τ, h => h
  | .paren _ e, τ, h => Expr.Fits.congr hs hθ e h
  | .array _ es, τ, h => by
    obtain ⟨item, rfl, h⟩ := h
    exact ⟨item, rfl, Expr.FitsList.congr hs hθ es h⟩
  | .tuple _ es, τ, h => by
    obtain ⟨τs, rfl, h⟩ := h
    exact ⟨τs, rfl, Expr.FitsList.congr hs hθ es h⟩
  | .object _ fs, τ, h => by
    obtain ⟨τs, rfl, h⟩ := h
    exact ⟨τs, rfl, Expr.FitsFields.congr hs hθ fs h⟩
  | .binary .., τ, h | .call .., τ, h | .subscript .., τ, h | .member .., τ, h | .type .., τ, h => h

theorem Expr.FitsList.congr (hs : s.Known us) (hθ : ∀ v ∈ us, θ v = θ' v) : (es : List Expr) →
    ∀ {τs : List Ty}, Expr.FitsList s θ es τs → Expr.FitsList s θ' es τs
  | [], _, h => h
  | e :: es, _, h => by
    obtain ⟨τ, rest, rfl, he, hes⟩ := h
    exact ⟨τ, rest, rfl, Expr.Fits.congr hs hθ e he, Expr.FitsList.congr hs hθ es hes⟩

theorem Expr.FitsFields.congr (hs : s.Known us) (hθ : ∀ v ∈ us, θ v = θ' v) : (fs : List (String × Expr)) →
    ∀ {τs : List (String × Ty)}, Expr.FitsFields s θ fs τs → Expr.FitsFields s θ' fs τs
  | [], _, h => h
  | (_, e) :: fs, _, h => by
    obtain ⟨τ, rest, rfl, he, hfs⟩ := h
    exact ⟨τ, rest, rfl, Expr.Fits.congr hs hθ e he, Expr.FitsFields.congr hs hθ fs hfs⟩

end

end congr

/-! ## Actions that determine a relation -/

namespace Check

variable {α β γ δ : Type} {us vs ws : List TyVar} {s s' : Checker}

/-- The relation is about what is assigned to the given variables. -/
def Local (vs : List TyVar) (R : (TyVar → Ty) → β → Prop) : Prop :=
  ∀ θ θ' b, (∀ v ∈ vs, θ v = θ' v) → R θ b → R θ' b

/-- If the action succeeds, then the table afterwards determines a relation on assignments, and the answer has a
property; if it fails, no assignment satisfies the relation that leaves rigid variables alone. -/
def Determines (vs : List TyVar) (s : Checker) (post : List TyVar → Table → α → Prop)
    (read : α → (TyVar → Ty) → β) (R : (TyVar → Ty) → β → Prop) (act : Check α) : Prop :=
  match act s with
  | .ok a s' => s'.scope = s.scope ∧ ∃ ws, s.table.Determines vs ws s'.table (read a) R ∧ post ws s'.table a
  | .error _ _ => ∀ θ b, s.table.Solves Ty.erase vs θ → Table.FixesRigid vs θ → ¬ R θ b

namespace Determines

variable {post : List TyVar → Table → α → Prop} {read : α → (TyVar → Ty) → β} {R R' : (TyVar → Ty) → β → Prop}
  {act : Check α}

/-- Relations that are the same for all solutions. -/
theorem congr (h : Determines vs s post read R act)
    (hR : ∀ θ b, s.table.Solves Ty.erase vs θ → (R θ b ↔ R' θ b)) : Determines vs s post read R' act := by
  unfold Determines at h ⊢
  cases hact : act s with
  | ok a s' =>
    rw [hact] at h
    obtain ⟨hscope, ws, hdetermines, ha⟩ := h
    refine ⟨hscope, ws, { hdetermines with sound := fun θ hθ => ?_, complete := fun θ b hθ hb => ?_ }, ha⟩
    · have hsol := hdetermines.sound θ hθ
      exact ⟨hsol.1, (hR _ _ hsol.1).mp hsol.2⟩
    · exact hdetermines.complete θ b hθ ((hR θ b hθ).mpr hb)
  | error e s' =>
    rw [hact] at h
    exact fun θ b hθ hfix hb => h θ b hθ hfix ((hR θ b hθ).mpr hb)

theorem mono {post' : List TyVar → Table → α → Prop} (h : Determines vs s post read R act)
    (hpost : ∀ ws T a, post ws T a → post' ws T a) : Determines vs s post' read R act := by
  unfold Determines at h ⊢
  cases hact : act s with
  | ok a s' =>
    rw [hact] at h
    obtain ⟨hscope, ws, hdetermines, ha⟩ := h
    exact ⟨hscope, ws, hdetermines, hpost _ _ _ ha⟩
  | error e s' =>
    rw [hact] at h
    exact h

/-- Nothing has been found before. -/
theorem of_nil {ρ : Type} {read : α → (TyVar → Ty) → List ρ} {R : (TyVar → Ty) → List ρ → Prop}
    (h : Determines vs s post read (fun θ b => ∃ new, b = [] ++ new ∧ R θ new) act) :
    Determines vs s post read R act :=
  h.congr fun _ _ _ => by simp

/-- An answer without an action. -/
theorem pure (hs : s.table.Inv vs) {a : α} (ha : post vs s.table a)
    (hR : ∀ θ b, s.table.Solves Ty.erase vs θ → (R θ b ↔ b = read a θ)) :
    Determines vs s post read R (Pure.pure a) :=
  ⟨rfl, vs, { Table.Onward.refl hs with
    sound := fun θ hθ => ⟨hθ, (hR θ _ hθ).mpr rfl⟩
    complete := fun θ b hθ hb => ⟨θ, fun _ _ => rfl, hθ, ((hR θ b hθ).mp hb).symm⟩ }, ha⟩

/-- **One action after the other.** -/
theorem bind {next : α → Check γ} {post' : List TyVar → Table → γ → Prop} {read' : γ → (TyVar → Ty) → δ}
    (h : Determines vs s post read R act) (R' : (TyVar → Ty) → β → δ → Prop)
    (hnext : ∀ ws s' a, s'.scope = s.scope → s.table.Onward vs ws s'.table → post ws s'.table a →
      Determines ws s' post' read' (fun θ d => R' θ (read a θ) d) (next a))
    (hlocal : ∀ b, Local vs fun θ d => R' θ b d) :
    Determines vs s post' read' (fun θ d => ∃ b, R θ b ∧ R' θ b d) (act >>= next) := by
  unfold Determines at h ⊢
  show match EStateM.bind act next s with
    | .ok c s' => s'.scope = s.scope ∧ ∃ ws, s.table.Determines vs ws s'.table (read' c)
        (fun θ d => ∃ b, R θ b ∧ R' θ b d) ∧ post' ws s'.table c
    | .error _ _ => ∀ θ d, s.table.Solves Ty.erase vs θ → Table.FixesRigid vs θ → ¬ ∃ b, R θ b ∧ R' θ b d
  rw [EStateM.bind]
  cases hact : act s with
  | error e s' =>
    rw [hact] at h
    exact fun θ d hθ hfix ⟨b, hb, _⟩ => h θ b hθ hfix hb
  | ok a s₁ =>
    rw [hact] at h
    obtain ⟨hscope, ws, h₁, ha⟩ := h
    have h₂ := hnext ws s₁ a hscope h₁.toOnward ha
    unfold Determines at h₂
    -- an assignment for the old variables becomes a solution of the table in between
    have hbetween : ∀ θ b d, s.table.Solves Ty.erase vs θ → R θ b → R' θ b d → ∃ θ', (∀ v ∈ vs, θ' v = θ v) ∧
        s₁.table.Solves Ty.erase ws θ' ∧ R' θ' (read a θ') d := fun θ b d hθ hb hd => by
      obtain ⟨θ', hagree, hsol, rfl⟩ := h₁.complete θ b hθ hb
      exact ⟨θ', hagree, hsol, hlocal _ θ θ' d (fun v hv => (hagree v hv).symm) hd⟩
    dsimp only
    cases hrest : next a s₁ with
    | error e s₂ =>
      rw [hrest] at h₂
      rintro θ d hθ hfix ⟨b, hb, hd⟩
      obtain ⟨θ', hagree, hsol, hd⟩ := hbetween θ b d hθ hb hd
      exact h₂ θ' d hsol (h₁.fixesRigid hagree hfix) hd
    | ok c s₂ =>
      rw [hrest] at h₂
      obtain ⟨hscope₂, us, h₂, hc⟩ := h₂
      refine ⟨hscope₂.trans hscope, us, { h₁.toOnward.trans h₂.toOnward with
        sound := fun θ hθ => ?_
        complete := fun θ d hθ => ?_ }, hc⟩
      · obtain ⟨hsol, hd⟩ := h₂.sound θ hθ
        obtain ⟨hsol, hb⟩ := h₁.sound θ hsol
        exact ⟨hsol, _, hb, hd⟩
      · rintro ⟨b, hb, hd⟩
        obtain ⟨θ₁, hagree₁, hsol₁, hd⟩ := hbetween θ b d hθ hb hd
        obtain ⟨θ₂, hagree₂, hsol₂, hread⟩ := h₂.complete θ₁ d hsol₁ hd
        exact ⟨θ₂, fun v hv => (hagree₂ v (h₁.subset hv)).trans (hagree₁ v hv), hsol₂, hread⟩

/-- An action that determines nothing comes first. -/
theorem after {next : α → Check γ} {post' : List TyVar → Table → γ → Prop} {read' : γ → (TyVar → Ty) → δ}
    {R' : (TyVar → Ty) → δ → Prop} (h : Determines vs s post (fun _ _ => ()) (fun _ _ => True) act)
    (hnext : ∀ ws s' a, s'.scope = s.scope → s.table.Onward vs ws s'.table → post ws s'.table a →
      Determines ws s' post' read' R' (next a)) (hlocal : Local vs R') :
    Determines vs s post' read' R' (act >>= next) := by
  have h' := h.bind (fun θ _ d => R' θ d) hnext fun _ => hlocal
  exact h'.congr fun θ d _ => ⟨fun ⟨_, _, h⟩ => h, fun h => ⟨(), trivial, h⟩⟩

end Determines

/-! ## Elementary actions -/

/-- A checker while an expression is checked: it is later than the one with which that has begun, and the scopes
are the same. -/
structure Since (us : List TyVar) (K : Checker) (vs : List TyVar) (s : Checker) : Prop where
  known : K.Known us
  scope : s.scope = K.scope
  onward : K.table.Onward us vs s.table

namespace Since

variable {K : Checker}

theorem inv (h : Since us K vs s) : s.table.Inv vs := h.onward.inv

theorem later (h : Since us K vs s) (hscope : s'.scope = s.scope) (hs' : s.table.Onward vs ws s'.table) :
    Since us K ws s' :=
  ⟨h.known, hscope.trans h.scope, h.onward.trans hs'⟩

end Since

/-- What is known of the expected type, if there is one. -/
def ExpectedFit (vs : List TyVar) (T : Table) (expected : Option Ty) : Prop := ∀ t ∈ expected, T.Fit vs t

theorem ExpectedFit.none {T : Table} : ExpectedFit vs T .none := fun _ ht => nomatch ht

theorem ExpectedFit.onward {expected : Option Ty} {T S : Table} (h : ExpectedFit vs T expected)
    (hS : T.Onward vs ws S) : ExpectedFit ws S expected := fun t ht => (h t ht).onward hS

/-- The type is the expected one under the assignment, if there is one. -/
def Meets (expected : Option Ty) (θ : TyVar → Ty) (τ : Ty) : Prop := ∀ t ∈ expected, τ = t.erase.subst θ

theorem ExpectedFit.local {expected : Option Ty} {T : Table} (h : ExpectedFit vs T expected) :
    Local vs (Meets expected) := fun _ _ _ hθ hτ t ht =>
  (hτ t ht).trans ((h t ht).written.subst_congr hθ)

variable {t u : Ty} {expected : Option Ty}

/-- What the expected type stands for, if it is looked at: the same for all solutions. -/
def Form (vs : List TyVar) (T : Table) (expected form : Option Ty) : Prop :=
  ∀ t f, expected = some t → form = some f → T.Fit vs f ∧
    ∀ θ, T.Solves Ty.erase vs θ → t.erase.subst θ = f.erase.subst θ

theorem determines_expectedForm (hs : s.table.Inv vs) (h : ExpectedFit vs s.table expected) :
    Determines vs s (fun ws T form => Form ws T expected form) (fun _ _ => ()) (fun _ _ => True)
      (expectedForm expected) := by
  cases expected with
  | none => exact .pure hs nofun fun _ _ _ => ⟨fun _ => rfl, fun _ => trivial⟩
  | some t =>
    have ht := h t rfl
    have honward := Table.onward_resolve hs ht
    obtain ⟨hagrees, hover, hdeep, -⟩ := Table.resolve_spec hs ht.written
    have hdeep' : (s.table.resolve t).2.deep (s.table.resolve t).1 = (s.table.resolve t).2.deep t := by
      rw [hagrees.same.deep, hdeep, hagrees.same.deep]
    have ht' := ht.onward honward
    refine ⟨rfl, vs, { honward with
      sound := fun _ hθ => ⟨hagrees.same.solves_iff.mp hθ, trivial⟩
      complete := fun θ _ hθ _ => ⟨θ, fun _ _ => rfl, hagrees.same.solves_iff.mpr hθ, rfl⟩ }, ?_⟩
    rintro u f hu hf
    obtain rfl := Option.some.inj hu
    obtain rfl := Option.some.inj hf
    exact ⟨⟨hover, hdeep' ▸ ht'.unionFree, ht'.monomorphic.congr hdeep' fun _ => rfl⟩,
      fun θ hθ => hθ.erase_eq ht.written hover hdeep'.symm⟩

theorem determines_unify (hs : s.table.Inv vs) (ht : s.table.Fit vs t) (hu : s.table.Fit vs u) (span : Span) :
    Determines vs s (fun _ _ _ => True) (fun _ _ => ()) (fun θ _ => Table.Equates t u θ) (unify t u span) := by
  obtain ⟨T, S, F, D, R, L⟩ := s
  have h := Table.determines_unify hs ht hu
  simp only [Determines, unify]
  cases hunify : T.unify t u with
  | ok _ T' =>
    rw [hunify] at h
    exact ⟨rfl, vs, h, trivial⟩
  | error e T' =>
    rw [hunify] at h
    exact fun θ _ => h θ

theorem determines_freshVar (hs : s.table.Inv vs) (name : String) :
    Determines vs s (fun ws T t => T.Fit ws t) (fun t θ => t.erase.subst θ) (fun _ _ => True) (freshVar name) := by
  have h := Table.determines_newVar hs name s.frames.depth
  exact ⟨rfl, _, h.1, h.2⟩

variable {K : Checker}

/-- **The type of an identifier** is an instance of its type in scope. -/
theorem determines_lookup (hs : Since us K vs s) {x : String}
    (hunion : ∀ t, K.scope.lookup x = some t → (K.table.deep t).UnionFree) (span : Span) :
    Determines vs s (fun ws T t => T.Fit ws t) (fun t θ => t.erase.subst θ)
      (fun θ τ => ∃ t, K.scope.lookup x = some t ∧ K.table.HasInstance t θ τ) (lookup x span) := by
  unfold Determines
  rw [← hs.scope] at hunion ⊢
  rw [lookup_eq]
  cases hx : s.scope.lookup x with
  | none =>
    rintro θ τ - - ⟨t, ht, -⟩
    cases ht
  | some t =>
    have ht := hs.known.scope x t (hs.scope ▸ hx)
    have hover := ht.mono fun _ hv => hs.onward.subset hv
    have h := Table.determines_instantiate hs.inv hover (hs.onward.unionFree (hunion t hx)) s.frames.depth
    have hdetermines : Determines vs s (fun ws T t => T.Fit ws t) (fun t θ => t.erase.subst θ)
        (s.table.HasInstance t) (instantiate t) := ⟨rfl, _, h.1, h.2⟩
    refine hdetermines.congr fun θ τ hθ => ?_
    rw [hs.onward.hasInstance_iff hs.known.inv ht hθ]
    simp

/-- The end of checking an expression: its type is unified with the expected one. -/
theorem determines_conclude (hs : s.table.Inv vs) (hexpected : ExpectedFit vs s.table expected)
    (hu : s.table.Fit vs u) (e : Expr) :
    Determines vs s (fun ws T r => T.Fit ws r.1) (fun r θ => r.1.erase.subst θ)
      (fun θ τ => τ = u.erase.subst θ ∧ Meets expected θ τ) (conclude expected u e) := by
  have hanswer {ws : List TyVar} {s' : Checker} (hs : s'.table.Inv ws) (hu : s'.table.Fit ws u) :
      Determines ws s' (fun ws T r => T.Fit ws r.1) (fun r θ => r.1.erase.subst θ)
        (fun θ τ => τ = u.erase.subst θ) (Pure.pure (u, e.annotate u)) := .pure hs hu fun _ _ _ => .rfl
  cases expected with
  | none => exact (hanswer hs hu).congr fun θ τ _ => by simp [Meets]
  | some t =>
    have hbind := (determines_unify hs (hexpected t rfl) hu (e.annotate u).span).bind
      (fun θ _ τ => τ = u.erase.subst θ) (fun ws s' _ _ hon _ => hanswer hon.inv (hu.onward hon))
      fun _ θ θ' τ hθ hτ => hτ.trans (hu.written.subst_congr hθ)
    refine hbind.congr fun θ τ _ => ?_
    simp only [Meets, Option.mem_def, Option.some.injEq, forall_eq', exists_const, Table.Equates]
    constructor
    · rintro ⟨h, rfl⟩
      exact ⟨rfl, h.symm⟩
    · rintro ⟨rfl, h⟩
      exact ⟨h.symm, rfl⟩

/-! ## Several expressions -/

/-- The types are those expected at their positions under the assignment, as far as types are expected. -/
def MeetsList (expected : List Ty) (θ : TyVar → Ty) (τs : List Ty) : Prop :=
  ∀ p ∈ expected.zip τs, p.2 = p.1.erase.subst θ

theorem meetsList_cons {expected : List Ty} {θ : TyVar → Ty} {τ : Ty} {τs : List Ty} :
    MeetsList expected θ (τ :: τs) ↔ Meets expected.head? θ τ ∧ MeetsList expected.tail θ τs := by
  cases expected with
  | nil => simp [MeetsList, Meets]
  | cons t ts => simp [MeetsList, Meets]

theorem meetsList_iff {ts τs : List Ty} (h : τs.length = ts.length) {θ : TyVar → Ty} :
    MeetsList ts θ τs ↔ τs = ts.map (·.erase.subst θ) := by
  induction ts generalizing τs with
  | nil =>
    obtain rfl := List.length_eq_zero_iff.mp h
    simp [MeetsList]
  | cons t ts ih =>
    obtain ⟨τ, τs, rfl⟩ := List.exists_cons_of_length_eq_add_one h
    rw [meetsList_cons, List.tail_cons, ih (by simpa using h)]
    simp [Meets]

theorem local_meetsList {ts : List Ty} (h : ∀ t ∈ ts, t.Over vs) : Local vs (MeetsList ts) :=
  fun _ _ _ hθ hτs p hp => (hτs p hp).trans ((h p.1 (List.of_mem_zip hp).1).subst_congr hθ)

end Check

theorem Expr.FitsList.length {s : Checker} {θ : TyVar → Ty} {es : List Expr} {τs : List Ty}
    (h : Expr.FitsList s θ es τs) : τs.length = es.length := by
  induction es generalizing τs with
  | nil => exact congrArg List.length h
  | cons e es ih =>
    obtain ⟨τ, rest, rfl, -, hrest⟩ := h
    simp [ih hrest]

theorem Expr.FitsFields.names {s : Checker} {θ : TyVar → Ty} {fs : List (String × Expr)}
    {τs : List (String × Ty)} (h : Expr.FitsFields s θ fs τs) : Fields.names τs = Fields.names fs := by
  induction fs generalizing τs with
  | nil => exact congrArg Fields.names h
  | cons f fs ih =>
    obtain ⟨τ, rest, rfl, -, hrest⟩ := h
    exact congrArg (f.1 :: ·) (ih hrest)

namespace Check

/-- The types that a list of expressions is expected to have are the types that it has. -/
theorem exists_fitsList_iff {s : Checker} {θ : TyVar → Ty} {es : List Expr} {ts : List Ty}
    (h : es.length = ts.length) :
    (∃ τs, Expr.FitsList s θ es τs ∧ MeetsList ts θ τs) ↔ Expr.FitsList s θ es (ts.map (·.erase.subst θ)) := by
  constructor
  · rintro ⟨τs, hes, hmeets⟩
    rwa [← (meetsList_iff (hes.length.trans h)).mp hmeets]
  · exact fun hes => ⟨_, hes, (meetsList_iff (List.length_map _)).mpr rfl⟩

theorem exists_fitsFields_iff {s : Checker} {θ : TyVar → Ty} {fs : List (String × Expr)}
    {ts : List (String × Ty)} (h : Fields.names fs = Fields.names ts) :
    (∃ τs, Expr.FitsFields s θ fs τs ∧ MeetsList (ts.map Prod.snd) θ (τs.map Prod.snd)) ↔
      Expr.FitsFields s θ fs (ts.map fun f => (f.1, f.2.erase.subst θ)) := by
  constructor
  · rintro ⟨τs, hfs, hmeets⟩
    have hnames := hfs.names.trans h
    have hlen : (τs.map Prod.snd).length = (ts.map Prod.snd).length := by
      simpa [Fields.names] using congrArg List.length hnames
    have hvalues := (meetsList_iff hlen).mp hmeets
    have heq : τs = ts.map fun f => (f.1, f.2.erase.subst θ) := calc
      τs = List.zip (τs.map Prod.fst) (τs.map Prod.snd) := List.zip_of_prod rfl rfl
      _ = List.zip (ts.map Prod.fst) ((ts.map Prod.snd).map (·.erase.subst θ)) := congrArg₂ List.zip hnames hvalues
      _ = ts.map fun f => (f.1, f.2.erase.subst θ) := (List.zip_of_prod (by simp) (by simp)).symm
    rwa [← heq]
  · refine fun hfs => ⟨_, hfs, (meetsList_iff (by simp)).mpr ?_⟩
    simp

end Check

/-! ## Checking data -/

/-- An expression is one of those that put others together, its fields are in order, and an identifier has no
union in its type. -/
structure Expr.Simple (s : Checker) (e : Expr) : Prop where
  data : e.IsData
  ordered : e.InOrder
  unionFree : ∀ n x t, e = .ident n x → s.scope.lookup x = some t → (s.table.deep t).UnionFree

namespace Check

variable {α β : Type} {us vs : List TyVar} {K s : Checker} {expected : Option Ty} {e : Expr}

/-- Checking the expression determines that it has a type, and the expected one if there is one. -/
def Finds (K : Checker) (vs : List TyVar) (s : Checker) (e : Expr) (expected : Option Ty)
    (act : Check (Ty × Expr)) : Prop :=
  Determines vs s (fun ws T r => T.Fit ws r.1) (fun r θ => r.1.erase.subst θ)
    (fun θ τ => e.Fits K θ τ ∧ Meets expected θ τ) act

theorem local_fits (hs : Since us K vs s) (h : ExpectedFit vs s.table expected) (e : Expr) :
    Local vs fun θ τ => e.Fits K θ τ ∧ Meets expected θ τ := fun θ θ' τ hθ hτ =>
  ⟨Expr.Fits.congr hs.known (fun v hv => hθ v (hs.onward.subset hv)) e hτ.1, h.local θ θ' τ hθ hτ.2⟩

/-- Checking begins with a look at what the expected type stands for. -/
theorem finds_form (hs : Since us K vs s) (h : ExpectedFit vs s.table expected)
    {next : Option Ty → Check (Ty × Expr)}
    (hnext : ∀ ws s' form, Since us K ws s' → ExpectedFit ws s'.table expected →
      Form ws s'.table expected form → Finds K ws s' e expected (next form)) :
    Finds K vs s e expected (expectedForm expected >>= next) :=
  (determines_expectedForm hs.inv h).after
    (fun ws s' form hscope hon hform => hnext ws s' form (hs.later hscope hon) (h.onward hon) hform)
    (local_fits hs h e)

section parts

variable {post : List TyVar → Table → α → Prop} {read : α → (TyVar → Ty) → β} {R : (TyVar → Ty) → β → Prop}
  {act : Check α}

/-- The type of the expression is put together from what has been found of its parts. -/
theorem Determines.finds (h : Determines vs s post read R act) (hexpected : ExpectedFit vs s.table expected)
    {found : α → Ty} (rebuilt : α → Expr) (build : β → Ty) (hfit : ∀ ws T a, post ws T a → T.Fit ws (found a))
    (hbuild : ∀ a θ, (found a).erase.subst θ = build (read a θ))
    (hfits : ∀ θ τ, s.table.Solves Ty.erase vs θ → ((∃ b, R θ b ∧ τ = build b) ↔ e.Fits K θ τ)) :
    Finds K vs s e expected (act >>= fun a => conclude expected (found a) (rebuilt a)) := by
  refine (h.bind (fun θ b τ => τ = build b ∧ Meets expected θ τ) (fun ws s' a _ hon ha => ?_)
    fun b θ θ' τ hθ hτ => ⟨hτ.1, hexpected.local θ θ' τ hθ hτ.2⟩).congr fun θ τ hθ => ?_
  · simp only [← hbuild]
    exact determines_conclude hon.inv (hexpected.onward hon) (hfit _ _ _ ha) _
  · rw [← hfits θ τ hθ]
    exact ⟨fun ⟨b, hb, hτ, hmeets⟩ => ⟨⟨b, hb, hτ⟩, hmeets⟩, fun ⟨⟨b, hb, hτ⟩, hmeets⟩ => ⟨b, hb, hτ, hmeets⟩⟩

/-- The expected type of the expression has been handed down to its parts. -/
theorem Determines.pushed (h : Determines vs s post read R act) {t : Ty} (ht : s.table.Fit vs t)
    (rebuilt : α → Expr)
    (hfits : ∀ θ, s.table.Solves Ty.erase vs θ → ((∃ b, R θ b) ↔ e.Fits K θ (t.erase.subst θ))) :
    Finds K vs s e (some t) (act >>= fun a => Pure.pure (t, rebuilt a)) := by
  have hanswer (ws : List TyVar) (s' : Checker) (a : α) (hon : s.table.Onward vs ws s'.table) :
      Determines ws s' (fun ws T r => T.Fit ws r.1) (fun r θ => r.1.erase.subst θ)
        (fun θ τ => τ = t.erase.subst θ) (Pure.pure (t, rebuilt a)) :=
    .pure hon.inv (ht.onward hon) fun _ _ _ => .rfl
  refine (h.bind (fun θ _ τ => τ = t.erase.subst θ) (fun ws s' a _ hon _ => hanswer ws s' a hon)
    fun b θ θ' τ hθ hτ => hτ.trans (ht.written.subst_congr hθ)).congr fun θ τ hθ => ?_
  simp only [Meets, Option.mem_def, Option.some.injEq, forall_eq']
  constructor
  · rintro ⟨b, hb, rfl⟩
    exact ⟨(hfits θ hθ).mp ⟨b, hb⟩, rfl⟩
  · rintro ⟨he, rfl⟩
    obtain ⟨b, hb⟩ := (hfits θ hθ).mpr he
    exact ⟨b, hb, rfl⟩

end parts

variable [Policy]

mutual

/-- **Checking determines that an expression has a type.** -/
theorem finds_typing : (e : Expr) → e.Everywhere (Expr.Simple K) → ∀ {vs : List TyVar} {s : Checker}
    {expected : Option Ty}, Since us K vs s → ExpectedFit vs s.table expected →
    Finds K vs s e expected (typing expected e)
  | .ident n x, hsimple, vs, s, expected, hs, hexpected => by
    rw [typing]
    refine finds_form hs hexpected fun ws s form hs hexpected _ => ?_
    refine (determines_lookup hs (fun t => hsimple.unionFree n x t rfl) n.span).finds hexpected _ id
      (fun _ _ _ ht => ht) (fun _ _ => rfl) fun θ τ _ => ?_
    simp [Expr.Fits]
  | .literal n v, hsimple, vs, s, expected, hs, hexpected => by
    rw [typing]
    refine finds_form hs hexpected fun ws s form hs hexpected _ => ?_
    have hv : s.table.Fit ws v.ty ∧ ∀ θ, v.ty.erase.subst θ = v.ty.erase := by
      cases v <;> exact ⟨.name _, fun _ => rfl⟩
    refine (determines_conclude hs.inv hexpected hv.1 _).congr fun θ τ _ => ?_
    rw [hv.2]
    rfl
  | .paren n inner, hsimple, vs, s, expected, hs, hexpected => by
    rw [typing]
    refine finds_form hs hexpected fun ws s form hs hexpected _ => ?_
    have hinner := finds_typing inner hsimple.2 hs hexpected
    cases expected with
    | none =>
      have hanswer (ws : List TyVar) (s' : Checker) (r : Ty × Expr) (hs : s'.table.Inv ws) (hr : s'.table.Fit ws r.1) :
          Determines ws s' (fun ws T r => T.Fit ws r.1) (fun r θ => r.1.erase.subst θ)
            (fun θ τ => τ = r.1.erase.subst θ) (Pure.pure (r.1, Expr.paren ⟨n.span, some r.1⟩ r.2)) :=
        .pure hs hr fun _ _ _ => .rfl
      refine (hinner.bind (fun _ b τ => τ = b) (fun ws s' r _ hon hr => hanswer ws s' r hon.inv hr)
        fun _ _ _ _ _ h => h).congr fun θ τ _ => ?_
      simp [Meets, Expr.Fits]
    | some t =>
      refine hinner.pushed (hexpected t rfl) _ fun θ _ => ?_
      simp [Meets, Expr.Fits]
  | .array n es, hsimple, vs, s, expected, hs, hexpected => by
    rw [typing]
    refine finds_form hs hexpected fun ws s form hs hexpected hform => ?_
    dsimp only
    split
    · next t item _ =>
      obtain ⟨hitem, heq⟩ := hform t _ rfl rfl
      have hitems : ∀ u ∈ List.replicate es.length item, s.table.Fit ws u := fun u hu =>
        List.eq_of_mem_replicate hu ▸ hitem.part .array
      refine (finds_typingList es hsimple.2 hs hitems (List.forall_mem_nil _)).of_nil.pushed (hexpected t rfl) _
        fun θ hθ => ?_
      rw [heq θ hθ]
      rw [exists_fitsList_iff (by simp), List.map_replicate]
      simp [Expr.Fits, Ty.erase, Ty.subst]
    · cases es with
      | nil =>
        refine (determines_freshVar hs.inv "").finds hexpected _ .array (fun _ _ _ h => h.array) (fun _ _ => rfl)
          fun θ τ _ => ?_
        simp [Expr.Fits, Expr.FitsList]
      | cons first rest =>
        have hfirst := finds_typing first hsimple.2.1 hs .none
        let R (θ : TyVar → Ty) (item τ : Ty) : Prop :=
          Expr.FitsList K θ rest (List.replicate rest.length item) ∧ τ = .array item ∧ Meets expected θ τ
        refine (hfirst.bind R (fun us s' r hscope hon hr => ?_) ?_).congr fun θ τ _ => ?_
        · have hs' := hs.later hscope hon
          have hitems : ∀ u ∈ List.replicate rest.length r.1, s'.table.Fit us u := fun u hu =>
            List.eq_of_mem_replicate hu ▸ hr
          refine ((finds_typingList rest hsimple.2.2 hs' hitems (List.forall_mem_nil _)).of_nil.bind
            (fun θ _ τ => τ = .array (r.1.erase.subst θ) ∧ Meets expected θ τ) (fun ps s'' q _ hon' _ => ?_)
            ?_).congr fun θ τ _ => ?_
          · exact determines_conclude hon'.inv (hexpected.onward (hon.trans hon')) (hr.onward hon').array _
          · intro _ θ θ' τ hθ hτ
            rw [← hr.written.subst_congr hθ]
            exact ⟨hτ.1, (hexpected.onward hon).local θ θ' τ hθ hτ.2⟩
          · rw [exists_and_right, exists_fitsList_iff List.length_replicate.symm, List.map_replicate]
        · intro item θ θ' τ hθ hτ
          exact ⟨Expr.FitsList.congr hs.known (fun v hv => hθ v (hs.onward.subset hv)) rest hτ.1, hτ.2.1,
            hexpected.local θ θ' τ hθ hτ.2.2⟩
        · constructor
          · rintro ⟨item, ⟨he, -⟩, hrest, rfl, hmeets⟩
            exact ⟨⟨item, rfl, item, _, List.replicate_succ, he, hrest⟩, hmeets⟩
          · rintro ⟨⟨item, rfl, τ, τs, heq, he, hrest⟩, hmeets⟩
            obtain ⟨rfl, rfl⟩ := List.cons.inj (List.replicate_succ.symm.trans heq)
            exact ⟨item, ⟨he, nofun⟩, hrest, rfl, hmeets⟩
  | .tuple n es, hsimple, vs, s, expected, hs, hexpected => by
    have hinfer {ws : List TyVar} {s : Checker} (hs : Since us K ws s) (hexpected : ExpectedFit ws s.table expected) :
        Finds K ws s (.tuple n es) expected (do
          let (ts, es) ← typingList [] [] [] es
          conclude expected (.tuple ts) (.tuple n es)) := by
      refine (finds_typingList es hsimple.2 hs (List.forall_mem_nil _) (List.forall_mem_nil _)).of_nil.finds hexpected _
        .tuple (fun _ _ _ h => .tuple h) (fun r θ => ?_) fun θ τ _ => ?_
      · simp [Ty.erase, Ty.subst, Function.comp_def]
      · simp [MeetsList, Expr.Fits, and_comm]
    rw [typing]
    refine finds_form hs hexpected fun ws s form hs hexpected hform => ?_
    dsimp only
    split
    · next t ts _ =>
      split
      · next hlen =>
        obtain ⟨hts, heq⟩ := hform t _ rfl rfl
        refine (finds_typingList es hsimple.2 hs (fun u hu => hts.part (.tuple hu))
          (List.forall_mem_nil _)).of_nil.pushed (hexpected t rfl) _ fun θ hθ => ?_
        rw [heq θ hθ]
        rw [exists_fitsList_iff hlen]
        simp [Expr.Fits, Ty.erase, Ty.subst, Function.comp_def]
      · exact hinfer hs hexpected
    · exact hinfer hs hexpected
  | .object n fs, hsimple, vs, s, expected, hs, hexpected => by
    have hinfer {ws : List TyVar} {s : Checker} (hs : Since us K ws s) (hexpected : ExpectedFit ws s.table expected) :
        Finds K ws s (.object n fs) expected (do
          let (ts, fs) ← typingFields [] [] [] fs
          conclude expected (.record ts) (.object n fs)) := by
      refine (finds_typingFields fs hsimple.2 hs (List.forall_mem_nil _) (List.forall_mem_nil _)).of_nil.finds hexpected _
        .record (fun _ _ r h => .record ((hsimple.1.ordered n fs rfl).of_names h.1) h.2) (fun r θ => ?_)
        fun θ τ _ => ?_
      · simp [Ty.erase, Ty.subst, Function.comp_def]
      · simp [MeetsList, Expr.Fits, and_comm]
    rw [typing]
    refine finds_form hs hexpected fun ws s form hs hexpected hform => ?_
    dsimp only
    split
    · next t ts _ =>
      split
      · next hnames =>
        obtain ⟨hts, heq⟩ := hform t _ rfl rfl
        have hvalues : ∀ u ∈ ts.map Prod.snd, s.table.Fit ws u := fun u hu => by
          obtain ⟨f, hf, rfl⟩ := List.mem_map.mp hu
          exact hts.part (.record hf)
        refine (finds_typingFields fs hsimple.2 hs hvalues (List.forall_mem_nil _)).of_nil.pushed (hexpected t rfl) _
          fun θ hθ => ?_
        rw [heq θ hθ]
        rw [exists_fitsFields_iff hnames]
        simp [Expr.Fits, Ty.erase, Ty.subst, Function.comp_def]
      · exact hinfer hs hexpected
    · exact hinfer hs hexpected
  | .binary .., hsimple, _, _, _, _, _ | .call .., hsimple, _, _, _, _, _ | .subscript .., hsimple, _, _, _, _, _
  | .member .., hsimple, _, _, _, _, _ => hsimple.1.data.elim
  | .type .., hsimple, _, _, _, _, _ => hsimple.data.elim

theorem finds_typingList : (es : List Expr) → Expr.EverywhereList (Expr.Simple K) es → ∀ {vs : List TyVar}
    {s : Checker} {expected found : List Ty} {done : List Expr}, Since us K vs s →
    (∀ t ∈ expected, s.table.Fit vs t) → (∀ t ∈ found, s.table.Fit vs t) →
    Determines vs s (fun ws T r => ∀ t ∈ r.1, T.Fit ws t) (fun r θ => r.1.map (·.erase.subst θ))
      (fun θ τs => ∃ new, τs = found.reverse.map (·.erase.subst θ) ++ new ∧ Expr.FitsList K θ es new ∧
        MeetsList expected θ new)
      (typingList expected found done es)
  | [], _, vs, s, expected, found, done, hs, hexpected, hfound => by
    rw [typingList]
    refine .pure hs.inv (fun t ht => hfound t (List.mem_reverse.mp ht)) fun θ τs _ => ?_
    simp [Expr.FitsList, MeetsList]
  | e :: es, hsimple, vs, s, expected, found, done, hs, hexpected, hfound => by
    rw [typingList]
    have hfirst := finds_typing e hsimple.1 hs fun t ht => hexpected t (List.mem_of_mem_head? ht)
    let R (θ : TyVar → Ty) (τ : Ty) (τs : List Ty) : Prop :=
      ∃ new, τs = found.reverse.map (·.erase.subst θ) ++ τ :: new ∧ Expr.FitsList K θ es new ∧
        MeetsList expected.tail θ new
    have hlocal : ∀ τ, Local vs fun θ τs => R θ τ τs := by
      rintro τ θ θ' τs hθ ⟨new, rfl, hes, hmeets⟩
      refine ⟨new, congrArg (· ++ τ :: new) ?_, Expr.FitsList.congr hs.known (fun v hv => hθ v (hs.onward.subset hv)) es hes,
        local_meetsList (fun t ht => (hexpected t (List.mem_of_mem_tail ht)).written) θ θ' new hθ hmeets⟩
      exact List.map_congr_left fun t ht => (hfound t (List.mem_reverse.mp ht)).written.subst_congr hθ
    refine (hfirst.bind R (fun ws s' r hscope hon hr => ?_) hlocal).congr fun θ τs _ => ?_
    · refine (finds_typingList es hsimple.2 (hs.later hscope hon)
        (fun t ht => (hexpected t (List.mem_of_mem_tail ht)).onward hon)
        (List.forall_mem_cons.mpr ⟨hr, fun t ht => (hfound t ht).onward hon⟩)).congr fun θ τs _ => ?_
      simp [R]
    · constructor
      · rintro ⟨τ, ⟨he, hmeets⟩, new, rfl, hes, hrest⟩
        exact ⟨τ :: new, rfl, ⟨τ, new, rfl, he, hes⟩, meetsList_cons.mpr ⟨hmeets, hrest⟩⟩
      · rintro ⟨new, rfl, ⟨τ, rest, rfl, he, hes⟩, hmeets⟩
        obtain ⟨hmeets, hrest⟩ := meetsList_cons.mp hmeets
        exact ⟨τ, ⟨he, hmeets⟩, rest, rfl, hes, hrest⟩

theorem finds_typingFields : (fs : List (String × Expr)) → Expr.EverywhereFields (Expr.Simple K) fs →
    ∀ {vs : List TyVar} {s : Checker} {expected : List Ty} {found : List (String × Ty)}
    {done : List (String × Expr)}, Since us K vs s →
    (∀ t ∈ expected, s.table.Fit vs t) → (∀ f ∈ found, s.table.Fit vs f.2) →
    Determines vs s (fun ws T r => Fields.names r.1 = Fields.names found.reverse ++ Fields.names fs ∧
        ∀ f ∈ r.1, T.Fit ws f.2) (fun r θ => r.1.map fun f => (f.1, f.2.erase.subst θ))
      (fun θ τs => ∃ new, τs = found.reverse.map (fun f => (f.1, f.2.erase.subst θ)) ++ new ∧
        Expr.FitsFields K θ fs new ∧ MeetsList expected θ (new.map Prod.snd))
      (typingFields expected found done fs)
  | [], _, vs, s, expected, found, done, hs, hexpected, hfound => by
    rw [typingFields]
    refine .pure hs.inv ⟨(List.append_nil _).symm, fun f hf => hfound f (List.mem_reverse.mp hf)⟩ fun θ τs _ => ?_
    simp [Expr.FitsFields, MeetsList]
  | (name, e) :: fs, hsimple, vs, s, expected, found, done, hs, hexpected, hfound => by
    rw [typingFields]
    have hfirst := finds_typing e hsimple.1 hs fun t ht => hexpected t (List.mem_of_mem_head? ht)
    let R (θ : TyVar → Ty) (τ : Ty) (τs : List (String × Ty)) : Prop :=
      ∃ new, τs = found.reverse.map (fun f => (f.1, f.2.erase.subst θ)) ++ (name, τ) :: new ∧
        Expr.FitsFields K θ fs new ∧ MeetsList expected.tail θ (new.map Prod.snd)
    have hlocal : ∀ τ, Local vs fun θ τs => R θ τ τs := by
      rintro τ θ θ' τs hθ ⟨new, rfl, hfs, hmeets⟩
      refine ⟨new, congrArg (· ++ (name, τ) :: new) ?_, Expr.FitsFields.congr hs.known (fun v hv => hθ v (hs.onward.subset hv)) fs hfs,
        local_meetsList (fun t ht => (hexpected t (List.mem_of_mem_tail ht)).written) θ θ' _ hθ hmeets⟩
      exact List.map_congr_left fun f hf =>
        congrArg (Prod.mk f.1) ((hfound f (List.mem_reverse.mp hf)).written.subst_congr hθ)
    refine (hfirst.bind R (fun ws s' r hscope hon hr => ?_) hlocal).congr fun θ τs _ => ?_
    · refine ((finds_typingFields fs hsimple.2 (hs.later hscope hon)
        (fun t ht => (hexpected t (List.mem_of_mem_tail ht)).onward hon)
        (List.forall_mem_cons.mpr ⟨hr, fun f hf => (hfound f hf).onward hon⟩)).congr fun θ τs _ => ?_).mono
          fun ws T r hr => ⟨?_, hr.2⟩
      · simp [R]
      · rw [hr.1, List.reverse_cons, Fields.names, Fields.names, Fields.names, List.map_append, List.append_assoc]
        rfl
    · constructor
      · rintro ⟨τ, ⟨he, hmeets⟩, new, rfl, hfs, hrest⟩
        exact ⟨(name, τ) :: new, rfl, ⟨τ, new, rfl, he, hfs⟩, meetsList_cons.mpr ⟨hmeets, hrest⟩⟩
      · rintro ⟨new, rfl, ⟨τ, rest, rfl, he, hfs⟩, hmeets⟩
        obtain ⟨hmeets, hrest⟩ := meetsList_cons.mp hmeets
        exact ⟨τ, ⟨he, hmeets⟩, rest, rfl, hfs, hrest⟩

end

end Check

end Reified
