import Reified.Proofs.Typing.Annotated

/-!
# What expressions are checked against

Wherever the check of a program comes to an expression, the checker could begin with a declaration, and the type
that the expression is checked against is live.

## Main definitions

* `Check.Focus.types` — the types that a part of an expression is checked against
* `Checker.Ready` — the state in which the check comes to a part

## Main results

* `Checker.Held.inner` — from an expression to a part of it
* `Checker.Comes.ready` — the state at every part
-/

namespace Reified

/-- The types that a part of an expression is checked against. -/
def Check.Focus.types : Check.Focus → List Ty
  | .expr x _ => x.toList
  | .list ts _ | .fields ts _ => ts

namespace Checker

open Check (Contains Focus Narrows Enters Opens Initializes)

variable {α : Type} {B : Base} {p q : Position} {s s' : Checker} {P Q : Focus} {x form : Option Ty}

/-! ## One action after the other -/

/-- An action that succeeds. -/
theorem Held.run {post : α → Table → Prop} {act : Check α} {a : α} (h : Held B p s)
    (hc : Contains B p q (B.Evolves s.table) post act) (hact : act s = .ok a s') :
    Held B q s' ∧ B.Evolves s.table s'.table ∧ post a s'.table := by
  have hcontained := hc s h fun _ hT => hT
  rw [hact] at hcontained
  obtain ⟨hheld, hev, hpost⟩ := hcontained
  exact ⟨hheld, hev, hpost _ hheld.later⟩

/-- What is live remains so. -/
theorem expecting {T : Table} (h : ∀ t ∈ x, B.Live T t) : Check.Expecting B (B.Evolves T) x :=
  fun _ hT t ht => hT.live _ le_rfl _ (h t ht)

variable [Check.Policy]

theorem Held.typing {e : Expr} {a : Ty × Expr} (h : Held B p s) (hx : ∀ t ∈ x, B.Live s.table t)
    (hact : Check.typing x e s = .ok a s') : Held B p s' ∧ B.Evolves s.table s'.table ∧ B.Live s'.table a.1 :=
  h.run (Check.contains_typing e (expecting hx)) hact

theorem Held.infer {e : Expr} {a : Ty × Expr} (h : Held B p s) (hact : Check.typing none e s = .ok a s') :
    Held B p s' ∧ B.Evolves s.table s'.table ∧ B.Live s'.table a.1 :=
  h.typing (fun _ ht => absurd ht (Option.not_mem_none _)) hact

omit [Check.Policy] in
theorem Held.resolve {t u : Ty} (h : Held B p s) (ht : B.Live s.table t) (hact : Check.resolve t s = .ok u s') :
    Held B p s' ∧ B.Evolves s.table s'.table ∧ B.Live s'.table u :=
  h.run (Check.contains_resolve fun _ hT => hT.live _ le_rfl _ ht) hact

omit [Check.Policy] in
theorem Held.lookup {name : String} {span : Span} {t : Ty} (h : Held B p s)
    (hact : Check.lookup name span s = .ok t s') :
    Held B p s' ∧ B.Evolves s.table s'.table ∧ B.Live s'.table t :=
  h.run (Check.contains_lookup name span) hact

/-- The callee of a call, or the target of a member access or element access, and what it stands for. -/
theorem Held.accessed {e : Expr} {a : Ty × Expr} {u : Ty} {s₁ : Checker} (h : Held B p s)
    (hact : Check.typing none e s = .ok a s₁) (hresolve : Check.resolve a.1 s₁ = .ok u s') :
    Held B p s' ∧ B.Evolves s.table s'.table ∧ B.Live s'.table u ∧ B.Live s'.table a.1 := by
  obtain ⟨h₁, hev₁, ha⟩ := h.infer hact
  obtain ⟨h₂, hev₂, hu⟩ := h₁.resolve ha hresolve
  exact ⟨h₂, hev₁.trans hev₂, hu, hev₂.live _ le_rfl _ ha⟩

/-! ## Expressions -/

/-- **From an expression to a part of it** the check remains above its base, and what the part is checked against is
live. -/
theorem Held.inner {e : Expr} (h : Held B p s) (hx : ∀ t ∈ x, B.Live s.table t)
    (hform : ∀ t ∈ form, B.Live s.table t) (hinner : Narrows x form e s Q s') :
    Held B p s' ∧ ∀ t ∈ Q.types, B.Live s'.table t := by
  have hnone : ∀ {T : Table}, ∀ t ∈ ([] : List Ty), B.Live T t := List.forall_mem_nil _
  have hone : ∀ {T : Table} {t : Ty}, B.Live T t → ∀ u ∈ [t], B.Live T u := fun ht u hu =>
    List.eq_of_mem_singleton hu ▸ ht
  have hname : ∀ {T : Table} (n : String), B.Live T (.name n) := Table.Remains.name
  cases hinner with
  | paren n e => exact ⟨h, fun t ht => hx t (Option.mem_toList.mp ht)⟩
  | conditionLeft n l r _ hop => exact ⟨h, hone (hname "Bool")⟩
  | conditionRight n l r hop hl =>
    refine ⟨(h.typing (fun t ht => ?_) hl).1, hone (hname "Bool")⟩
    cases ht
    exact hname "Bool"
  | equalLeft n l r => exact ⟨h, hnone⟩
  | equalRight n l r hl =>
    obtain ⟨h₁, -, ha⟩ := h.infer hl
    exact ⟨h₁, hone ha⟩
  | operandLeft n l r hand hor hequal hlookup hresolve =>
    obtain ⟨h₁, -, ht⟩ := h.lookup hlookup
    obtain ⟨h₂, -, hfn⟩ := h₁.resolve ht hresolve
    exact ⟨h₂, hone (hfn.part (.param (by simp)))⟩
  | operandRight n l r hand hor hequal hlookup hresolve hl =>
    obtain ⟨h₁, -, ht⟩ := h.lookup hlookup
    obtain ⟨h₂, -, hfn⟩ := h₁.resolve ht hresolve
    obtain ⟨h₃, hev, -⟩ := h₂.typing (fun t ht => by cases ht; exact hfn.part (.param (by simp))) hl
    exact ⟨h₃, hone (hev.live _ le_rfl _ (hfn.part (.param (by simp))))⟩
  | knownFields n _ hform' hnames =>
    refine ⟨h, fun t ht => ?_⟩
    obtain ⟨field, hfield, rfl⟩ := List.mem_map.mp ht
    exact (hform _ hform').part (.record hfield)
  | fields n _ hne => exact ⟨h, hnone⟩
  | knownItems n es _ hform' =>
    exact ⟨h, fun t ht => List.eq_of_mem_replicate ht ▸ (hform _ hform').part .array⟩
  | firstItem n e es _ hne => exact ⟨h, hnone⟩
  | nextItems n e es hne he =>
    obtain ⟨h₁, -, ha⟩ := h.infer he
    exact ⟨h₁, fun t ht => List.eq_of_mem_replicate ht ▸ ha⟩
  | knownPositions n _ hform' hlength => exact ⟨h, fun t ht => (hform _ hform').part (.tuple ht)⟩
  | positions n _ hne => exact ⟨h, hnone⟩
  | callee n callee args slots => exact ⟨h, hnone⟩
  | args n slots hcallee hresolve hlength hinstantiate =>
    obtain ⟨h₁, -, hfn, -⟩ := h.accessed hcallee hresolve
    obtain ⟨h₂, -, hparams, -⟩ := h₁.run (Check.contains_instantiateImplicit _ _ _ _
      (fun _ hT _ ht => hT.live _ le_rfl _ (hfn.part (.param ht)))
      fun _ hT => hT.live _ le_rfl _ (hfn.part .result)) hinstantiate
    exact ⟨h₂, fun t ht => hparams t (List.mem_of_mem_drop ht)⟩
  | openArgs n args slots hcallee hresolve => exact ⟨(h.accessed hcallee hresolve).1, hnone⟩
  | target n target index => exact ⟨h, hnone⟩
  | index n index htarget hresolve => exact ⟨(h.accessed htarget hresolve).1, hone (hname "Number")⟩
  | position n htarget hresolve hwhole hi hlt =>
    obtain ⟨h₁, -, -, ha⟩ := h.accessed htarget hresolve
    exact ⟨(h₁.run (Check.contains_resolveDeep fun _ hT => (hT.live _ le_rfl _ ha).scheme) hwhole).1, hnone⟩
  | openIndex n index htarget hresolve => exact ⟨(h.accessed htarget hresolve).1, hnone⟩
  | object n o field => exact ⟨h, hnone⟩

/-- A checker that can begin with a declaration, and live types to check a part of an expression against. -/
structure Ready (P : Focus) (s : Checker) : Prop where
  idle : s.Idle
  live : ∀ t ∈ P.types, s.around.Live s.table t

omit [Check.Policy] in
/-- Above the scopes that there are a part can be checked against live types. -/
theorem Held.ready (h : Held B .base s) (hB : B.scopes ≠ []) (ht : ∀ t ∈ P.types, B.Live s.table t) : Ready P s :=
  ⟨⟨h.here, h.frames_eq ▸ hB⟩, fun t hmem => h.live_around (ht t hmem)⟩

/-- From a part to one inside. -/
theorem Ready.enters (hs : Ready P s) (h : Enters P s Q s') : Ready Q s' := by
  cases h with
  | @expr x form e P s s₁ s₂ hform hinner =>
    have hx : ∀ t ∈ x, s.around.Live s.table t := fun t ht => hs.live t (Option.mem_toList.mpr ht)
    obtain ⟨h₁, hev, hform⟩ := hs.idle.held.run (Check.contains_expectedForm (expecting hx)) hform
    obtain ⟨h₂, hlive⟩ := h₁.inner (fun t ht => hev.live _ le_rfl _ (hx t ht)) hform hinner
    exact h₂.ready hs.idle.scopes hlive
  | head ts e es => exact ⟨hs.idle, fun t ht => hs.live t (List.mem_of_mem_head? (Option.mem_toList.mp ht))⟩
  | tail es he =>
    obtain ⟨h₁, hev, -⟩ := hs.idle.held.typing (fun t ht => hs.live t (List.mem_of_mem_head? ht)) he
    exact h₁.ready hs.idle.scopes fun t ht => hev.live _ le_rfl _ (hs.live t (List.mem_of_mem_tail ht))
  | field ts name e fs =>
    exact ⟨hs.idle, fun t ht => hs.live t (List.mem_of_mem_head? (Option.mem_toList.mp ht))⟩
  | nextFields name fs he =>
    obtain ⟨h₁, hev, -⟩ := hs.idle.held.typing (fun t ht => hs.live t (List.mem_of_mem_head? ht)) he
    exact h₁.ready hs.idle.scopes fun t ht => hev.live _ le_rfl _ (hs.live t (List.mem_of_mem_tail ht))

/-! ## Statements and declarations -/

omit [Check.Policy] in
theorem Idle.initializes {init : ForInit} (hs : s.Idle) (h : Initializes init s Q s') : Ready Q s' := by
  cases h with
  | expr e => exact ⟨hs, nofun⟩
  | annotated ha ht =>
    obtain ⟨h₁, -, hlive⟩ := hs.held.run (Check.contains_typeExpr _) ht
    refine h₁.ready hs.scopes fun t ht => ?_
    rw [List.eq_of_mem_singleton ht]
    exact hlive
  | inferred _ ha => exact ⟨hs, nofun⟩

/-- From a statement or declaration to an expression in it. -/
theorem Sound.opens {P : Check.Subject} (hs : Sound P s) (h : Opens P s Q s') : Ready Q s' := by
  have hbool : ∀ {B : Base} {T : Table}, ∀ t ∈ [Ty.bool], B.Live T t := fun t ht =>
    List.eq_of_mem_singleton ht ▸ Table.Remains.name "Bool"
  have hpushed : ∀ {s₁ : Checker}, Check.pushScope s = .ok () s₁ → Held s.around Position.base.inScope s₁ :=
    fun hpush => (hs.idle.held.run Check.contains_pushScope hpush).1
  have hinScope : ∀ {s₁ : Checker} {P : Focus}, Held s.around Position.base.inScope s₁ →
      (∀ t ∈ P.types, s.around.Live s₁.table t) → Ready P s₁ := fun h ht =>
    ⟨h.idle Nat.one_pos, fun t hmem => h.live_around (ht t hmem)⟩
  cases h with
  | ret e span hreturn =>
    refine ⟨hs.idle, fun t ht => ?_⟩
    rw [List.eq_of_mem_singleton ht]
    exact hs.idle.held.results _ (List.mem_of_mem_head? hreturn)
  | condition t c st alternate span => exact ⟨hs.idle, hbool⟩
  | whileCondition t c body span => exact ⟨hs.idle, hbool⟩
  | forInit t c increment body span hpush hinitializes =>
    exact ((hpushed hpush).idle Nat.one_pos).initializes hinitializes
  | forCondition t c increment body span hpush hinit =>
    exact hinScope ((hpushed hpush).run (Check.contains_forInit _) hinit).1 hbool
  | forIncrement t e body span hpush hinit hc =>
    have h₁ := ((hpushed hpush).run (Check.contains_forInit _) hinit).1
    exact hinScope (h₁.run (Check.contains_mapM Check.contains_condition _) hc).1 nofun
  | scrutinee t e cs default span => exact ⟨hs.idle, nofun⟩
  | expr t e => exact ⟨hs.idle, fun u hu => hs.live u hu⟩
  | letDecl t hinitializes => exact hs.idle.initializes hinitializes

/-! ## Programs -/

variable {program : Program} {index : Nat} {ds : List Decl}

theorem Begins.idle (hs : s.Idle) (h : Begins s program index ds s') : s'.Idle := by
  induction h with
  | first => exact hs.openProgram program
  | @accepted index d d' ds s₁ s₂ _ hok ih =>
    have hnext := ih.topLevel d
    rw [hok] at hnext
    exact hnext
  | @rejected index d ds e s₁ s₂ _ hfail ih =>
    have hnext := ih.topLevel d
    rw [hfail] at hnext
    exact (ih.recover hnext index d e).1

/-- **The state at every part** of an expression that the check of a program comes to. -/
theorem Comes.ready (hs : s.Idle) (h : Comes s program Q s') : Ready Q s' := by
  induction h with
  | opens hbegins hvisits hopens => exact (hvisits.sound (hbegins.idle hs)).opens hopens
  | enters _ henters ih => exact ih.enters henters

end Checker

end Reified
