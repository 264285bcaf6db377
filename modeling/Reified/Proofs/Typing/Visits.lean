import Reified.Proofs.Typing.Parameters
import Reified.Proofs.Typing.Siblings

/-!
# Where a check comes by

Checking a top-level declaration goes through the statements and declarations in it, at any depth. A place is
one of them, with the types it is checked against; from a place the check gets to the ones inside after some
actions, if they do not fail. Wherever it gets to, the checker is in a state in which a declaration could
begin, and checks against live types.

## Main definitions

* `Check.Subject` — a part of the tree, and what it is checked against
* `Check.Leads` — what the check does before it gets from a place to one inside
* `Checker.Visits` — the places that the check of a declaration gets to, and the states there

## Main results

* `Checker.Sound.step`, `Checker.Visits.sound` — the state at every place
-/

namespace Reified

namespace Check

/-! ## Places -/

/-- A part of the tree that is checked by itself, and the types it is checked against. -/
inductive Subject where
  | stmt (expected : Ty) (s : Stmt)
  | cases (expected scrutinee : Ty) (cs : List (Pattern × Stmt))
  | decls (expected : Ty) (ds : List Decl)
  | decl (expected : Ty) (d : Decl)

/-- The types that a place is checked against. -/
def Subject.types : Subject → List Ty
  | .stmt t _ | .decls t _ | .decl t _ => [t]
  | .cases t u _ => [t, u]

/-- What the check of a block does before it gets to the declarations. -/
def openBlock (expected : Ty) (body : List Decl) (span : Span) : Check Ty := do
  pushScope
  hoist body
  if body.isEmpty then unify expected .void span
  return expected

/-- What the check of a function does before it gets to the declarations in its body. -/
def openBody (head : FnHead) (body : List Decl) : Check Ty := do
  pushFrame
  let (_, result, _) ← enterFunction head
  openBlock result body head.bodySpan

variable [Policy]

/-- From a place the check gets to one inside, after an action that answers a type this is checked against. -/
inductive Leads : Subject → Check Ty → (Ty → Subject) → Prop
  | block {t : Ty} (body : List Decl) (span : Span) :
    Leads (.stmt t (.block body span)) (openBlock t body span) (.decls · body)
  | onlyBranch {t : Ty} (c : Expr) (s : Stmt) (span : Span) :
    Leads (.stmt t (.cond c s none span)) (do
      let _ ← condition c
      freshVar "") (.stmt · s)
  | thenBranch {t : Ty} (c : Expr) (s alternate : Stmt) (span : Span) :
    Leads (.stmt t (.cond c s (some alternate) span)) (do
      let _ ← condition c
      return t) (.stmt · s)
  | elseBranch {t : Ty} (c : Expr) (s alternate : Stmt) (span : Span) :
    Leads (.stmt t (.cond c s (some alternate) span)) (do
      let _ ← condition c
      let _ ← stmt t s
      return t) (.stmt · alternate)
  | whileBody {t : Ty} (c : Expr) (body : Stmt) (span : Span) :
    Leads (.stmt t (.whileLoop c body span)) (do
      let _ ← condition c
      setLoopDepth (· + 1)
      freshVar "") (.stmt · body)
  | forBody {t : Ty} (init : Option ForInit) (c increment : Option Expr) (body : Stmt) (span : Span) :
    Leads (.stmt t (.forLoop init c increment body span)) (do
      pushScope
      let _ ← forInit init
      let _ ← c.mapM condition
      let _ ← increment.mapM fun e => Prod.snd <$> infer e
      setLoopDepth (· + 1)
      freshVar "") (.stmt · body)
  | cases {t : Ty} (scrutinee : Expr) (cs : List (Pattern × Stmt)) (default : Option Stmt) (span : Span) :
    Leads (.stmt t (.cases scrutinee cs default span)) (Prod.fst <$> infer scrutinee) (.cases t · cs)
  | default {t : Ty} (scrutinee : Expr) (cs : List (Pattern × Stmt)) (s : Stmt) (span : Span) :
    Leads (.stmt t (.cases scrutinee cs (some s) span)) (do
      let (u, _) ← infer scrutinee
      let _ ← matchCases t u [] cs
      return t) (.stmt · s)
  | caseBody {t u : Ty} (p : Pattern) (s : Stmt) (cs : List (Pattern × Stmt)) :
    Leads (.cases t u ((p, s) :: cs)) (do
      pushScope
      pattern u p
      return t) (.stmt · s)
  | nextCases {t u : Ty} (p : Pattern) (s : Stmt) (cs : List (Pattern × Stmt)) :
    Leads (.cases t u ((p, s) :: cs)) (do
      pushScope
      pattern u p
      let _ ← stmt t s
      popScope
      return u) (.cases t · cs)
  | first {t : Ty} (d : Decl) (ds : List Decl) : Leads (.decls t (d :: ds)) (completion t ds) (.decl · d)
  | rest {t : Ty} (d : Decl) (ds : List Decl) :
    Leads (.decls t (d :: ds)) (do
      let u ← completion t ds
      let _ ← decl u d
      return t) (.decls · ds)
  | statement {t : Ty} (s : Stmt) : Leads (.decl t (.stmt s)) (pure t) (.stmt · s)
  | body {t : Ty} (head : FnHead) (body : List Decl) :
    Leads (.decl t (.fn head body)) (openBody head body) (.decls · body)

end Check

namespace Checker

open Check (Subject Leads Contains Anything freshVar)

variable {B : Base} {p q : Position} {known : Table → Prop} {P : Subject} {s s' : Checker}

/-- The places that the check of a declaration gets to when it begins with the checker `s₀`, and the states
there. -/
inductive Visits [Check.Policy] (d : Decl) (s₀ : Checker) : Subject → Checker → Prop
  | start {t : Ty} {s : Checker} : freshVar "" s₀ = .ok t s → Visits d s₀ (.decl t d) s
  | step {P : Subject} {act : Check Ty} {inside : Ty → Subject} {t : Ty} {s s' : Checker} :
    Visits d s₀ P s → Leads P act inside → act s = .ok t s' → Visits d s₀ (inside t) s'

/-! ## The state at a place -/

/-- A checker that can begin with a declaration, and live types to check against. -/
structure Sound (P : Subject) (s : Checker) : Prop where
  idle : s.Idle
  live : ∀ t ∈ P.types, s.around.Live s.table t

/-- All that there is but the innermost scope. -/
def within (s : Checker) : Base := { s.around with scopes := s.scope.frames.tail }

theorem Idle.within (hs : s.Idle) : Held s.within Position.base.inScope s := by
  obtain ⟨f, fs, hframes⟩ := List.exists_cons_of_ne_nil hs.scopes
  refine { hs.held with covers := ⟨hs.held.covers.values, hs.held.covers.types⟩, scopes := ⟨[f], rfl, ?_⟩ }
  rw [Checker.within, hframes]
  rfl

/-- What is live above a base is live in view of all that there is. -/
theorem Held.live_around (h : Held B p s) {t : Ty} (ht : B.Live s.table t) :
    s.around.Live s.table t :=
  ht.mono fun _ hw => ⟨False.elim, hw.2.1, hw.2.2.trans h.depth.ge⟩

theorem Held.idle (h : Held B q s) (hq : 0 < q.scopes) : s.Idle :=
  ⟨h.here, fun hnil => by
    obtain ⟨inner, hlength, hscopes⟩ := h.scopes
    rw [hnil] at hscopes
    obtain ⟨rfl, -⟩ := List.append_eq_nil_iff.mp hscopes.symm
    exact absurd hlength hq.ne⟩

theorem Held.sound (h : Held B q s) (hq : 0 < q.scopes) (ht : ∀ t ∈ P.types, B.Live s.table t) :
    Sound P s :=
  ⟨h.idle hq, fun t hmem => h.live_around (ht t hmem)⟩

theorem contains_openBlock {t : Ty} (body : List Decl) (span : Span) (ht : ∀ T, known T → B.Live T t) :
    Contains B p p.inScope known (fun r T => B.Live T r) (Check.openBlock t body span) := by
  unfold Check.openBlock
  refine Check.contains_pushScope.bind fun _ => (Check.contains_hoist body).bind fun _ => ?_
  dsimp only
  split
  · refine (Check.contains_unify span (fun T hk => ht T hk.1.1) fun _ _ => Table.Remains.name _).bind
      fun _ => .pure fun T hk => ht T hk.1.1.1
  · exact .pure fun T hk => ht T hk.1.1

/-- An action above the innermost scope leads to a place in a sound state, with the variables that there were. -/
theorem Sound.of_contains {act : Check Ty} {t : Ty} (hs : Sound P s) (inside : Ty → Subject)
    (hq : 0 < q.scopes)
    (h : Contains s.within Position.base.inScope q (fun T => ∀ u ∈ P.types, s.within.Live T u)
      (fun r T => ∀ u ∈ (inside r).types, s.within.Live T u) act) (hact : act s = .ok t s') :
    Sound (inside t) s' ∧ s.table.size ≤ s'.table.size := by
  have hcontained := h s hs.idle.within fun T hT u hu => hT.live _ le_rfl _ (hs.live u hu)
  rw [hact] at hcontained
  obtain ⟨hheld, hev, hlive⟩ := hcontained
  exact ⟨hheld.sound hq (hlive _ hheld.later), hev.size⟩

variable [Check.Policy]

/-- **From a place to one inside**, the checker remains in a sound state, with the variables that there were. -/
theorem Sound.step {act : Check Ty} {inside : Ty → Subject} {t : Ty} (hs : Sound P s)
    (h : Leads P act inside) (hact : act s = .ok t s') :
    Sound (inside t) s' ∧ s.table.size ≤ s'.table.size := by
  have hone : 0 < Position.base.inScope.scopes := Nat.one_pos
  have htwo : 0 < Position.base.inScope.inScope.scopes := Nat.two_pos
  have hsingle : ∀ {B : Base} {T : Table} {u : Ty}, B.Live T u → ∀ v ∈ [u], B.Live T v :=
    fun h _ hv => List.eq_of_mem_singleton hv ▸ h
  have hhead : ∀ {u : Ty} {us : List Ty} {T : Table}, (∀ v ∈ u :: us, s.within.Live T v) →
      s.within.Live T u := fun h => h _ List.mem_cons_self
  cases h with
  | block body span =>
    refine hs.of_contains (.decls · body) htwo ?_ hact
    exact (contains_openBlock body span fun _ hk => hhead hk).mono fun _ _ _ h => hsingle h
  | onlyBranch c branch span =>
    refine hs.of_contains (.stmt · branch) hone ((Check.contains_condition c).bind fun _ => ?_) hact
    exact (Check.contains_freshVar "").mono fun _ _ _ h => hsingle h
  | thenBranch c branch alternate span =>
    refine hs.of_contains (.stmt · branch) hone ((Check.contains_condition c).bind fun _ => ?_) hact
    exact .pure fun _ hk => hk.1
  | elseBranch c branch alternate span =>
    refine hs.of_contains (.stmt · alternate) hone ((Check.contains_condition c).bind fun _ => ?_) hact
    exact (Check.contains_stmt branch fun _ hk => hhead hk.1).bind fun _ => .pure fun _ hk => hk.1.1
  | whileBody c body span =>
    refine hs.of_contains (.stmt · body) hone ((Check.contains_condition c).bind fun _ => ?_) hact
    refine (Check.contains_setLoopDepth _).bind fun _ => ?_
    exact (Check.contains_freshVar "").mono fun _ _ _ h => hsingle h
  | forBody init c increment body span =>
    refine hs.of_contains (.stmt · body) htwo (Check.contains_pushScope.bind fun _ =>
      (Check.contains_forInit init).bind fun _ => ?_) hact
    refine (Check.contains_mapM (fun c => Check.contains_condition c) c).bind fun _ => ?_
    refine (Check.contains_mapM (fun e => (Check.contains_infer e).map fun _ _ _ _ => trivial) increment).bind
      fun _ => (Check.contains_setLoopDepth _).bind fun _ => ?_
    exact (Check.contains_freshVar "").mono fun _ _ _ h => hsingle h
  | cases scrutinee cs default span =>
    refine hs.of_contains (.cases _ · cs) hone ((Check.contains_infer scrutinee).map fun T hk r h => ?_) hact
    exact List.forall_mem_cons.mpr ⟨hhead hk, hsingle h⟩
  | default scrutinee cs branch span =>
    refine hs.of_contains (.stmt · branch) hone ((Check.contains_infer scrutinee).bind fun r => ?_) hact
    exact (Check.contains_matchCases cs (fun _ hk => hhead hk.1) fun _ hk => hk.2).bind fun _ =>
      .pure fun _ hk => hk.1.1
  | caseBody pat branch cs =>
    refine hs.of_contains (.stmt · branch) htwo (Check.contains_pushScope.bind fun _ =>
      (Check.contains_pattern pat fun _ hk => hk.1 _ (by simp [Subject.types])).bind fun _ => ?_) hact
    exact .pure fun _ hk => hsingle (hhead hk.1.1)
  | nextCases pat branch cs =>
    refine hs.of_contains (.cases _ · cs) hone (Check.contains_pushScope.bind fun _ =>
      (Check.contains_pattern pat fun _ hk => hk.1 _ (by simp [Subject.types])).bind fun _ => ?_) hact
    refine (Check.contains_stmt branch fun _ hk => hhead hk.1.1).bind fun _ => ?_
    exact Check.contains_popScope.bind fun _ => .pure fun _ hk => hk.1.1.1.1
  | first d ds =>
    refine hs.of_contains (.decl · d) hone ?_ hact
    exact (Check.contains_completion ds fun _ hk => hhead hk).mono fun _ _ _ h => hsingle h
  | rest d ds =>
    refine hs.of_contains (.decls · ds) hone ?_ hact
    refine (Check.contains_completion ds fun _ hk => hhead hk).bind fun _ => ?_
    exact (Check.contains_decl d fun _ hk => hk.2).bind fun _ => .pure fun _ hk => hk.1.1
  | statement st => exact hs.of_contains (.stmt · st) hone (.pure fun _ hk => hk) hact
  | body head body =>
    obtain ⟨⟨⟩, s₁, hpush, hact⟩ := Check.bind_eq_ok hact
    obtain ⟨⟨signature, result, loopDepth⟩, s₂, henter, hopen⟩ := Check.bind_eq_ok hact
    cases hpush
    obtain ⟨B', hreserves, -, hresult, -⟩ := hs.idle.held.inFrame.enterFunction henter
    have hblock : Contains B' (Position.base.inScope.inBody result)
        (Position.base.inScope.inBody result).inScope (B'.Live · result) (fun r T => B'.Live T r)
        (Check.openBlock result body head.bodySpan) := contains_openBlock body head.bodySpan fun _ h => h
    have hcontained := hblock s₂ hreserves.held fun T hT => hT.live _ le_rfl _ hresult
    dsimp only at hopen
    rw [hopen] at hcontained
    obtain ⟨hheld, hev, hlive⟩ := hcontained
    exact ⟨hheld.sound htwo (hsingle (hlive _ hheld.later)), hreserves.evolves.size.trans hev.size⟩

/-- **The state at every place** that the check of a declaration gets to. -/
theorem Visits.sound {d : Decl} {s₀ : Checker} (hs₀ : s₀.Idle) (h : Visits d s₀ P s) : Sound P s := by
  induction h with
  | start hnew =>
    have hfresh : Contains s₀.within Position.base.inScope Position.base.inScope (fun _ => True)
        (fun r T => s₀.within.Live T r) (freshVar "") := Check.contains_freshVar ""
    have hcontained := hfresh s₀ hs₀.within fun _ _ => trivial
    rw [hnew] at hcontained
    obtain ⟨hheld, -, hlive⟩ := hcontained
    exact hheld.sound Nat.one_pos fun t ht => List.eq_of_mem_singleton ht ▸ hlive _ hheld.later
  | step _ hleads hact ih => exact (ih.step hleads hact).1

end Checker

end Reified
