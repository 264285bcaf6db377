import Reified.Proofs.Typing.Sparing
import Reified.Proofs.Typing.Upward

/-!
# Statements and declarations that spare a variable

A statement or declaration spares the variable of a name, whether its check succeeds or fails, if the expressions
in it do, at the places where the name stands for the variable. Which these are the check decides: the name may be
bound to something else on the way.

## Main definitions

* `Check.Sparing` — places in which all expressions use the name for accesses only

## Main results

* `Check.spares_stmt`, `Check.spares_decl` — the check of a statement or declaration at such a place
* `Check.maintains_spares` — the variable is spared by what the check of a statement or declaration does
-/

namespace Reified

namespace Check

open Checker (Spares)

variable {α β : Type} {f : String} {v : TyVar} {s s' : Checker} {t : Ty}

/-! ## Blocks and functions -/

theorem spares_openBlock (body : List Decl) (span : Span) (ht : t.Omits v.id) :
    Ensures (Spares f v) (Ty.Omits v.id) (openBlock t body span) := by
  unfold openBlock
  refine spares_pushScope.bind fun _ _ => (spares_hoist body).bind fun _ _ => ?_
  dsimp only
  split
  · exact (spares_unify ht (Ty.omits_name _) span).bind fun _ _ => .pure ht
  · exact .pure ht

theorem spares_enterFunction (head : FnHead) :
    Ensures (Spares f v) (fun r => r.1.Omits v.id ∧ r.2.1.Omits v.id) (enterFunction head) := by
  unfold enterFunction
  refine spares_pushScope.bind fun _ _ => (spares_bindTypeParams head.typeParams).bind fun _ _ => ?_
  refine (spares_paramTypes 0 head.params (List.forall_mem_nil _)).bind fun r hparams => ?_
  refine (spares_optionalType "" head.result).bind fun result hresult => ?_
  have hsignature : (Ty.fn r.1 result r.2).Omits v.id := Ty.omits_fn hparams hresult
  refine (spares_bindValue head.name hsignature).bind fun _ _ => ?_
  refine (spares_bindParams head.params hparams).bind fun _ _ => ?_
  exact (spares_enterBody hresult).bind fun _ _ => .pure ⟨hsignature, hresult⟩

theorem spares_unless {c : Prop} [Decidable c] {span : Span} {a : α} (ht : t.Omits v.id) :
    Ensures (Spares f v) (fun _ => True) (do
      unless c do unify t .void span
      return a) := by
  split
  · exact .pure trivial
  · exact (spares_unify ht (Ty.omits_name _) span).bind fun _ _ => .pure trivial

variable [Policy]

/-! ## Expressions in statements -/

/-- The check of an expression in which the name is used for accesses only if it stands for the variable there. -/
theorem spares_opened {x : Option Ty} {e : Expr} (hs : s.Spares f v)
    (he : s.scope.lookup f = some (.var v) → e.OnlyAccesses f) (hx : ∀ t ∈ x, t.Omits v.id) :
    Ends (Spares f v) (fun r => r.1.Omits v.id) (typing x e s) := by
  have h := (spares_typing e he hx) s ⟨hs, rfl⟩
  cases hact : typing x e s with
  | ok r s' =>
    rw [hact] at h
    exact ⟨h.1.1, h.2⟩
  | error e s' =>
    rw [hact] at h
    exact h.1

theorem spares_checked {e : Expr} (hs : s.Spares f v)
    (he : s.scope.lookup f = some (.var v) → e.OnlyAccesses f) (ht : t.Omits v.id) :
    EndsIn (Spares f v) (check e t s) :=
  EndsIn.map ((spares_opened hs he (omits_some ht)).mono fun _ _ => trivial)

theorem spares_condition {e : Expr} (hs : s.Spares f v)
    (he : s.scope.lookup f = some (.var v) → e.OnlyAccesses f) : EndsIn (Spares f v) (condition e s) :=
  spares_checked hs he (Ty.omits_name _)

/-- The name is used for accesses only in the expression that is checked first. -/
def SparingFirst (f : String) (v : TyVar) (init : ForInit) (s : Checker) : Prop :=
  ∀ {x e s'}, Initializes init s (.expr x e) s' → s'.scope.lookup f = some (.var v) → e.OnlyAccesses f

theorem spares_letDecl {d : LetDecl} (hs : s.Spares f v) (hd : SparingFirst f v (.letDecl d) s) :
    EndsIn (Spares f v) (letDecl d s) := by
  unfold letDecl
  cases ha : d.annotation with
  | some a =>
    refine ((spares_typeExpr a).ends hs).bind fun t s₁ ht hs₁ homits => ?_
    refine (spares_checked hs₁ (hd (.annotated ha ht)) homits).andThen fun init _ => ?_
    exact (spares_bindValue d.name homits).bind fun _ _ => .pure trivial
  | none =>
    refine (spares_opened hs (hd (.inferred s ha)) omits_none).andThen fun r hr => ?_
    exact (spares_bindValue d.name hr).bind fun _ _ => .pure trivial

theorem spares_forInit {init : Option ForInit} (hs : s.Spares f v) (hinit : ∀ i ∈ init, SparingFirst f v i s) :
    EndsIn (Spares f v) (forInit init s) := by
  unfold forInit
  split
  · exact ⟨hs, trivial⟩
  · next e =>
    exact (spares_opened hs (hinit _ rfl (.expr e s)) omits_none).andThen fun _ _ => .pure trivial
  · next d => exact (spares_letDecl hs (hinit _ rfl)).andThen fun _ _ => .pure trivial

/-! ## Statements and declarations -/

/-- In the expressions at the places the name is used for accesses only if it stands for the variable there. -/
structure Sparing (f : String) (v : TyVar) (U : Subject → Checker → Prop) : Prop where
  leads : ∀ {P act inside t s s'}, U P s → Leads P act inside → act s = .ok t s' → U (inside t) s'
  opens : ∀ {P x e s s'}, U P s → Opens P s (.expr x e) s' → s'.scope.lookup f = some (.var v) → e.OnlyAccesses f

variable {U : Subject → Checker → Prop}

mutual

/-- **A statement** in which the name is used for accesses only spares its variable. -/
theorem spares_stmt (hU : Sparing f v U) : (st : Stmt) → ∀ {t : Ty} {s : Checker}, U (.stmt t st) s →
    t.Omits v.id → s.Spares f v → EndsIn (Spares f v) (stmt t st s)
  | .empty span, t, s, _, ht, hs => by
    rw [stmt]
    exact ((spares_unify ht (Ty.omits_name _) span).bind fun _ _ => .pure trivial).ends hs
  | .block body span, t, s, hplace, ht, hs => by
    rw [stmt, inBlock_eq]
    simp only [bind_assoc, pure_bind]
    refine ((spares_openBlock body span ht).ends hs).bind fun u s₁ hopen hs₁ _ => ?_
    obtain rfl := openBlock_eq_ok hopen
    refine (spares_decls hU body (hU.leads hplace (.block body span) hopen) ht hs₁).andThen fun _ _ => ?_
    exact spares_popScope.bind fun _ _ => .pure trivial
  | .ret value span, t, s, hplace, ht, hs => by
    have hget : (get : Check Checker) s = .ok s s := rfl
    rw [stmt, bind_of_ok hget]
    cases hreturn : s.returns.head? with
    | none => exact hs
    | some u =>
      have hu : u.Omits v.id := hs.returns u (List.mem_of_mem_head? hreturn)
      cases value with
      | some e =>
        exact (spares_checked hs (hU.opens hplace (.ret e span hreturn)) hu).andThen fun _ _ => .pure trivial
      | none => exact ((spares_unify hu (Ty.omits_name _) span).bind fun _ _ => .pure trivial).ends hs
  | .cond c st none span, t, s, hplace, ht, hs => by
    rw [stmt]
    refine (spares_condition hs (hU.opens hplace (.condition t c st none span s))).bind fun c' s₁ hc hs₁ _ => ?_
    refine ((spares_freshVar "").ends hs₁).bind fun u s₂ hfresh hs₂ hu => ?_
    have hbody := hU.leads hplace (.onlyBranch c st span) ((bind_of_ok hc).trans hfresh)
    refine (spares_stmt hU st hbody hu hs₂).andThen fun _ _ => ?_
    exact (spares_unify ht (Ty.omits_name _) span).bind fun _ _ => .pure trivial
  | .cond c st (some alternate) span, t, s, hplace, ht, hs => by
    rw [stmt]
    refine (spares_condition hs (hU.opens hplace (.condition t c st _ span s))).bind fun c' s₁ hc hs₁ _ => ?_
    have hthen := hU.leads hplace (.thenBranch c st alternate span) (bind_of_ok hc)
    refine (spares_stmt hU st hthen ht hs₁).bind fun st' s₂ hst hs₂ _ => ?_
    have helse := hU.leads hplace (.elseBranch c st alternate span) ((bind_of_ok hc).trans (bind_of_ok hst))
    exact (spares_stmt hU alternate helse ht hs₂).andThen fun _ _ => .pure trivial
  | .whileLoop c body span, t, s, hplace, ht, hs => by
    rw [stmt]
    refine (spares_condition hs (hU.opens hplace (.whileCondition t c body span s))).bind fun c' s₁ hc hs₁ _ => ?_
    refine ((spares_setLoopDepth _).ends hs₁).bind fun _ s₂ hdepth hs₂ _ => ?_
    refine ((spares_freshVar "").ends hs₂).bind fun u s₃ hfresh hs₃ hu => ?_
    have hbody := hU.leads hplace (.whileBody c body span)
      ((bind_of_ok hc).trans ((bind_of_ok hdepth).trans hfresh))
    refine (spares_stmt hU body hbody hu hs₃).andThen fun _ _ => ?_
    exact (spares_setLoopDepth _).bind fun _ _ => spares_unless ht
  | .forLoop init c increment body span, t, s, hplace, ht, hs => by
    rw [stmt]
    refine (spares_pushScope.ends hs).bind fun _ s₁ hpush hs₁ _ => ?_
    have hfirst : ∀ i ∈ init, SparingFirst f v i s₁ := fun i hi _ _ _ hinitializes => by
      obtain rfl := Option.mem_def.mp hi
      exact hU.opens hplace (.forInit t c increment body span hpush hinitializes)
    refine (spares_forInit hs₁ hfirst).bind fun init' s₂ hinit hs₂ _ => ?_
    have hcondition : EndsIn (Spares f v) (c.mapM condition s₂) := by
      cases c with
      | none => exact ⟨hs₂, trivial⟩
      | some c =>
        rw [Option.mapM_some]
        exact (spares_condition hs₂
          (hU.opens hplace (.forCondition t c increment body span hpush hinit))).map
    refine hcondition.bind fun c' s₃ hc hs₃ _ => ?_
    have hincrement : EndsIn (Spares f v) (increment.mapM (fun e => Prod.snd <$> infer e) s₃) := by
      cases increment with
      | none => exact ⟨hs₃, trivial⟩
      | some e =>
        rw [Option.mapM_some]
        exact (EndsIn.map ((spares_opened hs₃
          (hU.opens hplace (.forIncrement t e body span hpush hinit hc)) omits_none).mono fun _ _ => trivial)).map
    refine hincrement.bind fun increment' s₄ hincrement hs₄ _ => ?_
    refine ((spares_setLoopDepth _).ends hs₄).bind fun _ s₅ hdepth hs₅ _ => ?_
    refine ((spares_freshVar "").ends hs₅).bind fun u s₆ hfresh hs₆ hu => ?_
    have hbody := hU.leads hplace (.forBody init c increment body span) ((bind_of_ok hpush).trans
      ((bind_of_ok hinit).trans ((bind_of_ok hc).trans
        ((bind_of_ok hincrement).trans ((bind_of_ok hdepth).trans hfresh)))))
    refine (spares_stmt hU body hbody hu hs₆).andThen fun _ _ => ?_
    exact (spares_setLoopDepth _).bind fun _ _ => spares_popScope.bind fun _ _ => spares_unless ht
  | .breakLoop span, t, s, _, _, hs => by
    rw [stmt]
    exact ((spares_jump "break" span).bind fun _ _ => .pure trivial).ends hs
  | .continueLoop span, t, s, _, _, hs => by
    rw [stmt]
    exact ((spares_jump "continue" span).bind fun _ _ => .pure trivial).ends hs
  | .cases scrutinee cs none span, t, s, hplace, ht, hs => by
    rw [stmt]
    refine (spares_opened hs (hU.opens hplace (.scrutinee t scrutinee cs none span s)) omits_none).bind
      fun r s₁ hscrutinee hs₁ hr => ?_
    have hcases : U (.cases t r.1 cs) s₁ := hU.leads hplace (.cases scrutinee cs none span)
      (by rw [← bind_pure_comp]; exact bind_of_ok hscrutinee)
    exact (spares_matchCases hU cs hcases ht hr hs₁).andThen fun _ _ => .pure trivial
  | .cases scrutinee cs (some default) span, t, s, hplace, ht, hs => by
    rw [stmt]
    refine (spares_opened hs (hU.opens hplace (.scrutinee t scrutinee cs _ span s)) omits_none).bind
      fun r s₁ hscrutinee hs₁ hr => ?_
    have hcases : U (.cases t r.1 cs) s₁ := hU.leads hplace (.cases scrutinee cs (some default) span)
      (by rw [← bind_pure_comp]; exact bind_of_ok hscrutinee)
    refine (spares_matchCases hU cs hcases ht hr hs₁).bind fun cs' s₂ hcs hs₂ _ => ?_
    have hlast := hU.leads hplace (.default scrutinee cs default span)
      ((bind_of_ok hscrutinee).trans (bind_of_ok hcs))
    exact (spares_stmt hU default hlast ht hs₂).andThen fun _ _ => .pure trivial
  | .expr e, t, s, hplace, ht, hs => by
    rw [stmt]
    exact (spares_checked hs (hU.opens hplace (.expr t e s)) ht).andThen fun _ _ => .pure trivial

theorem spares_matchCases (hU : Sparing f v U) : (cs : List (Pattern × Stmt)) → ∀ {t u : Ty}
    {done : List (Pattern × Stmt)} {s : Checker}, U (.cases t u cs) s → t.Omits v.id → u.Omits v.id →
    s.Spares f v → EndsIn (Spares f v) (matchCases t u done cs s)
  | [], t, u, done, s, _, _, _, hs => by
    rw [matchCases]
    exact ⟨hs, trivial⟩
  | (p, st) :: cs, t, u, done, s, hplace, ht, hu, hs => by
    rw [matchCases]
    refine (spares_pushScope.ends hs).bind fun _ s₁ hpush hs₁ _ => ?_
    refine ((spares_pattern p hu).ends hs₁).bind fun _ s₂ hpattern hs₂ _ => ?_
    have hbody := hU.leads hplace (.caseBody p st cs) ((bind_of_ok hpush).trans (bind_of_ok hpattern))
    refine (spares_stmt hU st hbody ht hs₂).bind fun st' s₃ hst hs₃ _ => ?_
    refine (spares_popScope.ends hs₃).bind fun _ s₄ hpop hs₄ _ => ?_
    have hnext := hU.leads hplace (.nextCases p st cs) ((bind_of_ok hpush).trans
      ((bind_of_ok hpattern).trans ((bind_of_ok hst).trans (bind_of_ok hpop))))
    exact spares_matchCases hU cs hnext ht hu hs₄

theorem spares_decls (hU : Sparing f v U) : (ds : List Decl) → ∀ {t : Ty} {done : List Decl} {s : Checker},
    U (.decls t ds) s → t.Omits v.id → s.Spares f v → EndsIn (Spares f v) (decls t done ds s)
  | [], t, done, s, _, _, hs => by
    rw [decls]
    exact ⟨hs, trivial⟩
  | d :: ds, t, done, s, hplace, ht, hs => by
    rw [decls]
    refine ((spares_completion ds ht).ends hs).bind fun u s₁ hcompletion hs₁ hu => ?_
    refine (spares_decl hU d (hU.leads hplace (.first d ds) hcompletion) hu hs₁).bind fun d' s₂ hd hs₂ _ => ?_
    have hrest := hU.leads hplace (.rest d ds) ((bind_of_ok hcompletion).trans (bind_of_ok hd))
    exact spares_decls hU ds hrest ht hs₂

/-- **A declaration** in which the name is used for accesses only spares its variable. -/
theorem spares_decl (hU : Sparing f v U) : (d : Decl) → ∀ {t : Ty} {s : Checker}, U (.decl t d) s →
    t.Omits v.id → s.Spares f v → EndsIn (Spares f v) (decl t d s)
  | .letDecl d, t, s, hplace, ht, hs => by
    rw [decl]
    refine (spares_letDecl hs fun hinitializes => hU.opens hplace (.letDecl t hinitializes)).andThen fun d' _ => ?_
    exact (spares_unify ht (Ty.omits_name _) d'.span).bind fun _ _ => .pure trivial
  | .fn head body, t, s, hplace, ht, hs => by
    rw [decl, function_eq, fnType, fnBody_eq]
    simp only [inBlock_eq, bind_assoc, pure_bind]
    refine (spares_pushFrame.ends hs).bind fun _ s₁ hpush hs₁ _ => ?_
    refine ((spares_enterFunction head).ends hs₁).bind fun a s₂ henter hs₂ ha => ?_
    refine ((spares_openBlock body head.bodySpan ha.2).ends hs₂).bind fun u s₃ hopen hs₃ hu => ?_
    have hbody := hU.leads hplace (.body head body)
      ((bind_of_ok hpush).trans ((bind_of_ok henter).trans hopen))
    obtain rfl := openBlock_eq_ok hopen
    refine (spares_decls hU body hbody hu hs₃).andThen fun _ _ => spares_popScope.bind fun _ _ => ?_
    refine (spares_leaveBody _).bind fun _ _ => spares_popScope.bind fun _ _ => spares_popFrame.bind fun _ _ => ?_
    refine (spares_resolveDeep ha.1).bind fun w hw => (spares_bindValue head.name hw).bind fun _ _ => ?_
    exact (spares_unify ht (Ty.omits_name _) head.span).bind fun _ _ => .pure trivial
  | .stmt st, t, s, hplace, ht, hs => by
    rw [decl]
    exact (spares_stmt hU st (hU.leads hplace (.statement st) rfl) ht hs).andThen fun _ _ => .pure trivial

end

/-- **The variable is spared** by what the check of statements and declarations does. -/
theorem maintains_spares (hU : Sparing f v U) : Maintains (Spares f v) (Ty.Omits v.id) U where
  void := Ty.omits_name _
  popScope := spares_popScope
  popFrame := spares_popFrame
  leaveBody := spares_leaveBody
  setLoopDepth := spares_setLoopDepth
  unify span ht hu := spares_unify ht hu span
  resolveDeep := spares_resolveDeep
  bindValue := spares_bindValue
  leads := hU.leads
  part {P s} hplace hgood hs := by
    cases P with
    | stmt t st => exact spares_stmt hU st hplace (hgood t (List.mem_singleton_self t)) hs
    | cases t u cs =>
      obtain ⟨ht, hu⟩ := List.forall_mem_cons.mp hgood
      exact fun done => spares_matchCases hU cs hplace ht (hu u (List.mem_singleton_self u)) hs
    | decls t ds => exact fun done => spares_decls hU ds hplace (hgood t (List.mem_singleton_self t)) hs
    | decl t d => exact spares_decl hU d hplace (hgood t (List.mem_singleton_self t)) hs

end Check

end Reified
