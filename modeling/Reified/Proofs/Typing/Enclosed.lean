import Reified.Proofs.Typing.Nesting

/-!
# Jumps of checked functions

In an accepted declaration, every `break` and every `continue` stands in a loop of the innermost function
around it. Checking counts the loops around a place inside that function, and refuses a jump when there
is none; it starts again from zero in the body of a function and goes on behind it as before.

## Main definitions

* `Stmt.Enclosed`, `Decl.Enclosed` — every jump stands in a loop
* `Check.Steady` — an action that leaves the number of loops around alone
* `Check.Counts` — an action of which it is known how it changes that number

## Main results

* `Checker.enclosed_accepted` — the jumps in accepted declarations stand in loops
-/

namespace Reified

/-! ## Jumps in a tree -/

mutual

/-- Every `break` and `continue` in the statement stands in a loop of the same function; `inLoop` tells
whether the statement itself does. -/
def Stmt.Enclosed (inLoop : Bool) : Stmt → Prop
  | .empty _ | .ret .. | .expr _ => True
  | .block body _ => Decl.EnclosedList inLoop body
  | .cond _ s none _ => s.Enclosed inLoop
  | .cond _ s (some t) _ => s.Enclosed inLoop ∧ t.Enclosed inLoop
  | .whileLoop _ body _ | .forLoop _ _ _ body _ => body.Enclosed true
  | .breakLoop _ | .continueLoop _ => inLoop = true
  | .cases _ cs none _ => Stmt.EnclosedCases inLoop cs
  | .cases _ cs (some s) _ => Stmt.EnclosedCases inLoop cs ∧ s.Enclosed inLoop

/-- `Stmt.Enclosed` for the statement of each case. -/
def Stmt.EnclosedCases (inLoop : Bool) : List (Pattern × Stmt) → Prop
  | [] => True
  | (_, s) :: cs => s.Enclosed inLoop ∧ Stmt.EnclosedCases inLoop cs

/-- Every `break` and `continue` in the declaration stands in a loop of the same function. -/
def Decl.Enclosed (inLoop : Bool) : Decl → Prop
  | .letDecl _ => True
  | .fn _ body => Decl.EnclosedList false body
  | .stmt s => s.Enclosed inLoop

/-- `Decl.Enclosed` for each declaration of a list. -/
def Decl.EnclosedList (inLoop : Bool) : List Decl → Prop
  | [] => True
  | d :: ds => d.Enclosed inLoop ∧ Decl.EnclosedList inLoop ds

end

section

variable {inLoop : Bool}

theorem Stmt.enclosedCases_iff {cs : List (Pattern × Stmt)} :
    Stmt.EnclosedCases inLoop cs ↔ ∀ c ∈ cs, c.2.Enclosed inLoop := by
  induction cs with
  | nil => simp [Stmt.EnclosedCases]
  | cons c cs ih => obtain ⟨p, s⟩ := c; simp [Stmt.EnclosedCases, ih]

theorem Decl.enclosedList_iff {ds : List Decl} :
    Decl.EnclosedList inLoop ds ↔ ∀ d ∈ ds, d.Enclosed inLoop := by
  induction ds with
  | nil => simp [Decl.EnclosedList]
  | cons d ds ih => simp [Decl.EnclosedList, ih]

end

/-! ## Checking -/

namespace Check

variable {α β : Type} {m n k : Nat} {post : α → Prop} {act : Check α}

/-! ## Loops around a place -/

/-- The action leaves the number of loops alone. -/
abbrev Steady {α : Type} (act : Check α) : Prop := Leaves Checker.loopDepth act

/-- What leaves alone how deep the checker is nested leaves the number of loops alone. -/
theorem Leaves.steady (h : Level act) : Steady act := h.of_eq (fun x => x.1.loops) fun _ => rfl

theorem steady_onScope (f : Scope → Scope) : Steady (onScope f) := ⟨fun _ _ h => ⟨h, trivial⟩⟩

theorem steady_pushFrame : Steady pushFrame := ⟨fun _ _ h => ⟨h, trivial⟩⟩

theorem steady_popFrame : Steady popFrame := ⟨fun _ _ h => ⟨h, trivial⟩⟩

/-- If the action succeeds where there are `m` loops around, there are `n` afterwards, and its answer has
the property. -/
def Counts (m n : Nat) (post : α → Prop) (act : Check α) : Prop :=
  ∀ ⦃s s' : Checker⦄ ⦃a : α⦄, s.loopDepth = m → act s = .ok a s' → s'.loopDepth = n ∧ post a

namespace Counts

theorem pure {a : α} (h : post a) : Counts n n post (Pure.pure a) := by
  intro s s' b hs hact
  cases hact
  exact ⟨hs, h⟩

theorem fail (e : TyError) (span : Span) : Counts m n post (Check.fail e span) := by
  intro s s' b _ hact
  cases hact

theorem bind {next : α → Check β} {post' : β → Prop} (h : Counts m n post act)
    (hnext : ∀ a, post a → Counts n k post' (next a)) : Counts m k post' (act >>= next) := by
  intro s s' b hs hact
  obtain ⟨a, s₁, h1, h2⟩ := bind_eq_ok hact
  obtain ⟨hs₁, ha⟩ := h hs h1
  exact hnext a ha hs₁ h2

/-- An action that leaves the number of loops alone. -/
theorem steady (h : Steady act) : Counts n n (fun _ => True) act :=
  fun _ _ _ hs hact => ⟨(h.eq_of_ok hact).trans hs, trivial⟩

/-- One action after another one that leaves the number of loops alone. -/
theorem andThen {next : α → Check β} {post' : β → Prop} (h : Steady act)
    (hnext : ∀ a, Counts n k post' (next a)) : Counts n k post' (act >>= next) :=
  (steady h).bind fun a _ => hnext a

theorem setLoopDepth (f : Nat → Nat) : Counts n (f n) (fun _ => True) (Check.setLoopDepth f) := by
  intro s s' a hs hact
  cases hact
  exact ⟨congrArg f hs, trivial⟩

/-- The body of a function is not inside the loops around the function. -/
theorem enterBody (result : Ty) : Counts n 0 (fun depth => depth = n) (Check.enterBody result) := by
  intro s s' a hs hact
  cases hact
  exact ⟨rfl, hs⟩

theorem leaveBody (depth : Nat) : Counts n depth (fun _ => True) (Check.leaveBody depth) := by
  intro s s' a _ hact
  cases hact
  exact ⟨rfl, trivial⟩

/-- A jump is refused where there is no loop around. -/
theorem jump (keyword : String) (span : Span) :
    Counts n n (fun _ => decide (0 < n) = true) (Check.jump keyword span) := by
  intro s s' a hs hact
  change (if s.loopDepth = 0 then _ else _ : Check Unit) s = _ at hact
  split at hact
  next => cases hact
  next hpos =>
    cases hact
    exact ⟨hs, decide_eq_true (by omega)⟩

end Counts

/-! ## Statements and declarations -/

theorem counts_inBlock {t : Ty} {body : List Decl} {span : Span} {declarations : Check (List Decl)}
    {P : List Decl → Prop} (h : Counts n n P declarations) :
    Counts n n P (inBlock t body span declarations) := by
  have hrest : Counts n n P (do
      let body ← declarations
      popScope
      return body) :=
    h.bind fun _ hbody => .andThen (steady_onScope _) fun _ => .pure hbody
  unfold inBlock
  refine .andThen (steady_onScope _) fun _ => .andThen (level_hoist body).steady fun _ => ?_
  dsimp only
  split
  · exact .andThen (quiet_unify ..).level.steady fun _ => hrest
  · exact hrest

theorem counts_function {head : FnHead} {body : Ty → Check (List Decl)} {P : List Decl → Prop}
    (hbody : ∀ t, Counts 0 0 P (body t)) : Counts n n (fun r => P r.2) (function head body) := by
  unfold function
  refine .andThen steady_pushFrame fun _ => .andThen (steady_onScope _) fun _ => ?_
  refine .andThen (level_bindTypeParams head.typeParams).steady fun _ => ?_
  refine .andThen (level_paramTypes head.params [] 0).steady fun r => ?_
  refine .andThen (quiet_optionalType "" head.result).level.steady fun result => ?_
  refine .andThen (steady_onScope _) fun _ => .andThen (level_bindParams head.params r.1).steady fun _ => ?_
  refine (Counts.enterBody result).bind fun depth hdepth => ?_
  subst hdepth
  refine (hbody result).bind fun body' hbody' => (Counts.leaveBody depth).bind fun _ _ => ?_
  refine .andThen (steady_onScope _) fun _ => .andThen steady_popFrame fun _ => ?_
  exact .andThen (quiet_resolveDeep _).level.steady fun _ => .andThen (steady_onScope _) fun _ => .pure hbody'

/-- A loop may be followed by the requirement that its completion value is the unit value. -/
theorem counts_unless {c : Bool} {t u : Ty} {span : Span} {a : α} (h : post a) :
    Counts n n post (do
      unless c do unify t u span
      return a) := by
  split
  · exact .pure h
  · exact .andThen (quiet_unify ..).level.steady fun _ => .pure h

variable [Policy]

mutual

theorem counts_stmt : (s : Stmt) → ∀ {n : Nat} {t : Ty},
    Counts n n (Stmt.Enclosed (decide (0 < n))) (stmt t s)
  | .empty span, n, t => by
    rw [stmt]
    exact .andThen (quiet_unify ..).level.steady fun _ => .pure trivial
  | .block body span, n, t => by
    rw [stmt]
    exact (counts_inBlock (counts_decls body (by simp))).bind fun _ hbody => .pure hbody
  | .ret value span, n, t => by
    rw [stmt]
    refine .andThen .get fun s => ?_
    split
    · exact .fail _ _
    · split
      · exact .andThen (quiet_check _ _).level.steady fun _ => .pure trivial
      · exact .andThen (quiet_unify ..).level.steady fun _ => .pure trivial
  | .cond c s none span, n, t => by
    rw [stmt]
    refine .andThen (quiet_check c .bool).level.steady fun _ => .andThen (quiet_freshVar "").level.steady fun u => ?_
    exact (counts_stmt s).bind fun _ hs => .andThen (quiet_unify ..).level.steady fun _ => .pure hs
  | .cond c s (some alternate) span, n, t => by
    rw [stmt]
    refine .andThen (quiet_check c .bool).level.steady fun _ => (counts_stmt s).bind fun _ hs => ?_
    exact (counts_stmt alternate).bind fun _ ha => .pure ⟨hs, ha⟩
  | .whileLoop c body span, n, t => by
    rw [stmt]
    refine .andThen (quiet_check c .bool).level.steady fun _ => (Counts.setLoopDepth _).bind fun _ _ => ?_
    refine .andThen (quiet_freshVar "").level.steady fun u => (counts_stmt body).bind fun _ hbody => ?_
    refine (Counts.setLoopDepth _).bind fun _ _ => counts_unless ?_
    rwa [decide_eq_true (Nat.succ_pos n)] at hbody
  | .forLoop init c increment body span, n, t => by
    rw [stmt]
    refine .andThen (steady_onScope _) fun _ => .andThen (level_forInit init).steady fun _ => ?_
    refine .andThen (quiet_mapM (fun c => quiet_check c .bool) c).level.steady fun _ => ?_
    refine .andThen (quiet_mapM (fun e => (quiet_infer e).map) increment).level.steady fun _ => ?_
    refine (Counts.setLoopDepth _).bind fun _ _ => .andThen (quiet_freshVar "").level.steady fun u => ?_
    refine (counts_stmt body).bind fun _ hbody => (Counts.setLoopDepth _).bind fun _ _ => ?_
    refine .andThen (steady_onScope _) fun _ => counts_unless ?_
    rwa [decide_eq_true (Nat.succ_pos n)] at hbody
  | .breakLoop span, n, t => by
    rw [stmt]
    exact (Counts.jump "break" span).bind fun _ h => .pure h
  | .continueLoop span, n, t => by
    rw [stmt]
    exact (Counts.jump "continue" span).bind fun _ h => .pure h
  | .cases scrutinee cs none span, n, t => by
    rw [stmt]
    exact .andThen (quiet_infer scrutinee).level.steady fun _ => (counts_matchCases cs (by simp)).bind fun _ hcs =>
      .pure hcs
  | .cases scrutinee cs (some default) span, n, t => by
    rw [stmt]
    refine .andThen (quiet_infer scrutinee).level.steady fun _ => (counts_matchCases cs (by simp)).bind fun _ hcs => ?_
    exact (counts_stmt default).bind fun _ hs => .pure ⟨hcs, hs⟩
  | .expr e, n, t => by
    rw [stmt]
    exact .andThen (quiet_check e t).level.steady fun _ => .pure trivial

theorem counts_matchCases : (cs : List (Pattern × Stmt)) → ∀ {n : Nat} {t scrutinee : Ty}
    {done : List (Pattern × Stmt)}, (∀ c ∈ done, c.2.Enclosed (decide (0 < n))) →
    Counts n n (Stmt.EnclosedCases (decide (0 < n))) (matchCases t scrutinee done cs)
  | [], n, t, scrutinee, done, hdone => by
    rw [matchCases]
    exact .pure (Stmt.enclosedCases_iff.mpr fun c hc => hdone c (List.mem_reverse.mp hc))
  | (p, s) :: cs, n, t, scrutinee, done, hdone => by
    rw [matchCases]
    refine .andThen (steady_onScope _) fun _ => .andThen (level_pattern p scrutinee).steady fun _ => ?_
    refine (counts_stmt s).bind fun s' hs' => .andThen (steady_onScope _) fun _ => ?_
    exact counts_matchCases cs (List.forall_mem_cons.mpr ⟨hs', hdone⟩)

theorem counts_decls : (ds : List Decl) → ∀ {n : Nat} {t : Ty} {done : List Decl},
    (∀ d ∈ done, d.Enclosed (decide (0 < n))) →
    Counts n n (Decl.EnclosedList (decide (0 < n))) (decls t done ds)
  | [], n, t, done, hdone => by
    rw [decls]
    exact .pure (Decl.enclosedList_iff.mpr fun d hd => hdone d (List.mem_reverse.mp hd))
  | d :: ds, n, t, done, hdone => by
    have hcompletion : Steady (completion t ds) := .ite (.pure _) (quiet_freshVar "").level.steady
    rw [decls]
    refine .andThen hcompletion fun _ => (counts_decl d).bind fun d' hd => ?_
    exact counts_decls ds (List.forall_mem_cons.mpr ⟨hd, hdone⟩)

/-- **The jumps in a checked declaration** stand in loops of their functions, or in the loops that are
around the declaration. -/
theorem counts_decl : (d : Decl) → ∀ {n : Nat} {t : Ty},
    Counts n n (Decl.Enclosed (decide (0 < n))) (decl t d)
  | .letDecl d, n, t => by
    rw [decl]
    exact .andThen (level_letDecl d).steady fun _ => .andThen (quiet_unify ..).level.steady fun _ => .pure trivial
  | .fn head body, n, t => by
    have hbody (u : Ty) : Counts 0 0 (Decl.EnclosedList false)
        (inBlock u body head.bodySpan (decls u [] body)) :=
      counts_inBlock (counts_decls body (by simp))
    rw [decl]
    exact (counts_function hbody).bind fun _ hr => .andThen (quiet_unify ..).level.steady fun _ => .pure hr
  | .stmt s, n, t => by
    rw [decl]
    exact (counts_stmt s).bind fun _ hs => .pure hs

end

end Check

/-! ## Final types -/

mutual

theorem Stmt.enclosed_finish : (s : Stmt) → ∀ {inLoop : Bool}, s.Enclosed inLoop →
    Answers (Stmt.Enclosed inLoop) s.finish
  | .empty span, _, _ => by
    rw [Stmt.finish]
    exact .pure trivial
  | .block body span, _, h => by
    rw [Stmt.finish]
    exact .bind (Decl.enclosed_finishDecls body h nofun) fun _ hbody => .pure hbody
  | .ret value span, _, _ => by
    rw [Stmt.finish]
    exact .bind .any fun _ _ => .pure trivial
  | .cond c s none span, _, h => by
    rw [Stmt.finish]
    exact .bind .any fun _ _ => .bind (Stmt.enclosed_finish s h) fun _ hs => .pure hs
  | .cond c s (some t) span, _, h => by
    rw [Stmt.finish]
    refine .bind .any fun _ _ => .bind (Stmt.enclosed_finish s h.1) fun _ hs => ?_
    exact .bind (Stmt.enclosed_finish t h.2) fun _ ht => .pure ⟨hs, ht⟩
  | .whileLoop c body span, _, h => by
    rw [Stmt.finish]
    exact .bind .any fun _ _ => .bind (Stmt.enclosed_finish body h) fun _ hbody => .pure hbody
  | .forLoop init c increment body span, _, h => by
    rw [Stmt.finish]
    refine .bind .any fun _ _ => .bind .any fun _ _ => .bind .any fun _ _ => ?_
    exact .bind (Stmt.enclosed_finish body h) fun _ hbody => .pure hbody
  | .breakLoop span, _, h => by
    rw [Stmt.finish]
    exact .pure h
  | .continueLoop span, _, h => by
    rw [Stmt.finish]
    exact .pure h
  | .cases scrutinee cs none span, _, h => by
    rw [Stmt.finish]
    exact .bind .any fun _ _ => .bind (Stmt.enclosed_finishCases cs h nofun) fun _ hcs => .pure hcs
  | .cases scrutinee cs (some default) span, _, h => by
    rw [Stmt.finish]
    refine .bind .any fun _ _ => .bind (Stmt.enclosed_finishCases cs h.1 nofun) fun _ hcs => ?_
    exact .bind (Stmt.enclosed_finish default h.2) fun _ hd => .pure ⟨hcs, hd⟩
  | .expr e, _, _ => by
    rw [Stmt.finish]
    exact .bind .any fun _ _ => .pure trivial

theorem Stmt.enclosed_finishCases : (cs : List (Pattern × Stmt)) → ∀ {inLoop : Bool},
    Stmt.EnclosedCases inLoop cs → ∀ {done : List (Pattern × Stmt)},
    (∀ c ∈ done, c.2.Enclosed inLoop) → Answers (Stmt.EnclosedCases inLoop) (finishCases done cs)
  | [], _, _, done, hdone => by
    rw [finishCases]
    exact .pure (Stmt.enclosedCases_iff.mpr fun c hc => hdone c (List.mem_reverse.mp hc))
  | (p, s) :: cs, _, h, done, hdone => by
    rw [finishCases]
    refine .bind (Stmt.enclosed_finish s h.1) fun _ hs => ?_
    exact Stmt.enclosed_finishCases cs h.2 (List.forall_mem_cons.mpr ⟨hs, hdone⟩)

theorem Decl.enclosed_finishDecls : (ds : List Decl) → ∀ {inLoop : Bool},
    Decl.EnclosedList inLoop ds → ∀ {done : List Decl}, (∀ d ∈ done, d.Enclosed inLoop) →
    Answers (Decl.EnclosedList inLoop) (finishDecls done ds)
  | [], _, _, done, hdone => by
    rw [finishDecls]
    exact .pure (Decl.enclosedList_iff.mpr fun d hd => hdone d (List.mem_reverse.mp hd))
  | d :: ds, _, h, done, hdone => by
    rw [finishDecls]
    refine .bind (Decl.enclosed_finish d h.1) fun _ hd => ?_
    exact Decl.enclosed_finishDecls ds h.2 (List.forall_mem_cons.mpr ⟨hd, hdone⟩)

/-- Final types move no jump. -/
theorem Decl.enclosed_finish : (d : Decl) → ∀ {inLoop : Bool}, d.Enclosed inLoop →
    Answers (Decl.Enclosed inLoop) d.finish
  | .letDecl d, _, _ => by
    rw [Decl.finish]
    exact .bind .any fun _ _ => .pure trivial
  | .fn head body, _, h => by
    rw [Decl.finish]
    refine .bind .any fun _ _ => ?_
    exact .bind (Decl.enclosed_finishDecls body h nofun) fun _ hbody => .pure hbody
  | .stmt s, _, h => by
    rw [Decl.finish]
    exact .bind (Stmt.enclosed_finish s h) fun _ hs => .pure hs

end

/-! ## Programs -/

namespace Checker

open Check (Steady)

theorem loopDepth_after {act : Check Unit} (h : Steady act) (s : Checker) :
    (s.after act).loopDepth = s.loopDepth := by
  unfold after
  split
  next hact => exact h.eq_of_ok hact
  next hact => exact h.eq_of_error hact

theorem steady_openProgram (program : Program) : Steady (openProgram program) :=
  Check.steady_pushFrame.bind fun _ => (Check.steady_onScope _).bind fun _ =>
    (Check.level_hoist program).steady

theorem steady_bindRejected (d : Decl) : Steady (bindRejected d) := by
  cases d with
  | letDecl d => exact (Check.quiet_freshVar _).level.steady.bind fun _ => Check.steady_onScope _
  | fn | stmt => exact .pure ()

theorem steady_declareOperators : (ops : List Operator) → Steady (declareOperators ops)
  | [] => .pure ()
  | _ :: ops => (Check.quiet_freshVar _).level.steady.bind fun _ => (Check.steady_onScope _).bind fun _ =>
      steady_declareOperators ops

/-- Before any program there is no loop around. -/
theorem loopDepth_initial : initial.loopDepth = 0 := by
  have h : Steady declareBuiltins :=
    (Check.steady_onScope _).bind fun _ => Check.steady_pushFrame.bind fun _ =>
      (steady_declareOperators _).bind fun _ => Check.steady_popFrame
  unfold initial
  split
  next hact => exact h.eq_of_ok hact
  next hact => exact h.eq_of_error hact

theorem enclosed_checkDecls [Check.Policy] (ds : Program) (index : Nat) {s : Checker} (hs : s.loopDepth = 0)
    {done : List (Decl × Bool)} (hdone : ∀ d ∈ done, d.2 = true → d.1.Enclosed false) :
    ∀ d ∈ (checkDecls index done ds s).1, d.2 = true → d.1.Enclosed false := by
  induction ds generalizing index done s with
  | nil => exact fun d hd => hdone d (List.mem_reverse.mp hd)
  | cons d ds ih =>
    have htop : Check.Counts 0 0 (Decl.Enclosed false) (checkTopLevel d) :=
      .andThen (Check.quiet_freshVar "").level.steady fun _ => Check.counts_decl d
    rw [checkDecls]
    cases hact : checkTopLevel d s with
    | ok d' s' =>
      obtain ⟨hs', hd'⟩ := htop hs hact
      exact ih _ hs' (List.forall_mem_cons.mpr ⟨fun _ => hd', hdone⟩)
    | error e s' =>
      refine ih _ ?_ (List.forall_mem_cons.mpr ⟨(absurd · Bool.false_ne_true), hdone⟩)
      rw [loopDepth_after (steady_bindRejected d)]
      exact hs

theorem enclosed_finishAccepted (ds : List (Decl × Bool))
    (hds : ∀ d ∈ ds, d.2 = true → d.1.Enclosed false) {done : List (Decl × Bool)}
    (hdone : ∀ d ∈ done, d.2 = true → d.1.Enclosed false) :
    Answers (fun ds' => ∀ d ∈ ds', d.2 = true → d.1.Enclosed false) (finishAccepted done ds) := by
  induction ds generalizing done with
  | nil => exact .pure fun d hd => hdone d (List.mem_reverse.mp hd)
  | cons d ds ih =>
    obtain ⟨d, accepted⟩ := d
    obtain ⟨hd, hrest⟩ := List.forall_mem_cons.mp hds
    rw [finishAccepted]
    cases accepted with
    | true =>
      refine .bind (Decl.enclosed_finish d (hd rfl)) fun d' hd' => ?_
      exact ih hrest (List.forall_mem_cons.mpr ⟨fun _ => hd', hdone⟩)
    | false =>
      refine .bind .any fun d' _ => ?_
      exact ih hrest (List.forall_mem_cons.mpr ⟨(absurd · Bool.false_ne_true), hdone⟩)

/-- **In the accepted declarations of a checked program, every jump stands in a loop** of the innermost
function around it. -/
theorem enclosed_accepted [Check.Policy] {s : Checker} (hs : s.loopDepth = 0) (program : Program) :
    Decl.EnclosedList false
      ((s.checkProgram program).1.program.accepted (s.checkProgram program).1.rejected) := by
  have hnone : ∀ d ∈ ([] : List (Decl × Bool)), d.2 = true → d.1.Enclosed false := by simp
  have hopen : (s.after (openProgram program)).loopDepth = 0 :=
    (loopDepth_after (steady_openProgram program) s).trans hs
  have hchecked := enclosed_checkDecls program 0 hopen hnone
  refine Decl.enclosedList_iff.mpr fun d hd => ?_
  exact enclosed_finishAccepted _ hchecked hnone _ _ (exists_of_mem_accepted hd) rfl

end Checker

end Reified
