import Reified.Proofs.Typing.Nesting
import Reified.Proofs.Typing.Siblings

/-!
# Checking programs is balanced

Functions, blocks, loops and the cases of a match open scopes and frames, and enter functions and loops. A
check that succeeds has closed and left them all; a check that fails leaves open what it had opened, but it
never closes what was open before it began. That is what unwinding relies on: what is on top of the former
depths goes, and all that was below is still there.

A program is therefore checked at one and the same depth, however many of its declarations are rejected, and
each of these is reported exactly once.

## Main definitions

* `Check.Opening`, `Checker.Since` — what has been opened since a checker
* `Check.Shifts` — an action that opens and closes, and whose failure closes nothing
* `Checker.before` — the checker that is about to check the declaration at a position

## Main results

* `Check.shifts_stmt`, `Check.shifts_decl` — statements and declarations
* `Checker.nesting_recover` — unwinding leads back to the depth of the last declaration
* `Checker.checkProgram_balanced` — programs
-/

namespace Reified

/-! ## Opening and closing -/

/-- What has been opened and not closed since some point: scopes, frames and functions; and the number of loops
around. -/
structure Opening where
  scopes : Nat
  frames : Nat
  returns : List Ty
  loops : Nat

namespace Opening

/-- A scope further in. -/
def inScope (o : Opening) : Opening := { o with scopes := o.scopes + 1 }

/-- A frame further in. -/
def inFrame (o : Opening) : Opening := { o with frames := o.frames + 1 }

/-- Inside the body of a function with the given result type. -/
def inBody (t : Ty) (o : Opening) : Opening := { o with returns := t :: o.returns, loops := 0 }

/-- Inside a loop. -/
def inLoop (o : Opening) : Opening := { o with loops := o.loops + 1 }

end Opening

/-- This has been opened since the checker was `s`, all of which is still open. -/
structure Checker.Since (s : Checker) (o : Opening) (s' : Checker) : Prop where
  scopes : s'.scope.depth = s.scope.depth + o.scopes
  frames : s'.frames.depth = s.frames.depth + o.frames
  returns : s'.returns = o.returns ++ s.returns
  loops : s'.loopDepth = o.loops
  diagnostics : s'.diagnostics = s.diagnostics

namespace Checker.Since

variable {s s₁ s' : Checker} {o : Opening}

/-- Nothing has been opened yet. -/
theorem refl (s : Checker) : s.Since ⟨0, 0, [], s.loopDepth⟩ s := ⟨rfl, rfl, rfl, rfl, rfl⟩

/-- Nothing is open that was not open before. -/
theorem nesting_eq (h : s.Since ⟨0, 0, [], s.loopDepth⟩ s') : s'.nesting = s.nesting := by
  simp only [nesting, h.scopes, h.frames, h.returns, h.loops, Nat.add_zero, List.nil_append]

/-- The same is open. -/
theorem of_eq (h : s.Since o s₁) (heq : (s'.nesting, s'.diagnostics) = (s₁.nesting, s₁.diagnostics)) :
    s.Since o s' := by
  obtain ⟨hnesting, hdiagnostics⟩ := Prod.mk.inj heq
  obtain ⟨hscopes, hframes, hreturns, hloops⟩ := Nesting.mk.inj hnesting
  exact ⟨hscopes.trans h.scopes, hframes.trans h.frames, hreturns.trans h.returns, hloops.trans h.loops,
    hdiagnostics.trans h.diagnostics⟩

end Checker.Since

namespace Check

open Checker (Since)

variable {α β : Type} {o o₁ o₂ : Opening} {act : Check α}

/-- Wherever the action starts with `o` open since some point, it ends with `o₁` open since then, or it fails
with something open since then: what was open at that point is still open. -/
def Shifts (o o₁ : Opening) (act : Check α) : Prop :=
  ∀ ⦃s₀ s : Checker⦄, s₀.Since o s → match act s with
    | .ok _ s' => s₀.Since o₁ s'
    | .error _ s' => ∃ o', s₀.Since o' s'

namespace Shifts

theorem bind {next : α → Check β} (h : Shifts o o₁ act) (hnext : ∀ a, Shifts o₁ o₂ (next a)) :
    Shifts o o₂ (act >>= next) := by
  intro s₀ s hs
  have h1 := h hs
  show match EStateM.bind act next s with
    | .ok _ s' => s₀.Since o₂ s'
    | .error _ s' => ∃ o', s₀.Since o' s'
  rw [EStateM.bind]
  cases hact : act s with
  | ok a s' =>
    rw [hact] at h1
    exact hnext a h1
  | error e s' =>
    rw [hact] at h1
    exact h1

theorem pure (a : α) : Shifts o o (Pure.pure a) := fun _ _ hs => hs

theorem fail (e : TyError) (span : Span) : Shifts o o₁ (Check.fail e span : Check α) :=
  fun _ _ hs => ⟨o, hs⟩

/-- An action that opens and closes nothing. -/
theorem level (h : Level act) : Shifts o o act := by
  intro s₀ s hs
  cases hact : act s with
  | ok a s' => exact hs.of_eq (h.eq_of_ok hact)
  | error e s' => exact ⟨o, hs.of_eq (h.eq_of_error hact)⟩

/-- One action after another one that opens and closes nothing. -/
theorem andThen {next : α → Check β} (h : Level act) (hnext : ∀ a, Shifts o o₁ (next a)) :
    Shifts o o₁ (act >>= next) :=
  (level h).bind hnext

theorem pushScope : Shifts o o.inScope pushScope :=
  fun _ _ hs => { hs with scopes := congrArg (· + 1) hs.scopes }

theorem popScope : Shifts o.inScope o popScope := fun s₀ s hs =>
  { hs with
    scopes := by
      have hdepth : s.scope.frames.length = s₀.scope.depth + (o.scopes + 1) := hs.scopes
      show s.scope.frames.tail.length = _
      rw [List.length_tail, hdepth]
      rfl }

theorem pushFrame : Shifts o o.inFrame pushFrame :=
  fun _ _ hs => { hs with frames := congrArg (· + 1) hs.frames }

theorem popFrame : Shifts o.inFrame o popFrame := fun s₀ s hs =>
  { hs with
    frames := by
      show (s.frames.pop s.table).2.1.depth = _
      rw [Frames.depth_pop, hs.frames]
      rfl }

theorem enterLoop : Shifts o o.inLoop (setLoopDepth (· + 1)) :=
  fun _ _ hs => { hs with loops := congrArg (· + 1) hs.loops }

theorem leaveLoop : Shifts o.inLoop o (setLoopDepth (· - 1)) :=
  fun _ _ hs => { hs with loops := congrArg (· - 1) hs.loops }

/-- The body of a function, which knows nothing of the loops around the function. -/
theorem inBody {t : Ty} {body : Check α} {next : α → Check β} (hbody : Shifts (o.inBody t) (o.inBody t) body)
    (hnext : ∀ a, Shifts o o₁ (next a)) : Shifts o o₁ (do
      let loopDepth ← enterBody t
      let a ← body
      leaveBody loopDepth
      next a) := by
  intro s₀ s hs
  have hrest : Shifts (o.inBody t) o₁ (do
      let a ← body
      leaveBody s.loopDepth
      next a) := by
    refine hbody.bind fun a => Shifts.bind (fun s₁ s' hs' => ?_) fun _ => hnext a
    exact { hs' with returns := congrArg List.tail hs'.returns, loops := hs.loops }
  exact hrest { hs with returns := congrArg (t :: ·) hs.returns, loops := rfl }

end Shifts

/-! ## Statements and declarations -/

theorem shifts_inBlock {t : Ty} {body : List Decl} {span : Span} {declarations : Check (List Decl)}
    (h : Shifts o.inScope o.inScope declarations) : Shifts o o (inBlock t body span declarations) := by
  have hrest : Shifts o.inScope o (do
      let body ← declarations
      popScope
      return body) :=
    h.bind fun body' => .bind .popScope fun _ => .pure body'
  unfold inBlock
  refine .bind .pushScope fun _ => .andThen (level_hoist body) fun _ => ?_
  dsimp only
  split
  · exact .andThen (quiet_unify ..).level fun _ => hrest
  · exact hrest

theorem shifts_function {head : FnHead} {body : Ty → Check (List Decl)}
    (hbody : ∀ {o} t, Shifts o o (body t)) : Shifts o o (function head body) := by
  unfold function
  refine .bind .pushFrame fun _ => .bind .pushScope fun _ => ?_
  refine .andThen (level_bindTypeParams head.typeParams) fun _ => ?_
  refine .andThen (level_paramTypes head.params [] 0) fun r => ?_
  refine .andThen (quiet_optionalType "" head.result).level fun result => ?_
  refine .andThen (level_bindValue ..) fun _ => .andThen (level_bindParams head.params r.1) fun _ => ?_
  refine .inBody (hbody result) fun body' => .bind .popScope fun _ => .bind .popFrame fun _ => ?_
  exact .andThen (quiet_resolveDeep _).level fun _ => .andThen (level_bindValue ..) fun _ => .pure _

/-- A loop may be followed by the requirement that its completion value is the unit value. -/
theorem shifts_unless {c : Bool} {t u : Ty} {span : Span} (a : α) : Shifts o o (do
      unless c do unify t u span
      return a) := by
  split
  · exact .pure a
  · exact .andThen (quiet_unify ..).level fun _ => .pure a

theorem level_jump (keyword : String) (span : Span) : Level (jump keyword span) :=
  .bind .get fun _ => .ite (.fail _ _) (.pure ())

variable [Policy]

mutual

/-- **Checking a statement** closes what it opens, and a failure closes nothing else. -/
theorem shifts_stmt : (s : Stmt) → ∀ {o : Opening} {t : Ty}, Shifts o o (stmt t s)
  | .empty span, o, t => by
    rw [stmt]
    exact .andThen (quiet_unify ..).level fun _ => .pure _
  | .block body span, o, t => by
    rw [stmt]
    exact (shifts_inBlock (shifts_decls body)).bind fun _ => .pure _
  | .ret value span, o, t => by
    rw [stmt]
    refine .andThen .get fun s => ?_
    split
    · exact .fail _ _
    · split
      · exact .andThen (quiet_check _ _).level fun _ => .pure _
      · exact .andThen (quiet_unify ..).level fun _ => .pure _
  | .cond c s none span, o, t => by
    rw [stmt]
    refine .andThen (quiet_check c .bool).level fun _ => .andThen (quiet_freshVar "").level fun u => ?_
    exact (shifts_stmt s).bind fun _ => .andThen (quiet_unify ..).level fun _ => .pure _
  | .cond c s (some alternate) span, o, t => by
    rw [stmt]
    refine .andThen (quiet_check c .bool).level fun _ => (shifts_stmt s).bind fun _ => ?_
    exact (shifts_stmt alternate).bind fun _ => .pure _
  | .whileLoop c body span, o, t => by
    rw [stmt]
    refine .andThen (quiet_check c .bool).level fun _ => .bind .enterLoop fun _ => ?_
    refine .andThen (quiet_freshVar "").level fun u => (shifts_stmt body).bind fun _ => ?_
    exact .bind .leaveLoop fun _ => shifts_unless _
  | .forLoop init c increment body span, o, t => by
    rw [stmt]
    refine .bind .pushScope fun _ => .andThen (level_forInit init) fun _ => ?_
    refine .andThen (quiet_mapM (fun c => quiet_check c .bool) c).level fun _ => ?_
    refine .andThen (quiet_mapM (fun e => (quiet_infer e).map) increment).level fun _ => ?_
    refine .bind .enterLoop fun _ => .andThen (quiet_freshVar "").level fun u => ?_
    refine (shifts_stmt body).bind fun _ => .bind .leaveLoop fun _ => ?_
    exact .bind .popScope fun _ => shifts_unless _
  | .breakLoop span, o, t => by
    rw [stmt]
    exact .andThen (level_jump "break" span) fun _ => .pure _
  | .continueLoop span, o, t => by
    rw [stmt]
    exact .andThen (level_jump "continue" span) fun _ => .pure _
  | .cases scrutinee cs none span, o, t => by
    rw [stmt]
    exact .andThen (quiet_infer scrutinee).level fun _ => (shifts_matchCases cs).bind fun _ => .pure _
  | .cases scrutinee cs (some default) span, o, t => by
    rw [stmt]
    refine .andThen (quiet_infer scrutinee).level fun _ => (shifts_matchCases cs).bind fun _ => ?_
    exact (shifts_stmt default).bind fun _ => .pure _
  | .expr e, o, t => by
    rw [stmt]
    exact .andThen (quiet_check e t).level fun _ => .pure _

theorem shifts_matchCases : (cs : List (Pattern × Stmt)) → ∀ {o : Opening} {t scrutinee : Ty}
    {done : List (Pattern × Stmt)}, Shifts o o (matchCases t scrutinee done cs)
  | [], o, t, scrutinee, done => by
    rw [matchCases]
    exact .pure _
  | (p, s) :: cs, o, t, scrutinee, done => by
    rw [matchCases]
    refine .bind .pushScope fun _ => .andThen (level_pattern p scrutinee) fun _ => ?_
    exact (shifts_stmt s).bind fun _ => .bind .popScope fun _ => shifts_matchCases cs

theorem shifts_decls : (ds : List Decl) → ∀ {o : Opening} {t : Ty} {done : List Decl},
    Shifts o o (decls t done ds)
  | [], o, t, done => by
    rw [decls]
    exact .pure _
  | d :: ds, o, t, done => by
    have hcompletion : Level (completion t ds) := .ite (.pure _) (quiet_freshVar "").level
    rw [decls]
    exact .andThen hcompletion fun _ => (shifts_decl d).bind fun _ => shifts_decls ds

/-- **Checking a declaration** closes what it opens, and a failure closes nothing else. -/
theorem shifts_decl : (d : Decl) → ∀ {o : Opening} {t : Ty}, Shifts o o (decl t d)
  | .letDecl d, o, t => by
    rw [decl]
    exact .andThen (level_letDecl d) fun _ => .andThen (quiet_unify ..).level fun _ => .pure _
  | .fn head body, o, t => by
    rw [decl]
    refine (shifts_function fun u => shifts_inBlock (shifts_decls body)).bind fun _ => ?_
    exact .andThen (quiet_unify ..).level fun _ => .pure _
  | .stmt s, o, t => by
    rw [decl]
    exact (shifts_stmt s).bind fun _ => .pure _

end

end Check

/-! ## Top-level declarations -/

namespace Checker

open Check (Level Shifts)

section

variable {s s₁ s' : Checker}

/-- Closing inner frames until so many are left. -/
theorem depth_closeFrames {depth n : Nat} {F : Frames} {T : Table} (hle : depth ≤ F.depth)
    (hn : F.depth ≤ depth + n) : (closeFrames depth n F T).1.depth = depth := by
  induction n generalizing F T with
  | zero => exact Nat.le_antisymm hn hle
  | succ n ih =>
    rw [closeFrames]
    split
    · next hlt =>
      have hpop : (F.pop T).2.1.depth = F.depth - 1 := Frames.depth_pop
      refine ih (F := (F.pop T).2.1) (T := (F.pop T).2.2) ?_ ?_ <;> omega
    · next hnot => exact Nat.le_antisymm (Nat.le_of_not_lt hnot) hle

theorem nesting_after {act : Check Unit} (h : Level act) (s : Checker) :
    (s.after act).nesting = s.nesting ∧ (s.after act).diagnostics = s.diagnostics := by
  unfold after
  split
  next hact => exact Prod.mk.inj (h.eq_of_ok hact)
  next hact => exact Prod.mk.inj (h.eq_of_error hact)

theorem level_bindRejected (d : Decl) : Level (bindRejected d) := by
  cases d with
  | letDecl d => exact (Check.quiet_freshVar _).level.bind fun _ => Check.level_bindValue _ _
  | fn | stmt => exact .pure ()

/-- **Unwinding leads back to the depth before the declaration**, whatever its check has left open, and
adds one report. -/
theorem nesting_recover {o : Opening} (h : s.Since o s₁) (index : Nat) (d : Decl) (e : CheckError) :
    (s.recover index d e s₁).nesting = s.nesting ∧
      (s.recover index d e s₁).diagnostics = s.diagnostics.reject index e.error.message e.span := by
  obtain ⟨hnesting, hdiagnostics⟩ := nesting_after (level_bindRejected d)
    ((s₁.report index e).unwind s.scope.depth s.frames.depth s.returns.length s.loopDepth)
  rw [recover, hnesting, hdiagnostics]
  obtain ⟨T, S, F, D, R, L⟩ := s₁
  obtain ⟨hscopes, hframes, hreturns, -, hD⟩ := h
  have hscope : (S.truncate s.scope.depth).depth = s.scope.depth := by
    have hlength : S.frames.length = s.scope.depth + o.scopes := hscopes
    simp only [Scope.truncate, Scope.depth, List.length_drop] at hlength ⊢
    omega
  have hframe : (closeFrames s.frames.depth F.depth F T).1.depth = s.frames.depth :=
    depth_closeFrames (hframes ▸ Nat.le_add_right _ _) (Nat.le_add_left _ _)
  have hreturn : R.drop (R.length - s.returns.length) = s.returns :=
    drop_of_suffix ⟨o.returns, hreturns.symm⟩
  refine ⟨?_, congrArg (·.reject index e.error.message e.span) hD⟩
  show Nesting.mk (S.truncate s.scope.depth).depth (closeFrames s.frames.depth F.depth F T).1.depth
    (R.drop (R.length - s.returns.length)) s.loopDepth = _
  rw [hscope, hframe, hreturn]
  rfl

variable [Check.Policy]

theorem shifts_checkTopLevel {o : Opening} (d : Decl) : Shifts o o (checkTopLevel d) :=
  .andThen (Check.quiet_freshVar "").level fun _ => Check.shifts_decl d

/-- The checker after the declaration at a position, be it accepted or rejected. -/
def next (s : Checker) (index : Nat) (d : Decl) : Checker :=
  match checkTopLevel d s with
  | .ok _ s' => s'
  | .error e s₁ => s.recover index d e s₁

/-- What is reported of the declaration at a position. -/
def reportOf? (s : Checker) (index : Nat) (d : Decl) : Option Diagnostic :=
  match checkTopLevel d s with
  | .ok _ _ => none
  | .error e _ => some ⟨e.error.message, e.span, index⟩

/-- **A top-level declaration** leaves the depth as it was and reports at most one error. -/
theorem nesting_next (s : Checker) (index : Nat) (d : Decl) :
    (s.next index d).nesting = s.nesting ∧
      (s.next index d).diagnostics = ⟨s.diagnostics.entries ++ (s.reportOf? index d).toArray⟩ := by
  have h := shifts_checkTopLevel d (.refl s)
  unfold next reportOf?
  cases hact : checkTopLevel d s with
  | ok d' s' =>
    rw [hact] at h
    exact ⟨h.nesting_eq, h.diagnostics.trans (congrArg Diagnostics.mk Array.append_empty.symm)⟩
  | error e s₁ =>
    rw [hact] at h
    obtain ⟨o, h⟩ := h
    exact nesting_recover h index d e

end

/-! ## Programs -/

/-- Inside the scope and the frame of a program. -/
def Nesting.inProgram (n : Nesting) : Nesting := { n with scopes := n.scopes + 1, frames := n.frames + 1 }

theorem since_openProgram (s : Checker) (program : Program) :
    s.Since (Opening.inScope (Opening.inFrame ⟨0, 0, [], s.loopDepth⟩)) (s.after (openProgram program)) := by
  have hopen : Shifts ⟨0, 0, [], s.loopDepth⟩ _ (openProgram program) :=
    .bind .pushFrame fun _ => .bind .pushScope fun _ => .level (Check.level_hoist program)
  obtain ⟨s', hs'⟩ := hoist_ok program
    { s with frames := s.frames.push, scope := s.scope.push }
  have hact : openProgram program s = .ok () s' := hs'
  have h := hopen (.refl s)
  rw [hact] at h
  rwa [after, hact]

/-- The scope and the frame of a program are closed. -/
theorem nesting_closeProgram {s : Checker} {n : Nesting} (h : s.nesting = n.inProgram) :
    (s.after closeProgram).nesting = n ∧ (s.after closeProgram).diagnostics = s.diagnostics := by
  obtain ⟨hscopes, hframes, hreturns, hloops⟩ := Nesting.mk.inj h
  have hdepth : (s.frames.pop s.table).2.1.depth = n.frames := by
    rw [Frames.depth_pop, hframes, Nat.add_sub_cancel]
  have hscope : s.scope.pop.depth = n.scopes := by
    show s.scope.frames.tail.length = _
    rw [List.length_tail, show s.scope.frames.length = _ from hscopes, Nat.add_sub_cancel]
  refine ⟨?_, rfl⟩
  show Nesting.mk s.scope.pop.depth (s.frames.pop s.table).2.1.depth s.returns s.loopDepth = n
  rw [hdepth, hscope, hreturns, hloops]

/-- Final types change nothing about what is accepted. -/
theorem flags_finishAccepted (done ds : List (Decl × Bool)) (T : Table) :
    (finishAccepted done ds T).1.map Prod.snd = (done.map Prod.snd).reverse ++ ds.map Prod.snd := by
  induction ds generalizing done T with
  | nil =>
    show done.reverse.map Prod.snd = _
    simp
  | cons d ds ih =>
    obtain ⟨d, accepted⟩ := d
    cases accepted
    · exact (ih ((d, false) :: done) T).trans (by simp)
    · exact (ih (((d.finish T).1, true) :: done) (d.finish T).2).trans (by simp)

/-- The rejected positions are those of the declarations that are not accepted. -/
theorem rejectedFrom_eq {p : Nat → Bool} (ds : List (Decl × Bool)) (index : Nat)
    (h : ds.map Prod.snd = (List.range' index ds.length).map fun i => !p i) :
    rejectedFrom index ds = (List.range' index ds.length).filter p := by
  induction ds generalizing index with
  | nil => rfl
  | cons d ds ih =>
    rw [List.length_cons, List.range'_succ, List.map_cons, List.map_cons, List.cons.injEq] at h
    obtain ⟨d, accepted⟩ := d
    rw [List.length_cons, List.range'_succ, List.filter_cons, ← ih (index + 1) h.2]
    have haccepted : accepted = !p index := h.1
    cases hp : p index <;> rw [hp] at haccepted <;> subst haccepted <;> rfl

section

variable [Check.Policy] {s : Checker} {program : Program}

/-- The checker that is about to check the declaration at a position of a program. -/
def before (s : Checker) (program : Program) : Nat → Checker
  | 0 => s.after (openProgram program)
  | i + 1 =>
    match program[i]? with
    | some d => (s.before program i).next i d
    | none => s.before program i

/-- What is reported of the declaration at a position of a program. -/
def report? (s : Checker) (program : Program) (i : Nat) : Option Diagnostic :=
  program[i]?.bind fun d => (s.before program i).reportOf? i d

/-- The reports on the declarations before a position. -/
def reports (s : Checker) (program : Program) (i : Nat) : List Diagnostic :=
  (List.range i).filterMap (s.report? program)

/-- **Every declaration is checked at the same depth**, and what has been reported by then are the errors
of the declarations before it. -/
theorem nesting_before (s : Checker) (program : Program) (i : Nat) :
    (s.before program i).nesting = s.nesting.inProgram ∧
      (s.before program i).diagnostics = s.diagnostics.append ⟨(s.reports program i).toArray⟩ := by
  induction i with
  | zero =>
    have h := since_openProgram s program
    refine ⟨?_, h.diagnostics.trans (congrArg Diagnostics.mk Array.append_empty.symm)⟩
    simp only [before, nesting, h.scopes, h.frames, h.returns, h.loops]
    rfl
  | succ i ih =>
    have hreports : s.reports program (i + 1) = s.reports program i ++ (s.report? program i).toList := by
      rw [reports, List.range_succ, List.filterMap_append]
      cases h : s.report? program i <;> simp [reports, h]
    rw [hreports, before, report?]
    cases program[i]? with
    | none => exact ⟨ih.1, ih.2.trans (by simp)⟩
    | some d =>
      obtain ⟨hnesting, hdiagnostics⟩ := nesting_next (s.before program i) i d
      refine ⟨hnesting.trans ih.1, hdiagnostics.trans ?_⟩
      rw [ih.2, Option.bind_some]
      cases (s.before program i).reportOf? i d <;> simp [Diagnostics.append]

/-- The declarations from a position on are checked one after the other. -/
theorem checkDecls_eq (index : Nat) (done : List (Decl × Bool)) (ds : List Decl)
    (hds : program.drop index = ds) :
    (checkDecls index done ds (s.before program index)).2 = s.before program (index + ds.length) ∧
      (checkDecls index done ds (s.before program index)).1.map Prod.snd = (done.map Prod.snd).reverse ++
        (List.range' index ds.length).map fun i => (s.report? program i).isNone := by
  induction ds generalizing index done with
  | nil => simp [checkDecls]
  | cons d ds ih =>
    have hget : program[index]? = some d := by
      rw [← List.head?_drop, hds, List.head?_cons]
    have hrest : program.drop (index + 1) = ds := by
      rw [← List.tail_drop, hds, List.tail_cons]
    have hbefore : s.before program (index + 1) = (s.before program index).next index d := by
      rw [before, hget]
    have hreport : s.report? program index = (s.before program index).reportOf? index d := by
      rw [report?, hget, Option.bind_some]
    rw [List.length_cons, List.range'_succ, List.map_cons, hreport, ← Nat.add_assoc, Nat.add_right_comm]
    unfold next at hbefore
    unfold reportOf?
    cases hact : checkTopLevel d (s.before program index) with
    | ok d' s' =>
      rw [hact] at hbefore
      rw [checkDecls, hact]
      simp only [← show s.before program (index + 1) = s' from hbefore]
      obtain ⟨hstate, hflags⟩ := ih (index + 1) ((d', true) :: done) hrest
      exact ⟨hstate, hflags.trans (by simp)⟩
    | error e s₁ =>
      rw [hact] at hbefore
      rw [checkDecls_rejected hact]
      simp only [← show s.before program (index + 1) = (s.before program index).recover index d e s₁ from hbefore]
      obtain ⟨hstate, hflags⟩ := ih (index + 1) ((d, false) :: done) hrest
      exact ⟨hstate, hflags.trans (by simp)⟩

/-- The rejected declarations are those of which something is reported. -/
theorem rejected_eq (s : Checker) (program : Program) :
    (s.checkProgram program).1.rejected = (List.range program.length).filter fun i =>
      (s.report? program i).isSome := by
  obtain ⟨-, hflags⟩ := checkDecls_eq (s := s) 0 [] program List.drop_zero
  rw [List.map_nil, List.reverse_nil, List.nil_append] at hflags
  have hrejected : (s.checkProgram program).1.rejected = rejectedFrom 0
      (finishAccepted [] (checkDecls 0 [] program (s.before program 0)).1
        ((checkDecls 0 [] program (s.before program 0)).2.after closeProgram).table).1 := rfl
  generalize ((checkDecls 0 [] program (s.before program 0)).2.after closeProgram).table = T at hrejected
  have hall := (flags_finishAccepted [] (checkDecls 0 [] program (s.before program 0)).1 T).trans hflags
  have hlength := congrArg List.length hall
  rw [List.length_map, List.length_map, List.length_range'] at hlength
  rw [hrejected, rejectedFrom_eq (p := fun i => (s.report? program i).isSome), hlength, List.range_eq_range']
  simpa only [hlength, Option.not_isSome] using hall

theorem declaration_report? {i : Nat} {r : Diagnostic} (h : s.report? program i = some r) :
    r.declaration = i := by
  obtain ⟨d, -, hd⟩ := Option.bind_eq_some_iff.mp h
  unfold reportOf? at hd
  split at hd
  · cases hd
  · cases hd
    rfl

/-- What is reported of a declaration is the error with which its check fails. -/
theorem report?_eq_some_iff {i : Nat} {r : Diagnostic} : s.report? program i = some r ↔
    ∃ d e s₁, program[i]? = some d ∧ checkTopLevel d (s.before program i) = .error e s₁ ∧
      r = ⟨e.error.message, e.span, i⟩ := by
  rw [report?, Option.bind_eq_some_iff]
  refine exists_congr fun d => ?_
  unfold reportOf?
  cases checkTopLevel d (s.before program i) with
  | ok d' s' => simp
  | error e s₁ => simp [eq_comm]

/-- **Checking a program is balanced, and reports each rejected declaration once.** Afterwards as much is open
as before, every declaration is checked at the same depth, whatever has been rejected before it, and the
reports that are added are one for each rejected position, in increasing order, with the error with which the
check of the declaration there fails. -/
theorem checkProgram_balanced (s : Checker) (program : Program) :
    (s.checkProgram program).2.nesting = s.nesting ∧
      (∀ i, (s.before program i).nesting = s.nesting.inProgram) ∧
      ∃ reports : List Diagnostic,
        (s.checkProgram program).2.diagnostics = s.diagnostics.append ⟨reports.toArray⟩ ∧
        reports.map Diagnostic.declaration = (s.checkProgram program).1.rejected ∧
        (s.checkProgram program).1.rejected.Pairwise (· < ·) ∧
        ∀ r, r ∈ reports ↔ ∃ d e s₁, program[r.declaration]? = some d ∧
          checkTopLevel d (s.before program r.declaration) = .error e s₁ ∧
            r = ⟨e.error.message, e.span, r.declaration⟩ := by
  have hchecked := (checkDecls_eq (s := s) 0 [] program List.drop_zero).1
  rw [Nat.zero_add] at hchecked
  obtain ⟨hnesting, hdiagnostics⟩ := nesting_before s program program.length
  obtain ⟨hclosed, hkept⟩ := nesting_closeProgram hnesting
  rw [← hchecked] at hclosed hkept hdiagnostics
  refine ⟨hclosed, fun i => (nesting_before s program i).1, s.reports program program.length,
    hkept.trans hdiagnostics, ?_, ?_, fun r => ?_⟩
  · rw [rejected_eq, reports, List.map_filterMap, ← List.filterMap_eq_filter]
    refine List.filterMap_congr fun i _ => ?_
    cases h : s.report? program i with
    | none => simp [Option.guard, h]
    | some r => simp [Option.guard, h, declaration_report? h]
  · rw [rejected_eq]
    exact List.pairwise_lt_range.filter _
  · rw [← report?_eq_some_iff, reports, List.mem_filterMap]
    constructor
    · rintro ⟨i, -, hi⟩
      rwa [declaration_report? hi]
    · intro h
      refine ⟨_, List.mem_range.mpr ?_, h⟩
      obtain ⟨d, -, -, hd, -⟩ := report?_eq_some_iff.mp h
      exact (List.getElem?_eq_some_iff.mp hd).1

end

end Checker

end Reified
