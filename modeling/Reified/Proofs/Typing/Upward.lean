import Reified.Proofs.Typing.Expected
import Reified.Proofs.Typing.Outcomes

/-!
# From a place to the end of the program

What the check of a program keeps holds from the place on where it has begun to hold: at the end of the check of
the declaration around the place, after the declarations that follow, whether they are accepted or not, and when
the program is closed. In particular, the last table knows whatever the table at a place knows.

## Main definitions

* `Checker.Lasting` — a predicate of checkers that the check of a program keeps

## Main results

* `Checker.Visits.ends` — from a place in a declaration to the end of the check of this
* `Checker.Lasting.beforeFinish` — from the beginning of a declaration to the end of the program
* `Checker.Comes.grows` — what is known at a place is known in the end
-/

namespace Reified

namespace Checker

open Check (Subject Focus Leads Maintains EndsIn From Contains)

variable {keep : Checker → Prop} {good : Ty → Prop} {s s₀ s₁ s₂ : Checker} {d : Decl} {P : Subject}

/-! ## In a declaration -/

/-- The signature of a function that is about to be checked is made up of variables that there are when the check
gets to the body. -/
theorem Idle.below_signature {head : FnHead} {body : List Decl} {t : Ty} {a : Ty × Ty × Nat} {s₃ : Checker}
    (hs : s.Idle) (hpush : Check.pushFrame s = .ok () s₁)
    (henter : Check.enterFunction head s₁ = .ok a s₂) (hact : Check.openBody head body s = .ok t s₃) :
    ∀ w ∈ a.1.vars, w.id < s₃.table.size := by
  obtain ⟨signature, result, loopDepth⟩ := a
  unfold Check.openBody at hact
  rw [Check.bind_of_ok hpush, Check.bind_of_ok henter] at hact
  cases hpush
  obtain ⟨B, hreserves, hsignature, hresult, -⟩ := hs.held.inFrame.enterFunction henter
  have hblock : Contains B (Position.base.inScope.inBody result) (Position.base.inScope.inBody result).inScope
      (B.Live · result) (fun r T => B.Live T r) (Check.openBlock result body head.bodySpan) :=
    contains_openBlock body head.bodySpan fun _ h => h
  have hcontained := hblock s₂ hreserves.held fun T hT => hT.live _ le_rfl _ hresult
  dsimp only at hact
  rw [hact] at hcontained
  exact fun w hw => (hsignature.below w hw).trans_le hcontained.2.1.size

variable [Check.Policy]

/-- **What holds at the end of the check of a place holds at the end of the check of the declaration**, if the rest
of this keeps it. Types made up of the variables that there are at the place are taken to be good. -/
theorem Visits.ends (hkeep : Maintains keep good (Visits d s₀)) (hs₀ : s₀.Idle) (h : Visits d s₀ P s)
    (hgood : ∀ {t : Ty}, (∀ w ∈ t.vars, w.id < s.table.size) → good t) (hin : P.Ends keep s) :
    EndsIn keep (checkTopLevel d s₀) := by
  induction h with
  | start hfresh =>
    unfold checkTopLevel
    rw [Check.bind_of_ok hfresh]
    exact hin
  | @step P act inside t s s' hvisits hleads hact ih =>
    have hsound := hvisits.sound hs₀
    have hsize := (hsound.step hleads hact).2
    have hearlier : ∀ {t : Ty}, (∀ w ∈ t.vars, w.id < s.table.size) → good t := fun ht =>
      hgood fun w hw => (ht w hw).trans_le hsize
    refine ih hearlier (hleads.ends hkeep hvisits (fun t ht => hearlier (hsound.live t ht).below) ?_ hact hin)
    rintro u head body s₁ s₂ a rfl hpush henter
    cases hleads
    exact hgood (hsound.idle.below_signature hpush henter hact)

/-! ## In a program -/

variable {program : Program} {index : Nat} {ds : List Decl}

/-- A predicate of checkers that is kept by the check of the declarations of a program, by what is done about a
rejected one, and when the program is closed. -/
structure Lasting (keep : Checker → Prop) (s : Checker) (program : Program) : Prop where
  checks : ∀ {index d ds} {s₁ : Checker}, Begins s program index (d :: ds) s₁ → keep s₁ → EndsIn keep (checkTopLevel d s₁)
  recovers : ∀ {s₁ s₂ : Checker} index d e, keep s₂ → keep (s₁.recover index d e s₂)
  closes : ∀ {s₁ : Checker}, keep s₁ → keep (s₁.after closeProgram)

/-- The check of the program goes on from where it has come to. -/
theorem Begins.checkDecls_eq (h : Begins s program index ds s₁) : ∃ done,
    checkDecls 0 [] program (s.after (openProgram program)) = checkDecls index done ds s₁ := by
  induction h with
  | first => exact ⟨[], rfl⟩
  | @accepted index d d' ds s₁ s₂ _ hok ih =>
    obtain ⟨done, ih⟩ := ih
    refine ⟨(d', true) :: done, ih.trans ?_⟩
    rw [checkDecls, hok]
  | @rejected index d ds e s₁ s₂ _ hfail ih =>
    obtain ⟨done, ih⟩ := ih
    exact ⟨(d, false) :: done, ih.trans (checkDecls_rejected hfail index done ds)⟩

namespace Lasting

variable (hkeep : Lasting keep s program)

include hkeep

theorem checkDecls {done : List (Decl × Bool)} (h : Begins s program index ds s₁) (hs₁ : keep s₁) :
    keep (Checker.checkDecls index done ds s₁).2 := by
  induction ds generalizing index done s₁ with
  | nil => exact hs₁
  | cons d ds ih =>
    have hchecked := hkeep.checks h hs₁
    cases hact : checkTopLevel d s₁ with
    | ok d' s₂ =>
      rw [hact] at hchecked
      rw [Checker.checkDecls, hact]
      exact ih (h.accepted hact) hchecked.1
    | error e s₂ =>
      rw [hact] at hchecked
      rw [checkDecls_rejected hact]
      exact ih (h.rejected hact) (hkeep.recovers index d e hchecked)

/-- **What holds at the end of the check of a declaration holds at the end of the program**, if the rest keeps it. -/
theorem beforeFinish (h : Begins s program index (d :: ds) s₁) (hend : EndsIn keep (checkTopLevel d s₁)) :
    keep (s.beforeFinish program) := by
  obtain ⟨done, heq⟩ := h.checkDecls_eq
  refine hkeep.closes (heq ▸ ?_)
  cases hact : checkTopLevel d s₁ with
  | ok d' s₂ =>
    rw [hact] at hend
    rw [Checker.checkDecls, hact]
    exact hkeep.checkDecls (h.accepted hact) hend.1
  | error e s₂ =>
    rw [hact] at hend
    rw [checkDecls_rejected hact]
    exact hkeep.checkDecls (h.rejected hact) (hkeep.recovers index d e hend)

end Lasting

/-! ## What the table knows -/

section grows

variable {T : Table} {Q : Focus}

theorem maintains_grows : Maintains (From T) (fun _ => True) (Visits d s₀) where
  void := trivial
  popScope := Check.learns_popScope.grows
  popFrame := Check.learns_popFrame.grows
  leaveBody n := (Check.learns_leaveBody n).grows
  setLoopDepth g := (Check.learns_setLoopDepth g).grows
  unify span _ _ := (Check.learns_unify _ _ span).grows
  resolveDeep _ := (Check.learns_resolveDeep _).grows
  bindValue name _ := (Check.learns_bindValue name _).grows
  leads hvisits hleads hact := .step hvisits hleads hact
  part {P s} _ _ hs := by
    cases P with
    | stmt t st => exact (Check.grows_stmt t st).ends hs
    | cases t u cs => exact fun done => (Check.learns_matchCases cs False.elim).grows.ends hs
    | decls t ds => exact fun done => (Check.learns_decls ds False.elim).grows.ends hs
    | decl t d => exact (Check.learns_decl d).grows.ends hs

theorem lasting_grows : Lasting (From T) s program where
  checks _ hs := (learns_checkTopLevel _).grows.ends hs
  recovers {s₁ s₂} index d e hs := by
    have hunwind : s₂.table.Grows ((s₂.report index e).unwind s₁.scope.depth s₁.frames.depth s₁.returns.length
        s₁.loopDepth).table := grows_closeFrames _ _ _ hs.tame
    exact (hs.trans hunwind).trans (grows_after hunwind.tame (learns_bindRejected d))
  closes hs := hs.trans (grows_after hs.tame
    (Check.learns_popScope.bind fun _ => Check.learns_popFrame))

theorem Comes.ends (hs : s.Idle) (h : Comes s program Q s₂) (hQ : Q.Ends (From T) s₂) :
    T.Grows (s.beforeFinish program).table := by
  induction h with
  | opens hbegins hvisits hopens =>
    exact lasting_grows.beforeFinish hbegins
      (hvisits.ends maintains_grows (hbegins.idle hs) (fun _ => trivial) (hopens.ends hQ))
  | enters _ henters ih => exact ih (henters.ends hQ)

/-- **What is known at a place is known in the end.** -/
theorem Comes.grows (hs : s.Idle) (h : Comes s program Q s₂) :
    s₂.table.Grows (s.beforeFinish program).table := by
  have hhere : From s₂.table s₂ := .refl (h.ready hs).idle.held.placed.tame
  refine h.ends hs ?_
  cases Q with
  | expr x e => exact Check.grows_typing.ends hhere
  | list ts es => exact fun found done => Check.grows_typingList.ends hhere
  | fields ts fs => exact fun found done => Check.grows_typingFields.ends hhere

end grows

end Checker

end Reified
