import Mathlib
import Reified.Compilation
import Reified.Proofs.Typing.Actions

/-!
# Compiling one program after the other

A compiler checks every program with a checker of its own and keeps nothing of it but the diagnostics.
They are asked for in one place only: when errors are denied, a program is refused if there are any. But
there they are all those that the compiler has collected, so that a program without errors is refused as
well once an earlier one had some.

## Main definitions

* `Compiler.compileAll` — compile programs in turn

## Main results

* `Compiler.compile_eq` — what a compiler with diagnostics does, by what a new one does
* `Compiler.compileAll_spec` — so it is for programs in turn
* `Compiler.compileAll_deniesLater` — a program that is refused for the errors of another one
-/

namespace Reified

namespace Compiler

/-- Compile programs in turn, and list the answers. -/
def compileAll (c : Compiler) : List Program → List (Except CompileError Compilation) × Compiler
  | [] => ([], c)
  | p :: ps =>
    let (answer, c) := c.compile p
    let (answers, c) := c.compileAll ps
    (answer :: answers, c)

/-- The program has errors. -/
def findsErrors (o : Options) (p : Program) : Bool := !((new o).compile p).2.diagnostics.isEmpty

theorem isEmpty_append (D E : Diagnostics) : (D.append E).isEmpty = (D.isEmpty && E.isEmpty) := by
  rw [Bool.eq_iff_iff]
  simp [Diagnostics.append, Diagnostics.isEmpty]

theorem empty_append (D : Diagnostics) : Diagnostics.empty.append D = D := by
  simp [Diagnostics.append, Diagnostics.empty]

/-- **What a compiler has collected matters only if errors are denied.** Otherwise it answers what a
new compiler with the same options answers; in any case it adds what that one finds. -/
theorem compile_eq (c : Compiler) (p : Program) :
    c.compile p =
      (if c.options.denyErrors && !c.diagnostics.isEmpty then .error .denied
        else ((new c.options).compile p).1,
       ⟨c.options, c.diagnostics.append ((new c.options).compile p).2.diagnostics⟩) := by
  obtain ⟨o, D⟩ := c
  unfold compile new
  generalize Checker.initial.checkProgram p = checked
  obtain ⟨checked, s⟩ := checked
  dsimp only
  rw [empty_append]
  -- the answer and the diagnostics, by whether errors are denied and where there are some
  cases hdeny : o.denyErrors <;> cases hD : D.isEmpty <;> cases hs : s.diagnostics.isEmpty <;>
    cases checked.program.lower o.checks checked.rejected <;> simp [isEmpty_append, hD, hs]

/-- Compiling in turn, from any diagnostics on. -/
theorem compileAll_eq (o : Options) (D : Diagnostics) (ps : List Program) :
    ((⟨o, D⟩ : Compiler).compileAll ps).2.diagnostics.entries.toList =
        D.entries.toList ++
          ps.flatMap (fun p => ((new o).compile p).2.diagnostics.entries.toList) ∧
      ∀ k : Nat, ((⟨o, D⟩ : Compiler).compileAll ps).1[k]? = ps[k]?.map fun p =>
        if o.denyErrors && (!D.isEmpty || (ps.take k).any (findsErrors o)) then .error .denied
        else ((new o).compile p).1 := by
  induction ps generalizing D with
  | nil => simp [compileAll]
  | cons p ps ih =>
    rw [compileAll, compile_eq]
    obtain ⟨hdiagnostics, hanswers⟩ := ih (D.append ((new o).compile p).2.diagnostics)
    refine ⟨?_, fun k => ?_⟩
    · rw [hdiagnostics]
      simp [Diagnostics.append]
    · cases k with
      | zero => simp
      | succ k =>
        rw [List.getElem?_cons_succ, hanswers, List.getElem?_cons_succ, isEmpty_append]
        simp [findsErrors, Bool.or_assoc]

/-- **A compiler treats each program on its own, as long as no errors are denied.** Compiling programs
in turn, the answer for each is that of a new compiler which is given only this program, unless errors
are denied and an earlier program has some: then the program is refused. The diagnostics are those of the
programs, each compiled alone, in order. -/
theorem compileAll_spec (o : Options) (ps : List Program) :
    ((new o).compileAll ps).2.diagnostics.entries.toList =
        ps.flatMap (fun p => ((new o).compile p).2.diagnostics.entries.toList) ∧
      ∀ k : Nat, ((new o).compileAll ps).1[k]? = ps[k]?.map fun p =>
        if o.denyErrors && (ps.take k).any (findsErrors o) then .error .denied
        else ((new o).compile p).1 := by
  obtain ⟨hdiagnostics, hanswers⟩ := compileAll_eq o .empty ps
  exact ⟨hdiagnostics, hanswers⟩

theorem diagnostics_compile (o : Options) (p : Program) :
    ((new o).compile p).2.diagnostics = (Checker.initial.checkProgram p).2.diagnostics := by
  unfold compile new
  generalize Checker.initial.checkProgram p = checked
  obtain ⟨checked, s⟩ := checked
  dsimp only
  rw [empty_append]
  cases (o.denyErrors && !s.diagnostics.isEmpty) <;>
    cases checked.program.lower o.checks checked.rejected <;> rfl

/-- A program whose only statement is rejected has errors. -/
theorem findsErrors_of_rejected (o : Options) {t : Stmt} {e : CheckError} {s : Checker}
    (h : Checker.checkTopLevel (.stmt t)
      (Checker.initial.after (Checker.openProgram [.stmt t])) = .error e s) :
    findsErrors o [.stmt t] = true := by
  have hreject : (Checker.initial.checkProgram [.stmt t]).2.diagnostics =
      s.diagnostics.reject 0 e.error.message e.span := by
    rw [Checker.checkProgram, Checker.checkDecls, h]
    rfl
  rw [findsErrors, diagnostics_compile, hreject]
  simp [Diagnostics.reject, Diagnostics.isEmpty]

/-- A program that consists of a truth value is refused, since the one before it mentions an unknown
variable. -/
theorem compileAll_deniesLater :
    let o : Options := ⟨true, true⟩
    let wrong : Program := [.stmt (.expr (.ident default "x"))]
    let right : Program := [.stmt (.expr (.literal default (.bool true)))]
    ((new o).compileAll [wrong, right]).1[1]? ≠ some ((new o).compile right).1 := by
  intro o wrong right h
  have hwrong : findsErrors o wrong = true := by
    have hrejected : (Checker.checkTopLevel (.stmt (.expr (.ident default "x")))).succeeds
        (Checker.initial.after (Checker.openProgram wrong)) = false := by cbv
    obtain ⟨e, s, hrejected⟩ := Check.exists_error_of_not_succeeds hrejected
    exact findsErrors_of_rejected o hrejected
  have hright : ((new o).compile right).1.isOk = true := by cbv
  have hturn := (compileAll_eq o .empty [wrong, right]).2 1
  rw [← Option.some.inj (hturn.symm.trans h)] at hright
  simp [hwrong, o, Except.isOk, Except.toBool] at hright

end Compiler

end Reified
