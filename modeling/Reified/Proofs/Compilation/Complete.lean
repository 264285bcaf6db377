import Mathlib
import Reified.Compilation
import Reified.Proofs.Lowering.Completes

/-!
# What is accepted is compiled

Code generation relies on what checking has found out: on the signatures of functions, and on jumps
standing in loops. Both are seen to in every declaration that is accepted, at whatever depth, so a
program whose diagnostics are tolerated is compiled unless one of its blocks needs too many registers.

## Main definitions

* `Stmt.nested`, `Decl.nested` — the functions declared in a tree, at any depth

## Main results

* `Compiler.compile_complete` — code generation fails only for want of registers
-/

namespace Reified

/-! ## Functions at any depth -/

mutual

/-- The functions declared in a statement, at any depth. -/
def Stmt.nested : Stmt → List (FnHead × List Decl)
  | .empty _ | .ret .. | .breakLoop _ | .continueLoop _ | .expr _ => []
  | .block body _ => Decl.nestedList body
  | .cond _ s none _ => s.nested
  | .cond _ s (some t) _ => s.nested ++ t.nested
  | .whileLoop _ body _ | .forLoop _ _ _ body _ => body.nested
  | .cases _ cs none _ => Stmt.nestedCases cs
  | .cases _ cs (some s) _ => Stmt.nestedCases cs ++ s.nested

/-- The functions declared in the cases of a match. -/
def Stmt.nestedCases : List (Pattern × Stmt) → List (FnHead × List Decl)
  | [] => []
  | (_, s) :: cs => s.nested ++ Stmt.nestedCases cs

/-- The functions declared in a declaration, at any depth. -/
def Decl.nested : Decl → List (FnHead × List Decl)
  | .letDecl _ => []
  | .fn head body => (head, body) :: Decl.nestedList body
  | .stmt s => s.nested

/-- The functions declared in a list of declarations. -/
def Decl.nestedList : List Decl → List (FnHead × List Decl)
  | [] => []
  | d :: ds => d.nested ++ Decl.nestedList ds

end

/-- The function has a signature, and so have the functions in its body, whose jumps stand in loops. -/
structure FnHead.Compiles (f : FnHead × List Decl) : Prop where
  head : f.1.Signed
  heads : Decl.HeadsList FnHead.Signed f.2
  jumps : Decl.EnclosedList false f.2

mutual

theorem Stmt.compiles_nested : (s : Stmt) → s.Heads FnHead.Signed → ∀ {inLoop : Bool},
    s.Enclosed inLoop → ∀ f ∈ s.nested, FnHead.Compiles f
  | .empty _, _, _, _, f, hf | .ret .., _, _, _, f, hf | .breakLoop _, _, _, _, f, hf
  | .continueLoop _, _, _, _, f, hf | .expr _, _, _, _, f, hf => by
    rw [Stmt.nested] at hf
    cases hf
  | .block body _, hs, _, he, f, hf => by
    rw [Stmt.nested] at hf
    exact Decl.compiles_nestedList body hs he f hf
  | .cond _ s none _, hs, _, he, f, hf => by
    rw [Stmt.nested] at hf
    exact Stmt.compiles_nested s hs he f hf
  | .cond _ s (some t) _, hs, _, he, f, hf => by
    rw [Stmt.nested] at hf
    exact (List.mem_append.mp hf).elim (Stmt.compiles_nested s hs.1 he.1 f)
      (Stmt.compiles_nested t hs.2 he.2 f)
  | .whileLoop _ body _, hs, _, he, f, hf => by
    rw [Stmt.nested] at hf
    exact Stmt.compiles_nested body hs he f hf
  | .forLoop _ _ _ body _, hs, _, he, f, hf => by
    rw [Stmt.nested] at hf
    exact Stmt.compiles_nested body hs he f hf
  | .cases _ cs none _, hs, _, he, f, hf => by
    rw [Stmt.nested] at hf
    exact Stmt.compiles_nestedCases cs hs he f hf
  | .cases _ cs (some s) _, hs, _, he, f, hf => by
    rw [Stmt.nested] at hf
    exact (List.mem_append.mp hf).elim (Stmt.compiles_nestedCases cs hs.1 he.1 f)
      (Stmt.compiles_nested s hs.2 he.2 f)

theorem Stmt.compiles_nestedCases : (cs : List (Pattern × Stmt)) → Stmt.HeadsCases FnHead.Signed cs →
    ∀ {inLoop : Bool}, Stmt.EnclosedCases inLoop cs → ∀ f ∈ Stmt.nestedCases cs, FnHead.Compiles f
  | [], _, _, _, f, hf => by
    rw [Stmt.nestedCases] at hf
    cases hf
  | (_, s) :: cs, hs, _, he, f, hf => by
    rw [Stmt.nestedCases] at hf
    exact (List.mem_append.mp hf).elim (Stmt.compiles_nested s hs.1 he.1 f)
      (Stmt.compiles_nestedCases cs hs.2 he.2 f)

theorem Decl.compiles_nested : (d : Decl) → d.Heads FnHead.Signed → ∀ {inLoop : Bool},
    d.Enclosed inLoop → ∀ f ∈ d.nested, FnHead.Compiles f
  | .letDecl _, _, _, _, f, hf => by
    rw [Decl.nested] at hf
    cases hf
  | .fn head body, hd, _, he, f, hf => by
    rw [Decl.nested] at hf
    rcases List.mem_cons.mp hf with rfl | hf
    · exact ⟨hd.1, hd.2, he⟩
    · exact Decl.compiles_nestedList body hd.2 he f hf
  | .stmt s, hd, _, he, f, hf => by
    rw [Decl.nested] at hf
    exact Stmt.compiles_nested s hd he f hf

/-- All functions of a tree can be compiled if heads and jumps are as they should be. -/
theorem Decl.compiles_nestedList : (ds : List Decl) → Decl.HeadsList FnHead.Signed ds →
    ∀ {inLoop : Bool}, Decl.EnclosedList inLoop ds → ∀ f ∈ Decl.nestedList ds, FnHead.Compiles f
  | [], _, _, _, f, hf => by
    rw [Decl.nestedList] at hf
    cases hf
  | d :: ds, hds, _, he, f, hf => by
    rw [Decl.nestedList] at hf
    exact (List.mem_append.mp hf).elim (Decl.compiles_nested d hds.1 he.1 f)
      (Decl.compiles_nestedList ds hds.2 he.2 f)

end

/-! ## Compilation -/

namespace Compiler

open Lower (CompleteOrExhausted functionBuilder)

/-- **What the checker accepts is compiled.** Whatever the program is, and whatever types its tree carries
already: when diagnostics are tolerated, compilation fails only because some block needs more registers
than there are. The code of the program is complete when its block is finished, and so is the code of
each function that is declared in an accepted declaration, at any depth: only instructions that can jump
wait for labels, and no label for which a jump waits is without a position. -/
theorem compile_complete (c : Compiler) (program : Program) (hdeny : c.options.denyErrors = false) :
    let checked := (Checker.initial.checkProgram program).1
    (∀ e, (c.compile program).1 = .error e → ∃ name, e = .lower (.registersExhausted name)) ∧
      CompleteOrExhausted (checked.program.builder c.options.checks checked.rejected) ∧
      ∀ f ∈ Decl.nestedList (checked.program.accepted checked.rejected),
        CompleteOrExhausted (functionBuilder c.options.checks f.1 f.2) := by
  intro checked
  have hsigned := Checker.signed_accepted Checker.initial program
  have henclosed := Checker.enclosed_accepted Checker.loopDepth_initial program
  have hprogram : CompleteOrExhausted (checked.program.builder c.options.checks checked.rejected) :=
    Program.builder_complete hsigned henclosed
  refine ⟨fun e he => ?_, hprogram, fun f hf => ?_⟩
  · have hlower := Program.lower_eq c.options.checks checked.rejected checked.program
    unfold compile at he
    simp only [hdeny, Bool.false_and, Bool.false_eq_true, if_false] at he
    rw [hlower] at he
    cases hbuilder : checked.program.builder c.options.checks checked.rejected with
    | ok b =>
      rw [hbuilder] at he
      cases he
    | error e' =>
      rw [hbuilder] at he hprogram
      obtain ⟨name, rfl⟩ := hprogram
      exact ⟨name, (Except.error.inj he).symm⟩
  · obtain ⟨hhead, hheads, hjumps⟩ := Decl.compiles_nestedList _ hsigned henclosed f hf
    exact Lower.functionBuilder_complete hhead fun _ r hloop =>
      Lower.completes_fnBody hheads hjumps r hloop

/-- A function with a loop that is left by a jump is compiled, and no jump waits for its target. -/
theorem compile_complete_breakingLoop :
    let f : FnHead := ⟨"f", default, [], [], none, default, default, none⟩
    let loop : Stmt := .whileLoop (.literal default (.bool true)) (.breakLoop default) default
    let program : Program := [.fn f [.stmt loop]]
    let checked := (Checker.initial.checkProgram program).1
    (Compiler.new {}).options.denyErrors = false ∧
      (Decl.nestedList (checked.program.accepted checked.rejected)).length = 1 ∧
      (∀ e, ((Compiler.new {}).compile program).1 = .error e →
        ∃ name, e = .lower (.registersExhausted name)) ∧
      CompleteOrExhausted (checked.program.builder true checked.rejected) ∧
      ∀ f ∈ Decl.nestedList (checked.program.accepted checked.rejected),
        CompleteOrExhausted (functionBuilder true f.1 f.2) := by
  intro f loop program checked
  have hone : (Decl.nestedList (checked.program.accepted checked.rejected)).length = 1 := by
    simp only [checked, program, loop, f]
    cbv
  exact ⟨rfl, hone, compile_complete (.new {}) program rfl⟩

end Compiler

end Reified
