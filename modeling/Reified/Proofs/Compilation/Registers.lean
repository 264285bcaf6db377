import Reified.Proofs.Lowering.Registers
import Reified.Proofs.Machine.Inside

/-!
# Registers of compiled programs

A program that is compiled is one whose blocks make do with the registers that there are. Calls enter
the block of a function with as many arguments as it has parameters, and the arguments are found in the
first registers, one each.

## Main definitions

* `Block.Receives` — register `i` holds argument `i` when a call starts

## Main results

* `Exec.call_receives` — what a call of a function leaves in the registers
* `Compiler.registers_exact` — register numbers of compiled programs never wrap
-/

namespace Reified

/-- A call of a function with the block starts where the code of calls starts, with exactly as many
arguments as the block has parameters. Register `i` holds argument `i`. -/
def Block.Receives (B : Block) : Prop :=
  ∀ ⦃dst callee first : Register⦄ ⦃argc : UInt32⦄ ⦃r r' : Run⦄ ⦃c : Nat⦄,
    r.top.registers[callee.index]? = some (.function c) → (r.machine.heap.closure c).block = B →
    Exec.call dst callee argc first r = .ok () r' →
    ∃ given all r₁, Exec.readRange first argc r = .ok given r ∧
      Exec.completeArgs (r.machine.heap.closure c) given r = .ok all r₁ ∧
      all.size = B.parameterCount.toNat ∧ r'.top.block = B ∧ r'.top.position = B.codeStart.toNat ∧
      ∀ i (hi : i < all.size), r'.top.registers[(Register.ofNat i).index]? = some all[i]

namespace Exec

theorem eq_of_read {register : Register} {v : Value} {r r' : Run} (h : read register r = .ok v r') :
    r.top.registers[register.index]? = some v ∧ r' = r := by
  simp only [read] at h
  split at h
  next hv =>
    cases h
    exact ⟨hv, rfl⟩
  next => cases h

theorem eq_of_readFrom {first : Register} {count : Nat} {done vs : Array Value} {r r' : Run}
    (h : readFrom first done count r = .ok vs r') : r' = r := by
  induction count generalizing done r with
  | zero =>
    cases h
    rfl
  | succ n ih =>
    obtain ⟨v, r₁, hread, hrest⟩ := bind_eq_ok h
    obtain ⟨-, rfl⟩ := eq_of_read hread
    exact ih hrest

theorem inFrame_eq_ok {α : Type} {act : Exec α} {r r' : Run} {a : α} (h : inFrame act r = .ok a r') :
    ∃ r₁ r₂, act r₁ = .ok a r₂ := by
  unfold inFrame at h
  split at h
  next a' r₂ hact =>
    obtain ⟨_, r₁, -, hact⟩ := bind_eq_ok hact
    split at h
    next =>
      cases h
      exact ⟨r₁, r₂, hact⟩
    next => cases h
  next => split at h <;> cases h

/-- **A function is entered with as many arguments as it has parameters.** -/
theorem size_completeArgs {c : Closure} {args all : Array Value} {r r' : Run}
    (h : completeArgs c args r = .ok all r') : all.size = c.block.parameterCount.toNat := by
  rw [completeArgs] at h
  split at h
  next heq =>
    cases h
    exact heq
  next =>
    obtain ⟨t, r₁, -, h⟩ := bind_eq_ok h
    extract_lets implicit given rest at h
    split at h
    next =>
      obtain ⟨_, _, hthrow, -⟩ := bind_eq_ok h
      cases hthrow
    next hcount =>
      obtain ⟨found, r₂, hfound, h⟩ := bind_eq_ok h
      cases h
      obtain ⟨_, _, hfound⟩ := inFrame_eq_ok hfound
      have hle := length_inferImplicit hfound
      simp only [Bool.or_eq_true, decide_eq_true_eq, not_or, not_not] at hcount
      simp only [given, Array.size_append, List.size_toArray, List.length_map, Array.size_extract,
        Array.size_replicate]
      omega

/-- **What a call of a function leaves in the registers**, if their numbers fit sixteen bits. -/
theorem call_receives {B : Block} (hcount : B.parameterCount.toNat ≤ 65535) : B.Receives := by
  intro dst callee first argc r r' c hcallee hB h
  obtain ⟨v, r₁, hread, hrest⟩ := bind_eq_ok h
  obtain ⟨hv, rfl⟩ := eq_of_read hread
  obtain rfl : v = .function c := Option.some.inj (hv.symm.trans hcallee)
  obtain ⟨given, r₂, hgiven, hrest'⟩ := bind_eq_ok hrest
  obtain rfl : r₂ = r₁ := eq_of_readFrom hgiven
  obtain ⟨_, _, hheap, h⟩ := bind_eq_ok hrest'
  cases hheap
  obtain ⟨all, r₃, hcomplete, h⟩ := bind_eq_ok h
  obtain ⟨e, r₄, henvironment, h⟩ := bind_eq_ok h
  cases henvironment
  cases h
  have hsize : all.size = B.parameterCount.toNat := hB ▸ size_completeArgs hcomplete
  refine ⟨given, all, r₃, hgiven, hcomplete, hsize, hB, congrArg (·.codeStart.toNat) hB, fun i hi => ?_⟩
  simp only [Activation.enter]
  rw [Register.index_ofNat (by omega), Array.getElem?_append_left hi]
  exact Array.getElem?_eq_getElem hi

end Exec

/-! ## Compilation -/

namespace Compiler

/-- A program is denied, or its accepted declarations are compiled. -/
theorem compile_cases (c : Compiler) (program : Program) :
    (c.compile program).1 = .error .denied ∨ (c.compile program).1 =
      match (Checker.initial.checkProgram program).1.program.lower c.options.checks
          (Checker.initial.checkProgram program).1.rejected with
        | .ok block => .ok ⟨(Checker.initial.checkProgram program).1, block⟩
        | .error e => .error (.lower e) := by
  unfold compile
  dsimp only
  split
  · exact .inl rfl
  · refine .inr ?_
    generalize Program.lower _ _ _ = result
    cases result <;> rfl

/-- **Register numbers never wrap.** All declared functions have signatures with their number of parameters.
If a program is compiled, the registers of its block, and of all blocks nested in it, are what they should be:
the conversions of the number of parameters and of their positions lose nothing, the requests for registers
that the code of the block has made are all granted and follow the discipline of a stack, and what is handed
out is neither a parameter nor in use. In a call register `i` holds argument `i` when the code of the call
starts. If a program is not compiled though its diagnostics are tolerated, the code of one of its blocks asks
for registers that there are not; and no program with such code is compiled. -/
theorem registers_exact (c : Compiler) (program : Program) :
    let checked := (Checker.initial.checkProgram program).1
    let accepted := checked.program.accepted checked.rejected
    (∀ f ∈ Decl.nestedList accepted, f.1.Signed) ∧
      (∀ compilation, (c.compile program).1 = .ok compilation →
        compilation.block.Everywhere fun B =>
          Program.Allocated c.options.checks accepted B ∧ B.Receives) ∧
      (∀ e, (c.compile program).1 = .error e → e = .denied ∨
        ∃ name, e = .lower (.registersExhausted name) ∧ Program.Exhausts c.options.checks accepted name) ∧
      ∀ name, Program.Exhausts c.options.checks accepted name → ∃ e, (c.compile program).1 = .error e := by
  intro checked accepted
  have hsigned := Checker.signed_accepted Checker.initial program
  have henclosed := Checker.enclosed_accepted Checker.loopDepth_initial program
  have hcompile : (c.compile program).1 = .error .denied ∨ (c.compile program).1 =
      match checked.program.lower c.options.checks checked.rejected with
        | .ok block => .ok ⟨checked, block⟩
        | .error e => .error (.lower e) := compile_cases c program
  refine ⟨fun f hf => (Decl.compiles_nestedList _ hsigned henclosed f hf).head, fun compilation h => ?_,
    fun e h => ?_, fun name hname => ?_⟩
  · rcases hcompile with hdenied | hlowered
    · cases hdenied.symm.trans h
    · rw [hlowered] at h
      split at h
      next block hblock =>
        cases h
        refine (Program.allocated hblock).mono fun B hB => ⟨hB, Exec.call_receives ?_⟩
        obtain ⟨_, _, _, _, -, hB⟩ := hB
        rw [hB.parameterCount]
        exact hB.parameters_le.trans hB.registers_le
      next => cases h
  · rcases hcompile with hdenied | hlowered
    · exact .inl (Except.error.inj (h.symm.trans hdenied))
    · rw [hlowered] at h
      have hcomplete : Lower.CompleteOrExhausted
          (checked.program.builder c.options.checks checked.rejected) :=
        Program.builder_complete hsigned henclosed
      split at h
      next => cases h
      next e' hlower =>
        cases h
        have hbuilder := Program.lower_eq c.options.checks checked.rejected checked.program
        rw [hlower] at hbuilder
        cases hb : checked.program.builder c.options.checks checked.rejected with
        | ok b =>
          rw [hb] at hbuilder
          cases hbuilder
        | error e'' =>
          rw [hb] at hbuilder
          cases hbuilder
          rw [hb] at hcomplete
          obtain ⟨name, rfl⟩ := hcomplete
          exact .inr ⟨name, rfl, Program.exhausted hlower⟩
  · rcases hcompile with hdenied | hlowered
    · exact ⟨_, hdenied⟩
    · rw [hlowered]
      split
      next hblock => exact absurd hblock (Program.lower_ne_ok hname)
      next => exact ⟨_, rfl⟩

/-- A function with a parameter is compiled, and its registers are what they should be. -/
theorem registers_exact_identity :
    let f : FnHead := ⟨"f", default, [], [⟨"x", none, false, default⟩], none, default, default, none⟩
    let program : Program := [.fn f [.stmt (.ret (some (.ident default "x")) default)]]
    let checked := (Checker.initial.checkProgram program).1
    let accepted := checked.program.accepted checked.rejected
    ∃ compilation, ((Compiler.new {}).compile program).1 = .ok compilation ∧
      compilation.block.functions.toList.map (·.parameterCount) = [1] ∧
      compilation.block.Everywhere fun B => Program.Allocated true accepted B ∧ B.Receives := by
  intro f program checked accepted
  have hlooks : (match ((Compiler.new {}).compile program).1 with
    | .ok compilation => compilation.block.functions.toList.map (·.parameterCount)
    | .error _ => []) = [1] := by
    simp only [program, f]
    cbv
  cases h : ((Compiler.new {}).compile program).1 with
  | ok compilation =>
    rw [h] at hlooks
    exact ⟨compilation, rfl, hlooks, (registers_exact (.new {}) program).2.1 compilation h⟩
  | error e =>
    rw [h] at hlooks
    cases hlooks

end Compiler

end Reified
