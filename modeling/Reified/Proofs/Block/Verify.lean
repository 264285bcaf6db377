import Mathlib.Algebra.Group.Nat.Defs
import Reified.Block.Verify

/-!
# What verification says

A block passes if no instruction, in it or in a block nested in it, has a problem. What it means for
an instruction to have no problem is said for each kind of operand.

Verification looks at one instruction after the other, not at where the code ends. A block is
*closed* if its last instruction does not go on to the next one and the code of a call starts inside
the block; and its runs of registers are *short* if their ends are numbers of 32 bits. These two are
what a machine needs beyond verification.

## Main definitions

* `Block.Everywhere` — a property of a block and of all blocks nested in it
* `Block.Clean` — no instruction has a problem
* `Block.Closed`, `Block.Short` — what verification does not look at

## Main results

* `Block.verify_eq_ok_iff` — a block passes exactly if it is clean everywhere
* `Block.problem?_eq_none_iff` — an instruction is in order exactly if its parts are
-/

namespace Reified

/-- The instruction does not go on to the next one. -/
def Instr.Ends : Instr → Prop
  | .leave _ | .jump _ | .typeError _ | .runtimeError _ => True
  | _ => False

namespace Block

/-- The property holds of the block and of all blocks nested in it, at any depth. -/
inductive Everywhere (P : Block → Prop) : Block → Prop
  | intro {B : Block} (here : P B) (nested : ∀ f ∈ B.functions, Everywhere P f) : Everywhere P B

/-- No instruction of the block has a problem. -/
def Clean (B : Block) : Prop := ∀ i ∈ B.code, B.problem? i = none

/-- The code of a call starts inside the block, and the last instruction of the block does not go on
to the next one. -/
def Closed (B : Block) : Prop :=
  B.codeStart.toNat < B.code.size ∧ ∃ i, B.code.back? = some i ∧ i.Ends

/-- The end of every run of registers in the block is a number of 32 bits. -/
def Short (B : Block) : Prop :=
  ∀ i ∈ B.code, ∀ x ∈ i.ranges, x.1.index + x.2.toNat < 2 ^ 32

/-! ## Blocks and nested blocks -/

section

variable {B f : Block} {P Q : Block → Prop}

theorem Everywhere.here (h : B.Everywhere P) : P B := by
  cases h
  assumption

theorem Everywhere.nested (h : B.Everywhere P) (hf : f ∈ B.functions) : f.Everywhere P := by
  cases h with
  | intro _ nested => exact nested f hf

theorem Everywhere.mono (h : B.Everywhere P) (hPQ : ∀ B, P B → Q B) : B.Everywhere Q := by
  induction h with
  | intro here _ ih => exact ⟨hPQ _ here, ih⟩

theorem Everywhere.and (hP : B.Everywhere P) (hQ : B.Everywhere Q) :
    B.Everywhere fun B => P B ∧ Q B := by
  induction hP with
  | intro here _ ih => exact ⟨⟨here, hQ.here⟩, fun f hf => ih f hf (hQ.nested hf)⟩

end

theorem verifyCode_eq_ok_iff {B : Block} {n : Nat} {is : List Instr} :
    B.verifyCode n is = .ok () ↔ ∀ i ∈ is, B.problem? i = none := by
  induction is generalizing n with
  | nil => simp [verifyCode]
  | cons i is ih =>
    rw [verifyCode, List.forall_mem_cons]
    cases h : B.problem? i with
    | none => simp [ih]
    | some p => simp

mutual

/-- **Verification finds every problem.** A block passes exactly if no instruction, in it or in any
block nested in it, has a problem. -/
theorem verify_eq_ok_iff : (B : Block) → (B.verify = .ok () ↔ B.Everywhere Clean)
  | ⟨name, code, constants, identifiers, ⟨functions⟩, parameters, registers, start⟩ => by
    have hnested := verifyList_eq_ok_iff functions
    have hcode := @verifyCode_eq_ok_iff
      ⟨name, code, constants, identifiers, ⟨functions⟩, parameters, registers, start⟩ 0 code.toList
    rw [verify]
    constructor
    · intro h
      split at h
      next => cases h
      next hok =>
        refine ⟨fun i hi => hcode.mp hok i (Array.mem_toList_iff.mpr hi), fun f hf => ?_⟩
        exact hnested.mp h f (Array.mem_toList_iff.mpr hf)
    · intro h
      rw [hcode.mpr fun i hi => h.here i (Array.mem_toList_iff.mp hi)]
      exact hnested.mpr fun f hf => h.nested (Array.mem_toList_iff.mp hf)

theorem verifyList_eq_ok_iff :
    (Bs : List Block) → (verifyList Bs = .ok () ↔ ∀ B ∈ Bs, B.Everywhere Clean)
  | [] => by simp [verifyList]
  | B :: Bs => by
    have hhead := verify_eq_ok_iff B
    have htail := verifyList_eq_ok_iff Bs
    rw [verifyList, List.forall_mem_cons, ← hhead, ← htail]
    cases B.verify <;> simp

end

/-! ## Instructions without problems -/

variable {B : Block} {i : Instr}

theorem problem?_eq_none_iff :
    B.problem? i = none ↔
      (∀ x ∈ i.operands, B.operandProblem? x.kind x.value = none) ∧
        (∀ x ∈ i.ranges, B.rangeProblem? x.1 x.2 = none) ∧ B.messageProblem? i = none := by
  simp only [problem?, Option.orElse_eq_orElse, Option.orElse_eq_or, Option.or_eq_none_iff,
    List.findSome?_eq_none_iff]

attribute [local simp] operandProblem?

theorem operandProblem?_register {r : Register} :
    B.operandProblem? .register r = none ↔ r.index < B.registerCount.toNat := by
  simp

theorem operandProblem?_constant {j : UInt32} :
    B.operandProblem? .constant j = none ↔ j.toNat < B.constants.size := by
  simp

theorem operandProblem?_identifier {j : UInt32} :
    B.operandProblem? .identifier j = none ↔ j.toNat < B.identifiers.size := by
  simp

theorem operandProblem?_function {j : UInt32} :
    B.operandProblem? .function j = none ↔ j.toNat < B.functions.size := by
  simp

theorem operandProblem?_target {t : Int32} :
    B.operandProblem? .target t = none ↔ 0 ≤ t.toInt ∧ t.toInt < B.code.size := by
  simp

/-- A run of registers whose end is a number of 32 bits is in order exactly if it is empty or ends
inside the register file. -/
theorem rangeProblem?_eq_none_iff {first : Register} {count : UInt32}
    (h : first.index + count.toNat < 2 ^ 32) :
    B.rangeProblem? first count = none ↔
      0 < count.toNat → first.index + count.toNat ≤ B.registerCount.toNat := by
  have hstop : (first.number.toUInt32 + count).toNat = first.index + count.toNat := by
    rw [UInt32.toNat_add, UInt16.toNat_toUInt32]
    exact Nat.mod_eq_of_lt h
  simp only [rangeProblem?, Bool.and_eq_true, decide_eq_true_eq, UInt32.lt_iff_toNat_lt, hstop]
  have hzero : (0 : UInt32).toNat = 0 := rfl
  rw [hzero]
  split
  next hs => simp only [reduceCtorEq, false_iff]; omega
  next hs => simp only [true_iff]; omega

end Block

end Reified
