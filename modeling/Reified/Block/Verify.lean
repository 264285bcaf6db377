import Reified.Block.Basic

/-!
# Verified blocks

A block is verified by looking at each instruction on its own: every register and every run of
registers has to be inside the register file, every position inside its pool, every jump target
inside the code, and every message has to be a string constant. Nested blocks are verified after the
instructions of the block itself.

## Main definitions

* `Problem`, `VerifyError` — what is wrong, and where
* `Block.verify` — the first thing that is wrong
-/

namespace Reified

/-- What can be wrong with an instruction. -/
inductive Problem where
  | register (r : Register) (registerCount : UInt32)
  | constant (i : UInt32)
  | identifier (i : UInt32)
  | function (i : UInt32)
  | target (t : Int32)
  /-- A run of registers ends, before the register `stop`, outside the register file. -/
  | range (first : Register) (stop : UInt32)
  | messageNotString
  deriving DecidableEq

/-- The wording of a problem. -/
def Problem.message : Problem → String
  | .register r n => "register " ++ r.text ++ " outside register file of " ++ toString n.toNat
  | .constant i => "constant c" ++ toString i.toNat ++ " out of range"
  | .identifier i => "identifier id" ++ toString i.toNat ++ " out of range"
  | .function i => "function fn" ++ toString i.toNat ++ " out of range"
  | .target t => "jump target " ++ toString t.toInt ++ " out of range"
  | .range first stop =>
    "register range " ++ first.text ++ "..r" ++ toString stop.toNat ++ " outside register file"
  | .messageNotString => "message operand is not a string constant"

/-- A problem and its place. -/
structure VerifyError where
  block : String
  offset : Nat
  instr : Instr
  problem : Problem
  deriving DecidableEq

/-- The wording of a verification error. -/
def VerifyError.message (e : VerifyError) : String :=
  "`" ++ e.block ++ "` instruction " ++ toString e.offset ++ " (" ++ e.instr.text ++ "): " ++
    e.problem.message

namespace Block

/-- What is wrong with an operand. -/
def operandProblem? (B : Block) : (k : OperandKind) → k.Carrier → Option Problem
  | .register, r =>
    if r.index < B.registerCount.toNat then none else some (.register r B.registerCount)
  | .constant, i => if i.toNat < B.constants.size then none else some (.constant i)
  | .identifier, i => if i.toNat < B.identifiers.size then none else some (.identifier i)
  | .function, i => if i.toNat < B.functions.size then none else some (.function i)
  | .target, t =>
    if 0 ≤ t.toInt ∧ t.toInt < B.code.size then none else some (.target t)
  | .count, _ | .flag, _ | .tyClass, _ | .cell, _ => none

/-- What is wrong with a run of registers. An empty run is always in order. -/
def rangeProblem? (B : Block) (first : Register) (count : UInt32) : Option Problem :=
  let stop := first.number.toUInt32 + count
  if 0 < count && B.registerCount < stop then some (.range first stop) else none

/-- What is wrong with the message of a failing instruction. -/
def messageProblem? (B : Block) : Instr → Option Problem
  | .typeError message | .runtimeError message =>
    match B.constant? message with
    | some (.string _) => none
    | _ => some .messageNotString
  | _ => none

/-- The first thing that is wrong with an instruction: with an operand, else with a run of
registers, else with its message. -/
def problem? (B : Block) (i : Instr) : Option Problem :=
  (i.operands.findSome? fun x => B.operandProblem? x.kind x.value) <|>
    (i.ranges.findSome? fun r => B.rangeProblem? r.1 r.2) <|>
    B.messageProblem? i

/-- The first thing that is wrong with the instructions from `offset` on. -/
def verifyCode (B : Block) (offset : Nat) : List Instr → Except VerifyError Unit
  | [] => .ok ()
  | i :: is =>
    match B.problem? i with
    | some p => .error ⟨B.name, offset, i, p⟩
    | none => verifyCode B (offset + 1) is

mutual

/-- The first thing that is wrong with a block or, after it, with its nested blocks. -/
def verify : Block → Except VerifyError Unit
  | ⟨name, code, constants, identifiers, ⟨functions⟩, parameters, registers, start⟩ =>
    let B : Block :=
      ⟨name, code, constants, identifiers, ⟨functions⟩, parameters, registers, start⟩
    match B.verifyCode 0 code.toList with
    | .error e => .error e
    | .ok () => verifyList functions

/-- The first thing that is wrong with a list of blocks. -/
def verifyList : List Block → Except VerifyError Unit
  | [] => .ok ()
  | B :: Bs =>
    match B.verify with
    | .error e => .error e
    | .ok () => verifyList Bs

end

end Block

end Reified
