import Reified.Instr.Basic

/-!
# The text of an instruction

An instruction is listed as its mnemonic and its operands, separated by commas. Operands that refer
to something carry a mark that says to what.
-/

namespace Reified

/-- The text of a register. -/
def Register.text (r : Register) : String := "r" ++ toString r.index

/-- The text of an operand of the given kind. -/
def OperandKind.text : (k : OperandKind) → k.Carrier → String
  | .register, r => r.text
  | .constant, i => "c" ++ toString i.toNat
  | .identifier, i => "id" ++ toString i.toNat
  | .function, i => "fn" ++ toString i.toNat
  | .count, n => toString n.toNat
  | .target, t => "->" ++ toString t.toInt
  | .flag, b => if b then "true" else "false"
  | .tyClass, c => c.text
  | .cell, k => k.text

/-- The text of an operand. -/
def Operand.text (x : Operand) : String := x.kind.text x.value

/-- The text of an instruction. -/
def Instr.text (i : Instr) : String :=
  match i.operands with
  | [] => i.opcode.mnemonic
  | x :: xs => i.opcode.mnemonic ++ " " ++ ", ".intercalate ((x :: xs).map Operand.text)

end Reified
