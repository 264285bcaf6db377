import Reified.Instr.Codec
import Reified.Number.Text
import Reified.Text.Quoted

/-!
# Blocks

A block is the unit of code: the body of a program or of one function, together with the constants,
identifiers and nested blocks that its instructions refer to by position.

The block of a function starts with a section that evaluates the type of the function; the code that
a call runs starts later, at `codeStart`.

Constants and identifiers are kept once each. Whether two constants are the same one is decided by
their data, so zero and negative zero are two constants, and a number that is not a number is found
again.

## Main definitions

* `Constant`, `Block`
* `Block.emit`, `Block.addConstant`, `Block.addIdentifier`, `Block.addFunction`
* `Block.encode`
-/

namespace Reified

/-- The constants that code can load. -/
inductive Constant where
  | unit
  | bool (b : Bool)
  | number (x : Number)
  | string (s : String)
  deriving DecidableEq, Inhabited

/-- The text of a truth value. -/
def boolText (b : Bool) : String := if b then "true" else "false"

/-- The text of a constant in listings. -/
def Constant.text : Constant → String
  | .unit => "()"
  | .bool b => boolText b
  | .number x => x.text
  | .string s => Text.quote s

/-- A unit of code. -/
structure Block where
  name : String
  code : Array Instr
  constants : Array Constant
  identifiers : Array String
  functions : Array Block
  parameterCount : UInt32
  registerCount : UInt32
  codeStart : UInt32
  deriving Inhabited

namespace Block

/-- A block without code, whose registers are its parameters. -/
def new (name : String) (parameterCount : UInt32) : Block :=
  ⟨name, #[], #[], #[], #[], parameterCount, parameterCount, 0⟩

/-- Add an instruction at the end; the answer is its position. -/
def emit (B : Block) (i : Instr) : Nat × Block :=
  (B.code.size, { B with code := B.code.push i })

/-- The position of a constant, which is added at the end unless it is there. -/
def addConstant (B : Block) (c : Constant) : UInt32 × Block :=
  match B.constants.idxOf? c with
  | some i => (.ofNat i, B)
  | none => (.ofNat B.constants.size, { B with constants := B.constants.push c })

/-- The position of an identifier, which is added at the end unless it is there. -/
def addIdentifier (B : Block) (name : String) : UInt32 × Block :=
  match B.identifiers.idxOf? name with
  | some i => (.ofNat i, B)
  | none => (.ofNat B.identifiers.size, { B with identifiers := B.identifiers.push name })

/-- The position of a nested block, added at the end. -/
def addFunction (B : Block) (f : Block) : UInt32 × Block :=
  (.ofNat B.functions.size, { B with functions := B.functions.push f })

/-- The constant at a position. -/
def constant? (B : Block) (i : UInt32) : Option Constant := B.constants[i.toNat]?

/-- The identifier at a position. -/
def identifier? (B : Block) (i : UInt32) : Option String := B.identifiers[i.toNat]?

/-- The nested block at a position. -/
def function? (B : Block) (i : UInt32) : Option Block := B.functions[i.toNat]?

/-- The number of instructions. -/
def size (B : Block) : Nat := B.code.size

/-- The opcodes of the instructions, in order. -/
def opcodes (B : Block) : List Opcode := B.code.toList.map Instr.opcode

/-- How many instructions have an opcode. -/
def count (B : Block) (op : Opcode) : Nat := B.opcodes.count op

/-- The bytes of the instructions, without those of nested blocks. -/
def encode (B : Block) : List UInt8 := Instr.encodeAll B.code.toList

/-- Change the target of the instruction at a position. The answer tells whether it can jump;
`none` means that there is no such instruction. -/
def retarget (B : Block) (position : Nat) (target : Int32) : Option Bool × Block :=
  match B.code[position]? with
  | none => (none, B)
  | some i =>
    match i.withTarget? target with
    | none => (some false, B)
    | some j => (some true, { B with code := B.code.setIfInBounds position j })

end Block

end Reified
