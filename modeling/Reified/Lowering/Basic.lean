import Reified.Block.Basic
import Reified.Ty.Text

/-!
# Emitting code

Code is emitted into a builder, instruction after instruction. A jump names a label, which is bound
to a position at some time, before or after the jump is emitted; only when the block is finished do
the positions replace the labels. Emitted items are therefore never changed.

Registers are handed out in increasing order and given back by returning to an earlier mark. The
register file of the finished block has room for all that were ever handed out.

## Main definitions

* `Builder`, `LowerError`, `Lower`
* `Lower.emit`, `Lower.emitJump`, `Lower.newLabel`, `Lower.bind` — code
* `Lower.allocate`, `Lower.allocateRange`, `Lower.mark`, `Lower.release` — registers
* `Builder.finish` — the block
-/

namespace Reified

/-- Why there is no code for a program. -/
inductive LowerError where
  /-- The block needs more registers than instructions can name. -/
  | registersExhausted (block : String)
  /-- A `break` or `continue` has no loop around it. -/
  | jumpOutsideLoop (block : String)
  | unchecked (function : String)
  | notFunction (function : String) (signature : Ty)
  | undeclared (v : TyVar)
  /-- A type cannot be rebuilt at run time because of this variable. -/
  | noValue (v : TyVar)
  deriving DecidableEq

/-- The wording of a lowering error. -/
def LowerError.message : LowerError → String
  | .registersExhausted block => "register file exhausted in `" ++ block ++ "`"
  | .jumpOutsideLoop block => "loop jump outside of a loop in `" ++ block ++ "`"
  | .unchecked function => "function `" ++ function ++ "` has no checked signature"
  | .notFunction function signature =>
    "function `" ++ function ++ "` has non-function signature `" ++ signature.text ++ "`"
  | .undeclared v => "type variable `" ++ v.text ++ "` was not declared"
  | .noValue v => "type variable `" ++ v.text ++ "` has no run-time value"

/-- A name for a position in the code of a block. -/
structure Label where
  number : Nat
  deriving DecidableEq, Inhabited

/-- An emitted instruction, with the label it jumps to, if any. -/
structure Item where
  instr : Instr
  label : Option Label
  deriving Inhabited

/-- A block under construction. Its pools are those of `block`; its code is in `items`. -/
structure Builder where
  block : Block
  items : Array Item
  /-- The position of each label, once it is bound. -/
  labels : Array (Option Nat)
  /-- The first register that is free. -/
  next : UInt16
  deriving Inhabited

/-- An action that emits code and may fail. -/
abbrev Lower := EStateM LowerError Builder

namespace Builder

/-- The start of a block with parameters, which take up the first registers. -/
def new (name : String) (parameterCount : UInt32) : Builder :=
  ⟨.new name parameterCount, #[], #[], parameterCount.toUInt16⟩

/-- The position of a label; `none` as long as it is not bound. -/
def position? (b : Builder) (l : Label) : Option Nat :=
  (b.labels[l.number]?).join

/-- The instruction of an item, jumping to the position of its label. -/
def resolve (b : Builder) (x : Item) : Instr :=
  match x.label.bind b.position? with
  | some p => x.instr.withTarget (.ofNat p)
  | none => x.instr

/-- The finished block. -/
def finish (b : Builder) : Block :=
  { b.block with code := b.items.map b.resolve }

end Builder

namespace Lower

variable {α : Type}

/-! ## Pools -/

/-- Act on the pools of the block. -/
@[inline] def onPools (f : Block → α × Block) : Lower α :=
  fun ⟨B, items, labels, next⟩ => let (a, B) := f B; .ok a ⟨B, items, labels, next⟩

/-- The position of a constant. -/
def constant (c : Constant) : Lower UInt32 := onPools (·.addConstant c)

/-- The position of an identifier. -/
def identifier (name : String) : Lower UInt32 := onPools (·.addIdentifier name)

/-- The position of a nested block, which is added. -/
def function (f : Block) : Lower UInt32 := onPools (·.addFunction f)

/-- The name of the block. -/
def blockName : Lower String := fun b => .ok b.block.name b

/-! ## Code -/

/-- Emit an item. -/
def emitItem (x : Item) : Lower Unit :=
  fun ⟨B, items, labels, next⟩ => .ok () ⟨B, items.push x, labels, next⟩

/-- Emit an instruction that does not jump. -/
def emit (i : Instr) : Lower Unit := emitItem ⟨i, none⟩

/-- Emit an instruction that jumps to a label. -/
def emitJump (i : Instr) (l : Label) : Lower Unit := emitItem ⟨i, some l⟩

/-- A label that is not bound yet. -/
def newLabel : Lower Label :=
  fun ⟨B, items, labels, next⟩ => .ok ⟨labels.size⟩ ⟨B, items, labels.push none, next⟩

/-- Bind a label to the position of the next instruction. -/
def bind (l : Label) : Lower Unit :=
  fun ⟨B, items, labels, next⟩ =>
    .ok () ⟨B, items, labels.setIfInBounds l.number (some items.size), next⟩

/-- The position of the next instruction. -/
def position : Lower Nat := fun b => .ok b.items.size b

/-- Go to a label. -/
def jump (l : Label) : Lower Unit := emitJump (.jump Instr.unknownTarget) l

/-- Go to a label if a condition is false. -/
def jumpIfFalse (condition : Register) (l : Label) : Lower Unit :=
  emitJump (.jumpIfFalse condition Instr.unknownTarget) l

/-- Load a constant. -/
def load (dst : Register) (c : Constant) : Lower Unit := do
  emit (.loadConstant dst (← constant c))

/-- Load the unit value. -/
def loadUnit (dst : Register) : Lower Unit := load dst .unit

/-! ## Registers -/

/-- Hand out `count` consecutive registers; the answer is the first one. -/
def allocateRange (count : Nat) : Lower Register :=
  fun ⟨B, items, labels, next⟩ =>
    let stop := next.toNat + count
    if stop ≤ 65535 then
      .ok ⟨next⟩ ⟨{ B with registerCount := max B.registerCount (.ofNat stop) }, items, labels,
        .ofNat stop⟩
    else .error (.registersExhausted B.name) ⟨B, items, labels, next⟩

/-- Hand out a register. -/
def allocate : Lower Register := allocateRange 1

/-- The first register that is free. -/
def mark : Lower UInt16 := fun b => .ok b.next b

/-- Give back all registers from a mark on. -/
def release (m : UInt16) : Lower Unit :=
  fun ⟨B, items, labels, _⟩ => .ok () ⟨B, items, labels, m⟩

/-- Build a block of its own. -/
def isolated (name : String) (parameterCount : UInt32) (act : Lower Unit) : Lower Block :=
  fun b =>
    match act (.new name parameterCount) with
    | .ok _ inner => .ok inner.finish b
    | .error e _ => .error e b

end Lower

end Reified
