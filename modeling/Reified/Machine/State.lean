import Reified.Machine.Operator
import Reified.Ty.Generalize
import Reified.Ty.Unify

/-!
# The state of a machine

A machine keeps, from one run to the next, its table of type variables with the open frames, its
heap, and the environment of its global names. A run adds the activations: the block that is being
executed, with its registers, and the callers that wait for it.

## Main definitions

* `Machine`, `Machine.initial`
* `Activation`, `Resume` — a block in execution, and what becomes of its value
* `Run`, `Exec` — a run, and actions on it that may fail
-/

namespace Reified

/-- What a machine keeps between runs. -/
structure Machine where
  table : Table
  frames : Frames
  heap : Heap
  /-- The environment of the global names. -/
  globals : Nat
  deriving Inhabited

/-- What becomes of the value with which a block ends. -/
inductive Resume where
  /-- It is the value of the run. -/
  | answer
  /-- It goes to a register of the caller. -/
  | store (dst : Register)
  /-- It is the type of a function of the given block, which goes to a register of the caller. -/
  | signature (dst : Register) (block : Block)

/-- A block in execution. -/
structure Activation where
  block : Block
  /-- The position of the next instruction. -/
  position : Nat
  registers : Array Value
  environment : Nat
  resume : Resume

/-- A run: the machine, the block in execution, and its callers, the innermost first. -/
structure Run where
  machine : Machine
  top : Activation
  callers : List Activation

/-- An action on a run. -/
abbrev Exec := EStateM Fault Run

/-! ## Machines -/

namespace Machine

/-- Define the operators in an environment. -/
def defineOperators (environment : Nat) : List Operator → Heap → Heap
  | [], h => h
  | op :: ops, h => defineOperators environment ops (h.define environment op.symbol (.builtin op))

/-- The machine that knows the operators and nothing else, with one open frame. -/
def initial : Machine :=
  let (globals, h) := Heap.empty.newEnvironment none
  ⟨.empty, Frames.empty.push, defineOperators globals Operator.all h, globals⟩

end Machine

/-! ## Activations -/

/-- A block about to be executed from a position. The arguments are in the first registers, and all
other registers hold the unit value. -/
def Activation.enter (block : Block) (position environment : Nat) (args : Array Value)
    (resume : Resume) : Activation :=
  ⟨block, position, args ++ Array.replicate (block.registerCount.toNat - args.size) Value.unit,
    environment, resume⟩

/-- The start of a run of a block, in a new environment inside the global one. -/
def Machine.start (m : Machine) (block : Block) : Run :=
  let ⟨T, F, h, globals⟩ := m
  let (environment, h) := h.newEnvironment (some globals)
  ⟨⟨T, F, h, globals⟩, .enter block block.codeStart.toNat environment #[] .answer, []⟩

namespace Exec

variable {α : Type}

/-! ## The parts of a run -/

/-- Act on the table. -/
@[inline] def onTable (f : Table → α × Table) : Exec α :=
  fun ⟨⟨T, F, h, g⟩, top, callers⟩ => let (a, T) := f T; .ok a ⟨⟨T, F, h, g⟩, top, callers⟩

/-- Act on the frames and the table. -/
@[inline] def onFrames (f : Frames → Table → α × Frames × Table) : Exec α :=
  fun ⟨⟨T, F, h, g⟩, top, callers⟩ =>
    let (a, F, T) := f F T
    .ok a ⟨⟨T, F, h, g⟩, top, callers⟩

/-- Act on the heap. -/
@[inline] def onHeap (f : Heap → α × Heap) : Exec α :=
  fun ⟨⟨T, F, h, g⟩, top, callers⟩ => let (a, h) := f h; .ok a ⟨⟨T, F, h, g⟩, top, callers⟩

/-- Look at the heap. -/
@[inline] def heap : Exec Heap := fun r => .ok r.machine.heap r

/-- The text of a value. -/
def text (v : Value) : Exec String := return (← heap).text v

/-- Change the environment of the block in execution. -/
def setEnvironment (environment : Nat) : Exec Unit :=
  fun ⟨m, ⟨block, position, registers, _, resume⟩, callers⟩ =>
    .ok () ⟨m, ⟨block, position, registers, environment, resume⟩, callers⟩

/-! ## Registers -/

/-- Read a register. -/
def read (r : Register) : Exec Value := fun s =>
  match s.top.registers[r.index]? with
  | some v => .ok v s
  | none => .error (.registerOutOfRange r s.top.block.name) s

/-- Write a register. -/
def write (r : Register) (v : Value) : Exec Unit :=
  fun ⟨m, ⟨block, position, registers, environment, resume⟩, callers⟩ =>
    if r.index < registers.size then
      .ok () ⟨m, ⟨block, position, registers.setIfInBounds r.index v, environment, resume⟩, callers⟩
    else
      .error (.registerOutOfRange r block.name)
        ⟨m, ⟨block, position, registers, environment, resume⟩, callers⟩

/-- Read `count` consecutive registers, of which `done` have been read. -/
def readFrom (first : Register) (done : Array Value) : (count : Nat) → Exec (Array Value)
  | 0 => pure done
  | n + 1 => do readFrom first (done.push (← read (first.offset done.size))) n

/-- Read consecutive registers. -/
def readRange (first : Register) (count : UInt32) : Exec (Array Value) :=
  readFrom first #[] count.toNat

/-- Write values to consecutive registers, of which `done` have been written. -/
def writeFrom (first : Register) (done : Nat) : List Value → Exec Unit
  | [] => pure ()
  | v :: vs => do
    write (first.offset done) v
    writeFrom first (done + 1) vs

/-! ## The block in execution -/

/-- An identifier of the block. -/
def identifier (i : UInt32) : Exec String := fun s =>
  match s.top.block.identifier? i with
  | some name => .ok name s
  | none => .error (.unknownIdentifier i) s

/-- The value of a constant of the block. -/
def constant (i : UInt32) : Exec Value := fun s =>
  match s.top.block.constant? i with
  | some c => .ok c.value s
  | none => .error (.unknownConstant i) s

/-- A nested block. -/
def nested (i : UInt32) : Exec Block := fun s =>
  match s.top.block.function? i with
  | some block => .ok block s
  | none => .error (.unknownFunction i) s

/-- The message at a position among the constants. -/
def message (i : UInt32) : Exec String := fun s =>
  match s.top.block.constant? i with
  | some (.string m) => .ok m s
  | some c => .ok c.text s
  | none => .ok ("<missing message " ++ toString i.toNat ++ ">") s

/-- Go on at a position. -/
def jump (t : Int32) : Exec Unit :=
  fun ⟨m, ⟨block, position, registers, environment, resume⟩, callers⟩ =>
    if 0 ≤ t.toInt then
      .ok () ⟨m, ⟨block, t.toInt.toNat, registers, environment, resume⟩, callers⟩
    else
      .error (.unknownTarget t) ⟨m, ⟨block, position, registers, environment, resume⟩, callers⟩

/-- Take the next instruction. -/
def fetch : Exec Instr :=
  fun ⟨m, ⟨block, position, registers, environment, resume⟩, callers⟩ =>
    match block.code[position]? with
    | some i => .ok i ⟨m, ⟨block, position + 1, registers, environment, resume⟩, callers⟩
    | none =>
      .error (.pointerOutOfRange position block.name)
        ⟨m, ⟨block, position, registers, environment, resume⟩, callers⟩

/-- Execute another block before going on. -/
def enter (a : Activation) : Exec Unit :=
  fun ⟨m, top, callers⟩ => .ok () ⟨m, a, top :: callers⟩

end Exec

end Reified
