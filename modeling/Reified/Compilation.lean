import Reified.Lowering.Program
import Reified.Machine.Step
import Reified.Typing.Program

/-!
# Compilation

A compiler checks each program with a checker of its own, collects the diagnostics of all of them,
and generates code for what was accepted.

## Main definitions

* `Options`, `Compiler`, `CompileError`
* `Compilation` — a checked program and its code
* `Compiler.compile`, `Compilation.run`
-/

namespace Reified

/-- How programs are compiled. -/
structure Options where
  /-- Annotated declarations are checked at run time if their initializer may be a hole. -/
  checks : Bool := true
  /-- No code is generated once there are diagnostics. -/
  denyErrors : Bool := false
  deriving DecidableEq

/-- A compiler, with the diagnostics of the programs it has compiled. -/
structure Compiler where
  options : Options
  diagnostics : Diagnostics

/-- Why a program is not compiled. -/
inductive CompileError where
  /-- There are diagnostics, and they are not tolerated. -/
  | denied
  | lower (e : LowerError)
  deriving DecidableEq

/-- The wording of a compilation error. -/
def CompileError.message : CompileError → String
  | .denied => "Type checking failed"
  | .lower e => e.message

/-- A program with its types, and the code for its accepted declarations. -/
structure Compilation where
  checked : CheckedProgram
  block : Block

namespace Compiler

/-- A compiler that has not compiled anything. -/
def new (options : Options) : Compiler := ⟨options, .empty⟩

/-- Compile a program. -/
def compile (c : Compiler) (program : Program) : Except CompileError Compilation × Compiler :=
  let (checked, checker) := Checker.initial.checkProgram program
  let c := { c with diagnostics := c.diagnostics.append checker.diagnostics }
  if c.options.denyErrors && !c.diagnostics.isEmpty then (.error .denied, c)
  else
    match checked.program.lower c.options.checks checked.rejected with
    | .ok block => (.ok ⟨checked, block⟩, c)
    | .error e => (.error (.lower e), c)

end Compiler

/-- Run the code of a program on a new machine, for at most so many steps. -/
def Compilation.run (steps : Nat) (c : Compilation) : Option (Except Fault Value × Machine) :=
  Machine.initial.run steps c.block

end Reified
