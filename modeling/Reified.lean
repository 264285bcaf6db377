import Reified.Block.Listing
import Reified.Block.Verify
import Reified.Compilation
import Reified.Proofs.Table.Invariant
import Reified.Tree.Build
import Reified.Proofs.Table.Resolve
import Reified.Proofs.Table.Unify
import Reified.Proofs.Table.Growth
import Reified.Proofs.Table.MostGeneral
import Reified.Proofs.Eval.Program
import Reified.Proofs.Lowering.Builder
import Reified.Proofs.Lowering.Safe
import Reified.Proofs.Machine.Runs
import Reified.Proofs.Machine.Steps
import Reified.Proofs.Eval.Plain
import Reified.Proofs.Lowering.Function
import Reified.Proofs.Simulation.Store
import Reified.Proofs.Machine.TypeSteps
import Reified.Proofs.Simulation.Types
import Reified.Proofs.Simulation.Actions
import Reified.Proofs.Simulation.TypeTest
import Reified.Proofs.Simulation.Expr
import Reified.Proofs.Simulation.Flow
import Reified.Proofs.Simulation.Function
import Reified.Proofs.Simulation.Stmt
import Reified.Proofs.Simulation.Program
import Reified.Proofs.Typing.Explicit
import Reified.Proofs.Typing.Actions
import Reified.Proofs.Typing.Plain
import Reified.Proofs.Typing.Checked
import Reified.Proofs.Simulation.Checked
import Reified.Proofs.Instr.Codec
import Reified.Proofs.Instr.Malformed
import Reified.Proofs.Block.Pools
import Reified.Proofs.Block.Verify
import Reified.Proofs.Machine.Sound
import Reified.Proofs.Machine.Verified
import Reified.Proofs.Machine.Writes
import Reified.Proofs.Typing.Signed
import Reified.Proofs.Typing.Learns
import Reified.Proofs.Tree.Exprs
import Reified.Proofs.Typing.Direct
import Reified.Proofs.Typing.Accesses
import Reified.Proofs.Lowering.Emits
import Reified.Proofs.Lowering.Orderly
import Reified.Proofs.Compilation.Sequence
import Reified.Proofs.Completion.Program
import Reified.Proofs.Completion.Signatures
import Reified.Proofs.Completion.Loops
import Reified.Proofs.Table.Changes
import Reified.Proofs.Table.Graded
import Reified.Proofs.Table.Refines
import Reified.Proofs.Frames.Settle
import Reified.Proofs.Frames.Escape
import Reified.Proofs.Table.Live
import Reified.Proofs.Table.Instances
import Reified.Proofs.Table.Rollback
import Reified.Proofs.Typing.Contained
import Reified.Proofs.Typing.Binders
import Reified.Proofs.Typing.Containment
import Reified.Proofs.Typing.Directions
import Reified.Proofs.Typing.Siblings
import Reified.Proofs.Typing.Escaping
import Reified.Proofs.Lowering.Local
import Reified.Proofs.Typing.Quiet
import Reified.Proofs.Typing.Enclosed
import Reified.Proofs.Typing.Balanced
import Reified.Proofs.Lowering.Completes
import Reified.Proofs.Lowering.Confined
import Reified.Proofs.Compilation.Complete
import Reified.Proofs.Lowering.Requests
import Reified.Proofs.Lowering.Registers
import Reified.Proofs.Machine.Inside
import Reified.Proofs.Compilation.Registers
import Reified.Proofs.Compilation.Subtrees
import Reified.Proofs.Scopes.Depths
import Reified.Proofs.Scopes.Runs
import Reified.Proofs.Table.Observation
import Reified.Proofs.Table.Reflexive
import Reified.Proofs.Isolation.Runs
import Reified.Proofs.Table.Monomorphic
import Reified.Proofs.Typing.Annotated
import Reified.Proofs.Table.Omits
import Reified.Proofs.Typing.Sparing
import Reified.Proofs.Typing.Outcomes
import Reified.Proofs.Typing.Expected
import Reified.Proofs.Typing.Upward
import Reified.Proofs.Typing.Spared
import Reified.Proofs.Typing.Placeholders
import Reified.Proofs.Table.Outlines
import Reified.Proofs.Conformance.Values
import Reified.Proofs.Conformance.Found
import Reified.Proofs.Conformance.Checks
import Reified.Proofs.Conformance.Schemas
import Reified.Proofs.Machine.Learns
import Reified.Proofs.Conformance.Zero
import Reified.Proofs.Table.Sealed
import Reified.Proofs.Table.Copied
import Reified.Proofs.Machine.Sealed
import Reified.Proofs.Inference.Signatures
import Reified.Proofs.Inference.Values
import Reified.Proofs.Inference.Agreement
import Reified.Proofs.Inference.Calls
