import Reified.Proofs.Machine.Inside
import Reified.Proofs.Simulation.Types

/-!
# Registers that are written

A block in execution has registers of its own. An instruction writes some of them, and a block that it enters
writes one of them at its end, when it hands its value on. Nothing else that is executed meanwhile has any
access to them, however deep the calls are. So registers that no instruction of some code writes keep their
values as long as this code is executed.

## Main definitions

* `Activation.SameBut` — a block in execution, after registers have been written
* `Run.Moves` — what a step does to the block in execution and to those that wait
* `Run.Executes` — a block executes code at certain positions

## Main results

* `Run.moves_of_step` — a step writes the registers that its instruction writes
* `Run.Executes.spares` — registers that the code does not write keep their values
-/

namespace Reified

/-- The end of the block writes the register of the caller. -/
def Resume.Writes : Resume → Nat → Prop
  | .answer => fun _ => False
  | .store dst | .signature dst _ => (· = dst.index)

/-! ## Blocks in execution -/

/-- The same block, to be left in the same way. Only registers that satisfy `W` have been written. -/
structure Activation.SameBut (W : Nat → Prop) (a a' : Activation) : Prop where
  block : a'.block = a.block
  resume : a'.resume = a.resume
  registers : Keeps (¬W ·) a.registers a'.registers

namespace Activation.SameBut

variable {W V : Nat → Prop} {a a₁ a' : Activation}

theorem refl (a : Activation) : a.SameBut W a := ⟨rfl, rfl, .refl _⟩

theorem of_eq (h : a' = a) : a.SameBut W a' := by
  rw [h]
  exact refl a

theorem trans (h : a.SameBut W a₁) (h' : a₁.SameBut W a') : a.SameBut W a' :=
  ⟨h'.block.trans h.block, h'.resume.trans h.resume, h.registers.trans h'.registers⟩

theorem mono (h : a.SameBut W a') (hV : ∀ j, W j → V j) : a.SameBut V a' :=
  ⟨h.block, h.resume, h.registers.mono fun j hj hw => hj (hV j hw)⟩

end Activation.SameBut

namespace Run

/-- What a step that writes only registers `W` does: it stays in the block, or enters another one that writes
such a register of this one at its end, or goes back to the caller, which gets the value. -/
inductive Moves (W : Nat → Prop) (r r' : Run) : Prop
  | stays (top : r.top.SameBut W r'.top) (callers : r'.callers = r.callers)
  | enters {a : Activation} (top : r.top.SameBut W a) (callers : r'.callers = a :: r.callers)
      (back : ∀ j, r'.top.resume.Writes j → W j)
  | leaves {caller : Activation} (callers : r.callers = caller :: r'.callers)
      (top : caller.SameBut r.top.resume.Writes r'.top)

variable {W : Nat → Prop} {r r₁ r' : Run}

/-- What happens before, without any change of the blocks in execution, does not matter. -/
theorem Moves.of_same (h : r₁.Moves W r') (htop : r₁.top = r.top) (hcallers : r₁.callers = r.callers) :
    r.Moves W r' := by
  cases h with
  | stays top callers => exact .stays (htop ▸ top) (callers.trans hcallers)
  | enters top callers back => exact .enters (htop ▸ top) (hcallers ▸ callers) back
  | leaves callers top => exact .leaves (hcallers ▸ callers) (htop ▸ top)

end Run

namespace Exec

open Run

variable {α : Type} {W : Nat → Prop} {d : Prop} {φ : Nat → Prop} {x : Exec α} {r r' : Run}

/-! ## Actions -/

/-- What an instruction does inside its block changes only registers that it may write. -/
theorem Acts.sameBut {x : Exec Unit} (h : Acts W d φ x) {r r' : Run} (hr : x r = .ok () r') :
    r.top.SameBut W r'.top ∧ r'.callers = r.callers := by
  induction h generalizing r r' with
  | spares hx =>
    have hsame := hx.ok hr
    exact ⟨.of_eq hsame.top, hsame.callers⟩
  | find hx _ ih =>
    obtain ⟨a, r₁, hxr, hfr⟩ := bind_eq_ok hr
    have hsame := hx.ok hxr
    have hrest := ih r a r₁ hxr hfr
    rw [hsame.top, hsame.callers] at hrest
    exact hrest
  | seq _ _ ihx ihy =>
    obtain ⟨_, r₁, hxr, hyr⟩ := bind_eq_ok hr
    have hx := ihx hxr
    have hy := ihy hyr
    exact ⟨hx.1.trans hy.1, hy.2.trans hx.2⟩
  | write dst v hdst =>
    rw [Exec.write] at hr
    split at hr
    next =>
      cases hr
      exact ⟨⟨rfl, rfl, .set (not_not_intro hdst)⟩, rfl⟩
    next => cases hr
  | define =>
    cases hr
    exact ⟨.refl _, rfl⟩
  | jump =>
    rw [Exec.jump] at hr
    split at hr
    next =>
      cases hr
      exact ⟨⟨rfl, rfl, .refl _⟩, rfl⟩
    next => cases hr

/-- An instruction of the block in execution writes its registers, and no block is entered or left. -/
theorem sameBut_instr {i : Instr} (h : instr i r = .ok () r') :
    r.top.SameBut i.Writes r'.top ∧ r'.callers = r.callers := by
  by_cases hpush : i = .pushScope
  · subst hpush
    cases h
    exact ⟨⟨rfl, rfl, .refl _⟩, rfl⟩
  by_cases hpop : i = .popScope
  · subst hpop
    obtain ⟨outer, rfl⟩ := popScope_eq_ok h
    exact ⟨⟨rfl, rfl, .refl _⟩, rfl⟩
  have hacts : Acts i.Writes True (fun _ => True) (instr i) :=
    acts_instr hpush hpop (fun _ _ _ => trivial) fun _ _ _ => trivial
  exact hacts.sameBut h

/-! ## Calls -/

/-- The action may enter a block or leave one, but writes only registers `W` of the block in execution. -/
def Moves (W : Nat → Prop) (x : Exec α) : Prop :=
  ∀ ⦃r r' : Run⦄ ⦃a : α⦄, x r = .ok a r' → r.Moves W r'

namespace Moves

variable {β : Type} {f : α → Exec β}

theorem throw (e : Fault) : Moves W (throw e : Exec α) := by
  intro r r' a h
  cases h

theorem spares_bind (hx : Spares x) (hf : ∀ a, Moves W (f a)) : Moves W (x >>= f) := by
  intro r r' b h
  obtain ⟨a, r₁, hxr, hfr⟩ := bind_eq_ok h
  have hsame := hx.ok hxr
  exact (hf a hfr).of_same hsame.top hsame.callers

theorem onHeap_bind {g : Heap → α × Heap} (hf : ∀ a, Moves W (f a)) : Moves W (onHeap g >>= f) := by
  intro r r' b h
  obtain ⟨a, r₁, hheap, hfr⟩ := bind_eq_ok h
  cases hheap
  exact (hf _ hfr).of_same rfl rfl

theorem get_bind {f : Run → Exec β} (hf : ∀ r, Moves W (f r)) : Moves W (get >>= f) :=
  spares_bind .get hf

theorem of_acts {x : Exec Unit} (h : Acts W True (fun _ => True) x) : Moves W x := by
  intro r r' a hr
  obtain ⟨htop, hcallers⟩ := h.sameBut hr
  exact .stays htop hcallers

theorem write {dst : Register} (hdst : W dst.index) (v : Value) : Moves W (write dst v) :=
  of_acts (.write dst v hdst)

theorem enter {a : Activation} (ha : ∀ j, a.resume.Writes j → W j) : Moves W (enter a) := by
  intro r r' c h
  cases h
  exact .enters (.refl _) rfl ha

end Moves

theorem moves_call {dst : Register} (hdst : W dst.index) (callee : Register) (argc : UInt32) (first : Register) :
    Moves W (call dst callee argc first) := by
  refine .spares_bind (.read _) fun v => .spares_bind (.readRange _ _) fun args => ?_
  cases v with
  | function c =>
    exact .spares_bind .heap fun _ => .spares_bind (spares_completeArgs _ _) fun _ => .onHeap_bind fun _ =>
      .enter fun j hj => hj ▸ hdst
  | builtin op =>
    dsimp only
    split
    · refine .spares_bind .heap fun _ => ?_
      split
      · exact .write hdst _
      · exact .throw _
    · exact .throw _
  | _ => exact .spares_bind (.text _) fun _ => .throw _

theorem moves_newFunction {dst : Register} (hdst : W dst.index) (i : UInt32) : Moves W (newFunction dst i) := by
  refine .spares_bind (.nested i) fun B => .get_bind fun _ => ?_
  dsimp only
  split
  · exact .spares_bind (spares_freshVars _ _) fun _ => .spares_bind spares_freshVar fun _ =>
      .onHeap_bind fun v => .write hdst v
  · exact .onHeap_bind fun _ => .enter fun j hj => hj ▸ hdst

/-- Leaving a block that has a caller writes the register of the caller that waits for the value. -/
theorem moves_of_leave {src : Register} (h : leave src r = .ok none r') : r.Moves W r' := by
  obtain ⟨v, r₁, hread, h⟩ := bind_eq_ok h
  have hsame := (Spares.read src).ok hread
  refine .of_same ?_ hsame.top hsame.callers
  obtain ⟨resume, r₂, hback, h⟩ := bind_eq_ok h
  obtain ⟨m, ⟨block, position, registers, environment, resume'⟩, callers⟩ := r₁
  cases callers with
  | nil =>
    cases hback
    cases h
  | cons caller callers =>
    cases hback
    have hwrites {dst : Register} {v : Value} {m' : Machine} {r₃ : Run} {V : Nat → Prop} (hV : V dst.index)
        (hw : write dst v ⟨m', caller, callers⟩ = .ok () r₃) : caller.SameBut V r₃.top ∧ r₃.callers = callers :=
      (Acts.write (d := True) (φ := fun _ => True) dst v hV).sameBut hw
    cases resume' with
    | answer =>
      cases h
      exact .leaves rfl (.refl _)
    | store dst =>
      obtain ⟨_, r₃, hw, hpure⟩ := bind_eq_ok h
      cases hpure
      obtain ⟨htop, rfl⟩ := hwrites (V := (Resume.store dst).Writes) rfl hw
      exact .leaves rfl htop
    | signature dst B =>
      cases v with
      | type t =>
        obtain ⟨_, r₃, hget, h⟩ := bind_eq_ok h
        cases hget
        obtain ⟨_, r₄, hcreate, hpure⟩ := bind_eq_ok h
        cases hpure
        obtain ⟨v, r₅, hclosure, hw⟩ := bind_eq_ok hcreate
        cases hclosure
        obtain ⟨htop, rfl⟩ := hwrites (V := (Resume.signature dst B).Writes) rfl hw
        exact .leaves rfl htop
      | _ =>
        obtain ⟨_, _, -, h⟩ := bind_eq_ok h
        cases h

end Exec

/-! ## Runs -/

namespace Run

variable {W P : Nat → Prop} {r r₁ r' : Run} {a₀ c c' : Activation} {rest cs : List Activation}

/-- **A step writes the registers that its instruction writes.** -/
theorem moves_of_step (h : Exec.step r = .ok none r') : ∃ i, r.next? = some i ∧ r.Moves i.Writes r' := by
  obtain ⟨i, hi, hrest⟩ := Exec.step_eq_ok h
  have hmoves (h : r.advance.Moves i.Writes r') : r.Moves i.Writes r' := by
    cases h with
    | stays top callers => exact .stays ⟨top.block, top.resume, top.registers⟩ callers
    | enters top callers back => exact .enters ⟨top.block, top.resume, top.registers⟩ callers back
    | leaves callers top => exact .leaves callers top
  refine ⟨i, hi, hmoves ?_⟩
  cases i with
  | leave src => exact Exec.moves_of_leave hrest
  | call dst callee argc first =>
    exact Exec.moves_call (W := Instr.Writes (.call dst callee argc first)) rfl _ _ _ hrest
  | newFunction dst j => exact Exec.moves_newFunction (W := Instr.Writes (.newFunction dst j)) rfl _ hrest
  | _ =>
    obtain ⟨htop, hcallers⟩ := Exec.sameBut_instr hrest
    exact .stays htop hcallers

/-- The blocks in execution, the innermost first. -/
def stack (r : Run) : List Activation := r.top :: r.callers

/-- The block that is in execution in `r` has executed instructions at positions that satisfy `P`, and no others,
with all that the blocks entered from it do. It has not been left. -/
inductive Executes (P : Nat → Prop) (r : Run) : Run → Prop
  | refl : Executes P r r
  | step {r₁ r₂ : Run} (h : Executes P r r₁) (hp : r₁.callers.length = r.callers.length → P r₁.top.position)
      (hstep : Exec.step r₁ = .ok none r₂) (hlast : r.callers.length ≤ r₂.callers.length) : Executes P r r₂

/-- Among the blocks there is one that has been `a₀` and waits. The one that it has entered writes a register `W`
of it at its end. -/
inductive Awaits (W : Nat → Prop) (a₀ : Activation) (rest : List Activation) : List Activation → Prop
  | next {c a : Activation} (hc : ∀ j, c.resume.Writes j → W j) (ha : a₀.SameBut W a) :
      Awaits W a₀ rest (c :: a :: rest)
  | deeper {c : Activation} {cs : List Activation} (h : Awaits W a₀ rest cs) : Awaits W a₀ rest (c :: cs)

theorem Awaits.of_resume (h : Awaits W a₀ rest (c :: cs)) (hc : c'.resume = c.resume) :
    Awaits W a₀ rest (c' :: cs) := by
  cases h with
  | next hback ha => exact .next (hc ▸ hback) ha
  | deeper h => exact .deeper h

theorem Awaits.split (h : Awaits W a₀ rest cs) : ∃ above a, cs = above ++ a :: rest ∧ a₀.SameBut W a := by
  induction h with
  | @next c a _ ha => exact ⟨[c], a, rfl, ha⟩
  | @deeper c _ _ ih =>
    obtain ⟨above, a, rfl, ha⟩ := ih
    exact ⟨c :: above, a, rfl, ha⟩

/-- The block that has been `a₀` is in execution or waits, and only registers `W` of it have been written. -/
def Holds (W : Nat → Prop) (a₀ : Activation) (rest : List Activation) (r : Run) : Prop :=
  a₀.SameBut W r.top ∧ r.callers = rest ∨ Awaits W a₀ rest r.stack

/-- While a block waits, no step writes a register of it, but for the one that goes back to it. -/
theorem Awaits.step {V : Nat → Prop} (h : Awaits W a₀ rest r.stack) (hmoves : r.Moves V r') :
    Holds W a₀ rest r' := by
  cases hmoves with
  | stays top callers =>
    refine .inr ?_
    rw [stack, callers]
    exact h.of_resume top.resume
  | enters top callers =>
    refine .inr ?_
    rw [stack, callers]
    exact .deeper (h.of_resume top.resume)
  | leaves callers top =>
    rw [stack, callers] at h
    cases h with
    | next hback ha => exact .inl ⟨ha.trans (top.mono hback), rfl⟩
    | deeper h => exact .inr (h.of_resume top.resume)

/-- **Registers that the code does not write keep their values**, and the block is the same. Blocks that have been
entered meanwhile are above it. -/
theorem Executes.spares (h : r.Executes P r')
    (hW : ∀ p i, P p → r.top.block.code[p]? = some i → ∀ j, i.Writes j → W j) :
    ∃ above a, r'.stack = above ++ a :: r.callers ∧ r.top.SameBut W a := by
  have hholds : Holds W r.top r.callers r' := by
    induction h with
    | refl => exact .inl ⟨.refl _, rfl⟩
    | @step r₁ r₂ _ hp hstep hlast ih =>
      obtain ⟨i, hi, hmoves⟩ := moves_of_step hstep
      rcases ih with ⟨htop, hcallers⟩ | hwaits
      · have hi' : r.top.block.code[r₁.top.position]? = some i := htop.block ▸ hi
        have hwrites := hW _ i (hp (congrArg _ hcallers)) hi'
        cases hmoves with
        | stays top callers => exact .inl ⟨htop.trans (top.mono hwrites), callers.trans hcallers⟩
        | enters top callers back =>
          refine .inr ?_
          rw [stack, callers, hcallers]
          exact .next (fun j hj => hwrites j (back j hj)) (htop.trans (top.mono hwrites))
        | leaves callers _ =>
          -- The block would have been left.
          rw [← hcallers, callers, List.length_cons] at hlast
          omega
      · exact hwaits.step hmoves
  rcases hholds with ⟨htop, hcallers⟩ | hwaits
  · exact ⟨[], r'.top, by rw [stack, hcallers, List.nil_append], htop⟩
  · exact hwaits.split

end Run

end Reified
