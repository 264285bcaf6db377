import Reified.Proofs.Isolation.Runs
import Reified.Proofs.Lowering.Registers
import Reified.Proofs.Machine.Sealed
import Reified.Proofs.Simulation.Function

/-!
# The signatures of functions remain sealed

In a run of generated code a signature is evaluated by the block of the function itself, over new variables, and
these are generalized when it is stored. At that moment nothing else mentions them, and so they remain sealed, however
often the function is called or asked for its type.

## Main definitions

* `Closure.Signed` — a signature over generalized variables that nothing has bound
* `Run.Calm` — a state in which no signature is being evaluated
* `Run.Orderly` — a state in which one may be, and will be stored as it should

## Main results

* `Run.Orderly.step` — one step
* `Machine.Reached.signed`, `Machine.Reached.signed_of_goes` — **all signatures of all machines and states**
-/

namespace Reified

open Exec

/-! ## Signatures -/

/-- The signature has as many parameters as the block. -/
def Closure.Shaped (c : Closure) : Prop :=
  ∃ params result k, c.signature = .fn params result k ∧ params.length = c.block.parameterCount.toNat

/-- The signature has as many parameters as the block, and is over generalized variables that nothing has bound. -/
structure Closure.Signed (T : Table) (c : Closure) : Prop where
  shaped : c.Shaped
  known : ∀ v ∈ c.signature.vars, v.id < T.size
  unbound : ∀ v ∈ c.signature.vars, T.binding? v.id = none
  generalized : ∀ v ∈ c.signature.vars, T.isGeneralized v.id = true

/-- All functions have signatures over generalized variables that nothing has bound. -/
def Machine.Signed (m : Machine) : Prop := ∀ c ∈ m.heap.closures, c.Signed m.table

theorem Closure.Signed.length_eq {T : Table} {c : Closure} (hc : c.Signed T) {params : List Ty} {result : Ty} {k : Nat}
    (hsignature : c.signature = .fn params result k) : params.length = c.block.parameterCount.toNat := by
  obtain ⟨params', result', k', heq, hlength⟩ := hc.shaped
  cases heq.symm.trans hsignature
  exact hlength

theorem Machine.Signed.closure {m : Machine} (hm : m.Signed) {c : Nat} (hc : c < m.heap.closures.size) :
    (m.heap.closure c).Signed m.table := by
  refine hm _ ?_
  rw [Heap.closure, Array.getD_eq_getD_getElem?, Array.getElem?_eq_getElem hc]
  exact Array.getElem_mem hc

/-- The variables of all signatures are sealed. -/
def Run.Signed (r : Run) : Prop :=
  ∀ c ∈ r.machine.heap.closures, c.Shaped ∧ ∀ v ∈ c.signature.vars, r.Sealed v.id

theorem Run.Signed.machine {r : Run} (hr : r.Signed) : r.machine.Signed := fun c hc =>
  have ⟨hshaped, hsealed⟩ := hr c hc
  ⟨hshaped, fun v hv => (hsealed v hv).machine.table.omits.known,
    fun v hv => (hsealed v hv).machine.table.omits.unbound, fun v hv => (hsealed v hv).machine.table.generalized⟩

/-! ## States of a run -/

/-- The block is that of a function, and its positions can be operands. -/
def Block.OfFunction (B : Block) : Prop :=
  B.Fits ∧ ∃ checks head body b b', Lower.functionBlock checks head (Lower.fnBody body) b = .ok B b'

theorem Block.OfFunction.codeStart_ne_zero {B : Block} (hB : B.OfFunction) : B.codeStart ≠ 0 := by
  obtain ⟨hfits, checks, head, body, b, b', hblock⟩ := hB
  exact Reified.codeStart_ne_zero (fun _ _ => Lower.safe_fnBody body _ _) hblock hfits

/-- The block in execution, or waiting, is not that of a function whose signature it evaluates. -/
structure Activation.Calm (a : Activation) : Prop where
  nested : ∀ f ∈ a.block.functions, f.Everywhere Block.OfFunction
  resume : ∀ dst B, a.resume ≠ .signature dst B

/-- The block and what becomes of its value are all that counts. -/
theorem Activation.Calm.congr {a a' : Activation} (ha : a.Calm) (hblock : a'.block = a.block)
    (hresume : a'.resume = a.resume) : a'.Calm :=
  ⟨hblock ▸ ha.nested, hresume ▸ ha.resume⟩

/-- No signature is being evaluated, and the variables of all signatures are sealed. -/
structure Run.Calm (r : Run) : Prop where
  top : r.top.Calm
  callers : ∀ a ∈ r.callers, a.Calm
  closures : ∀ c ∈ r.machine.heap.closures, c.block.Everywhere Block.OfFunction
  signed : r.Signed

/-- The next step stores a signature as it should, if there is a register for the function. -/
def Run.Stores (r : Run) : Prop :=
  match step r with
  | .ok none r' => r'.Calm
  | .ok (some _) _ => False
  | .error _ r' => r'.machine.Signed

/-- A signature is being evaluated, and it will be stored as it should. -/
def Run.Evaluates (r : Run) : Prop :=
  r.Signed ∧ ∃ s, Goes r s ∧ s.machine.heap.closures.size = r.machine.heap.closures.size ∧ s.Stores

/-- No signature is being evaluated, or one that will be stored as it should. -/
def Run.Orderly (r : Run) : Prop := r.Calm ∨ r.Evaluates

theorem Run.Orderly.signed {r : Run} (hr : r.Orderly) : r.Signed := hr.elim Calm.signed And.left

/-! ## Actions that create no function -/

namespace Exec

variable {α β : Type} {x : Exec α} {f : α → Exec β}

/-- The action creates no function, also if it fails. -/
def CreatesNone (x : Exec α) : Prop := ∀ r, (after (x r)).machine.heap.closures = r.machine.heap.closures

namespace CreatesNone

theorem bind (hx : CreatesNone x) (hf : ∀ a, CreatesNone (f a)) : CreatesNone (x >>= f) := by
  intro r
  have h := hx r
  cases hxr : x r with
  | ok a r₁ =>
    rw [hxr] at h
    rw [bind_ok hxr]
    exact (hf a r₁).trans h
  | error e r₁ =>
    rw [hxr] at h
    rw [bind_error hxr]
    exact h

theorem of_stays (hx : Stays True (fun _ => True) x) : CreatesNone x := by
  intro r
  cases hxr : x r with
  | ok a r' => exact (hx.ok hxr).heap.closures
  | error e r' => exact (hx.error hxr).heap.closures

theorem pure (a : α) : CreatesNone (Pure.pure a : Exec α) := fun _ => rfl

theorem newEnvironment (parent : Option Nat) : CreatesNone (onHeap (·.newEnvironment parent)) := fun _ => rfl

theorem enter (a : Activation) : CreatesNone (enter a) := fun _ => rfl

theorem setEnvironment (e : Nat) : CreatesNone (setEnvironment e) := fun _ => rfl

end CreatesNone

theorem createsNone_call (dst callee : Register) (argc : UInt32) (first : Register) :
    CreatesNone (call dst callee argc first) := by
  refine .bind (.of_stays (Spares.read _).stays) fun v => ?_
  refine .bind (.of_stays (Spares.readRange _ _).stays) fun args => ?_
  cases v with
  | function c =>
    exact .bind (.of_stays Spares.heap.stays) fun _ =>
      .bind (.of_stays (spares_completeArgs _ _).stays) fun _ =>
      .bind (.newEnvironment _) fun _ => .enter _
  | builtin op =>
    dsimp only
    split
    · refine .bind (.of_stays Spares.heap.stays) fun _ => ?_
      split
      · exact .of_stays (.write _ _)
      · exact .of_stays (.throw _)
    · exact .of_stays (.throw _)
  | _ => exact .bind (.of_stays (Spares.text _).stays) fun _ => .of_stays (.throw _)

theorem createsNone_instr (i : Instr) : CreatesNone (instr i) := by
  by_cases hpush : i = .pushScope
  · subst hpush
    exact .bind (.of_stays Spares.get.stays) fun _ => .bind (.newEnvironment _) fun _ => .setEnvironment _
  by_cases hpop : i = .popScope
  · subst hpop
    refine .bind (.of_stays Spares.get.stays) fun r => ?_
    split
    · exact .setEnvironment _
    · exact .of_stays (.throw _)
  exact .of_stays (stays_instr hpush hpop (fun _ _ _ => trivial) fun _ _ _ => trivial)

end Exec

/-! ## Steps and functions -/

theorem Awaited.within {owners : Owners} {n : Extent} {resume : Resume} {as : List Activation}
    {base : Nat} (h : Awaited owners n resume as base) : ∀ a ∈ as, ∀ v ∈ a.registers, v.Within n := by
  induction h with
  | nil => nofun
  | cons _ _ hregisters _ _ _ ih =>
    refine List.forall_mem_cons.mpr ⟨fun v hv => ?_, ih⟩
    obtain ⟨i, hi, rfl⟩ := Array.getElem_of_mem hv
    exact hregisters.within (Array.getElem?_eq_getElem hi)

namespace Run

variable {r r' s : Run}

/-- A step creates one function at most. -/
theorem closures_step (h : step r = .ok none r') : r'.machine.heap.closures = r.machine.heap.closures ∨
    ∃ k, r'.machine.heap.closures = r.machine.heap.closures.push k := by
  obtain ⟨i, hi, h⟩ := step_eq_ok h
  have hinstr (h : instr i r.advance = .ok () r') : r'.machine.heap.closures = r.machine.heap.closures := by
    have hnone := createsNone_instr i r.advance
    rwa [h] at hnone
  cases i with
  | leave src =>
    obtain ⟨caller, callers, -, hstays | ⟨dst, B, t, -, hstays⟩⟩ := leave_eq_ok h
    · exact .inl hstays.heap.closures
    · exact .inr ⟨_, hstays.heap.closures⟩
  | call dst callee argc first =>
    have hnone := createsNone_call dst callee argc first r.advance
    rw [h] at hnone
    exact .inl hnone
  | newFunction dst j =>
    obtain ⟨B, -, ⟨-, r₁, t, hstays, hstays'⟩ | ⟨-, rfl⟩⟩ := newFunction_eq_ok h
    · refine .inr ⟨⟨B, r.advance.top.environment, t⟩, hstays'.heap.closures.trans ?_⟩
      show r₁.machine.heap.closures.push _ = _
      rw [hstays.heap.closures]
      rfl
    · exact .inl rfl
  | _ => exact .inl (hinstr h)

theorem size_closures_le (h : step r = .ok none r') :
    r.machine.heap.closures.size ≤ r'.machine.heap.closures.size := by
  rcases closures_step h with heq | ⟨k, heq⟩
  · rw [heq]
  · rw [heq, Array.size_push]
    exact Nat.le_succ _

theorem size_closures_le_of_goes (h : Goes r s) : r.machine.heap.closures.size ≤ s.machine.heap.closures.size := by
  obtain ⟨n, h⟩ := h
  induction n generalizing r with
  | zero => exact h ▸ le_rfl
  | succ n ih =>
    obtain ⟨r₁, hstep, hrest⟩ := h
    exact (size_closures_le hstep).trans (ih hrest)

/-- The steps from a state are one after the other. -/
theorem Goes.cases (h : Goes r s) : r = s ∨ ∃ r₁, step r = .ok none r₁ ∧ Goes r₁ s := by
  obtain ⟨n, h⟩ := h
  cases n with
  | zero => exact .inl h
  | succ n =>
    obtain ⟨r₁, hstep, hrest⟩ := h
    exact .inr ⟨r₁, hstep, n, hrest⟩

/-- The functions are still the same. -/
theorem Signed.of_closures_eq (hr : r.Signed) (h : Goes r r')
    (heq : r'.machine.heap.closures = r.machine.heap.closures) : r'.Signed := fun c hc => by
  obtain ⟨hshaped, hsealed⟩ := hr c (heq ▸ hc)
  exact ⟨hshaped, fun v hv => (hsealed v hv).of_goes h⟩

/-- There are no new functions between two states with as many functions. -/
theorem closures_eq (h : step r = .ok none r') (hgoes : Goes r' s)
    (hsize : s.machine.heap.closures.size = r.machine.heap.closures.size) :
    r'.machine.heap.closures = r.machine.heap.closures := by
  rcases closures_step h with heq | ⟨k, heq⟩
  · exact heq
  · have hle := size_closures_le_of_goes hgoes
    rw [heq, Array.size_push] at hle
    omega

/-! ## The evaluation of a signature -/

/-- While a signature is evaluated there are no new functions. -/
theorem Evaluates.step (hr : r.Evaluates) (h : step r = .ok none r') : r'.Orderly := by
  obtain ⟨hsigned, s, hgoes, hsize, hstores⟩ := hr
  rcases hgoes.cases with rfl | ⟨r₁, hstep, hgoes⟩
  · rw [Stores, h] at hstores
    exact .inl hstores
  · cases h.symm.trans hstep
    have hclosures := closures_eq h hgoes hsize
    exact .inr ⟨hsigned.of_closures_eq (.one h) hclosures, s, hgoes, hsize.trans (by rw [hclosures]), hstores⟩

/-- If the evaluation of a signature is at an end, so is that of the run. -/
theorem Evaluates.machine (hr : r.Evaluates) :
    (∀ v r', Exec.step r = .ok (some v) r' → r'.machine.Signed) ∧
      ∀ e r', Exec.step r = .error e r' → r'.machine.Signed := by
  obtain ⟨-, s, hgoes, -, hstores⟩ := hr
  rcases hgoes.cases with rfl | ⟨r₁, hstep, -⟩
  · refine ⟨fun v r' h => ?_, fun e r' h => ?_⟩
    · rw [Stores, h] at hstores
      exact hstores.elim
    · rwa [Stores, h] at hstores
  · exact ⟨fun v r' h => (nomatch h.symm.trans hstep), fun e r' h => (nomatch h.symm.trans hstep)⟩

/-! ## The creation of a function -/

/-- Nothing mentions the variables that are new after a signature has been evaluated. -/
theorem Standing.sealed_fresh (hr : r.Standing) {T : Table} {n id : Nat} (hT : r.machine.table.Declared T n)
    (hlow : r.machine.table.size ≤ id) (hhigh : id < T.size) :
    T.Sealed id ∧ r.machine.heap.Omits id ∧ (∀ v ∈ r.top.registers, v.Omits id) ∧
      ∀ a ∈ r.callers, ∀ v ∈ a.registers, v.Omits id := by
  obtain ⟨owners, pending, depths, base, D, hstands⟩ := hr
  obtain ⟨htypes, -, -, hheap, htop, hcallers⟩ := hstands.kept
  have homits {v : Value} (hv : v.Within r.machine.extent) : v.Omits id := by
    cases v with
    | type t => exact fun w hw => ((hv w hw).trans_le hlow).ne
    | _ => trivial
  have hbinding (w : Nat) : T.binding? w = r.machine.table.binding? w := by
    by_cases hw : w < r.machine.table.size
    · rw [Table.binding?, hT.old w hw, Table.binding?]
    · rw [Table.binding?_of_size_le (Nat.le_of_not_lt hw)]
      by_cases hw' : w < T.size
      · exact (hT.fresh w (Nat.le_of_not_lt hw) hw').1
      · exact Table.binding?_of_size_le (Nat.le_of_not_lt hw')
  refine ⟨⟨⟨(Table.Grows.of_binding?_eq htypes.tame hT.snapshots hT.trail hbinding).tame, hhigh,
    (hT.fresh id hlow hhigh).1, fun w t ht x hx => ?_⟩, (hT.fresh id hlow hhigh).2⟩, ⟨?_, ?_, ?_⟩, fun v hv => ?_, ?_⟩
  · exact ((htypes.known.binding w t (hbinding w ▸ ht) x hx).trans_le hlow).ne
  · intro vs hvs v hv
    obtain ⟨c, hc, rfl⟩ := Array.getElem_of_mem hvs
    refine homits (hheap.values.holds (c := .list c) ?_).within
    rwa [Heap.Holds, Heap.list, Array.getD_eq_getD_getElem?, Array.getElem?_eq_getElem hc]
  · intro fs hfs f hf
    obtain ⟨c, hc, rfl⟩ := Array.getElem_of_mem hfs
    refine homits (hheap.values.holds (c := .object c) ⟨f.1, ?_⟩).within
    rwa [Heap.object, Array.getD_eq_getD_getElem?, Array.getElem?_eq_getElem hc]
  · intro e he f hf
    obtain ⟨c, hc, rfl⟩ := Array.getElem_of_mem he
    refine homits (hheap.values.environments c f ?_).within
    rwa [Heap.environment, Array.getD_eq_getD_getElem?, Array.getElem?_eq_getElem hc]
  · obtain ⟨i, hi, rfl⟩ := Array.getElem_of_mem hv
    exact homits (htop.within (Array.getElem?_eq_getElem hi))
  · exact fun a ha v hv => homits (hcallers.within a ha v hv)

/-- The signature that the block of a function evaluates has as many parameters as the block. -/
theorem shaped_of_functionBlock {checks : Bool} {head : FnHead} {body : List Decl} {b b' : Builder} {B : Block}
    (h : Lower.functionBlock checks head (Lower.fnBody body) b = .ok B b') {t : Ty} (ht : head.signature = some t)
    (n e : Nat) : Closure.Shaped ⟨B, e, t.renewed n⟩ := by
  obtain ⟨types, result, implicit, F, hsignature, hF, rfl⟩ := Lower.functionBlock_spec h
  obtain rfl := Option.some.inj (ht.symm.trans hsignature)
  obtain ⟨-, hcount, -⟩ := Lower.functionCode_head (fun _ => Lower.safe_fnBody body _ _) hF
  have hle := Lower.parameters_le hF
  refine ⟨_, _, _, by rw [Ty.renewed, Ty.rebuilt], ?_⟩
  show (Ty.rebuiltList _ types).length = F.block.parameterCount.toNat
  rw [hcount, Ty.rebuiltList_eq, List.length_map]
  exact (UInt32.toNat_ofNat_of_lt' (by simp only [UInt32.size]; omega)).symm

/-- **The creation of a function** evaluates its signature. -/
theorem Calm.newFunction (hr : r.Calm) (hstanding : r.Standing) {dst : Register} {j : UInt32}
    (hi : r.next? = some (.newFunction dst j)) (h : step r = .ok none r') : r'.Evaluates := by
  obtain ⟨i, hi', hnew⟩ := step_eq_ok h
  cases hi.symm.trans hi'
  obtain ⟨B, hB, -⟩ := newFunction_eq_ok hnew
  have hfunction := hr.top.nested B (Array.mem_of_getElem? hB)
  obtain ⟨hfits, checks, head, body, b, b', hblock⟩ := hfunction.here
  let k : Context := ⟨r.top.block, r.top.resume, r.callers⟩
  obtain ⟨m, t, e, q, src, regs, hsignature, hgoes, hleave, hsrc, hheap, -, -, hdeclared⟩ :=
    goes_newFunctionSignature (k := k) (m := r.machine) (e := r.top.environment) (p := r.top.position)
      (fun _ _ => Lower.safe_fnBody body _ _) hblock hfits hi hB r.top.registers
  have hclosures : m.heap.closures = r.machine.heap.closures := by
    rw [hheap]
    rfl
  rcases hgoes.cases with heq | ⟨r₁, hstep, hrest⟩
  · exact absurd (congrArg (·.callers.length) heq) (Nat.succ_ne_self _).symm
  cases h.symm.trans hstep
  have hsize : m.heap.closures.size = r.machine.heap.closures.size := by rw [hclosures]
  have heq := closures_eq h hrest hsize
  refine ⟨hr.signed.of_closures_eq (.one h) heq, _, hrest, hsize.trans (by rw [heq]), ?_⟩
  have hshaped := shaped_of_functionBlock hblock hsignature r.machine.table.size r.top.environment
  have hfresh : ∀ v ∈ (t.renewed r.machine.table.size).vars, m.table.Sealed v.id ∧ r.machine.heap.Omits v.id ∧
      (∀ v' ∈ r.top.registers, v'.Omits v.id) ∧ ∀ a ∈ r.callers, ∀ v' ∈ a.registers, v'.Omits v.id := fun v hv => by
    obtain ⟨hlow, hhigh⟩ := Lower.mem_vars_renewed hv
    exact hstanding.sealed_fresh hdeclared hlow (hdeclared.size ▸ hhigh)
  let waiting := k.within B (.signature dst B) r.top.environment (r.top.position + 1) r.top.registers
  by_cases hd : dst.index < r.top.registers.size
  · have hleave : step (waiting.run m e q regs) = _ := Context.step_leave_signature hleave hsrc hd
    rw [Stores, hleave]
    refine ⟨⟨hr.top.nested, hr.top.resume⟩, hr.callers, fun c hc => ?_, fun c hc => ?_⟩
    · rcases Array.mem_push.mp hc with hc | rfl
      · exact hr.closures c (hclosures ▸ hc)
      · exact hfunction
    · rcases Array.mem_push.mp hc with hc | rfl
      · obtain ⟨hshaped, hsealed⟩ := hr.signed c (hclosures ▸ hc)
        exact ⟨hshaped, fun v hv => (hsealed v hv).of_goes (hgoes.trans (.one hleave))⟩
      · refine ⟨hshaped, fun v hv => ?_⟩
        obtain ⟨htable, homits, htop, hcallers⟩ := hfresh v hv
        refine ⟨⟨htable, ?_⟩, fun w hw => ?_, hcallers⟩
        · have homits := (homits.newEnvironment (some r.top.environment)).newEnvironment
            (some r.machine.heap.environments.size)
          rw [← hheap] at homits
          exact { homits with }
        · rcases Array.mem_or_eq_of_mem_setIfInBounds hw with hw | rfl
          · exact htop w hw
          · trivial
  · obtain ⟨f, r₂, hleave, hmachine⟩ : ∃ f r', step (waiting.run m e q regs) = .error f r' ∧ r'.machine = _ :=
      Context.step_leave_signature_error hleave hsrc hd
    rw [Stores, hleave]
    show r₂.machine.Signed
    rw [hmachine]
    intro c hc
    rcases Array.mem_push.mp hc with hc | rfl
    · exact (hr.signed.of_closures_eq hgoes hclosures).machine c hc
    · exact ⟨hshaped, fun v hv => (hfresh v hv).1.omits.known, fun v hv => (hfresh v hv).1.omits.unbound,
        fun v hv => (hfresh v hv).1.generalized⟩

/-! ## Calm states -/

/-- The blocks in the block of any function are those of functions. -/
theorem Calm.nested (hr : r.Calm) (c : Nat) :
    ∀ f ∈ (r.machine.heap.closure c).block.functions, f.Everywhere Block.OfFunction := by
  rw [Heap.closure, Array.getD_eq_getD_getElem?]
  cases hc : r.machine.heap.closures[c]? with
  | some k => exact fun f hf => (hr.closures k (Array.mem_of_getElem? hc)).nested hf
  | none => exact fun f hf => absurd hf (Array.not_mem_empty f)

/-- **A step from a calm state** leads to one, or begins with the evaluation of a signature. -/
theorem Calm.step (hr : r.Calm) (hstanding : r.Standing) (h : Exec.step r = .ok none r') : r'.Orderly := by
  obtain ⟨i, hi, hrun⟩ := step_eq_ok h
  have hcalm (htop : r'.top.Calm) (hcallers : ∀ a ∈ r'.callers, a.Calm)
      (hclosures : r'.machine.heap.closures = r.machine.heap.closures) : r'.Orderly :=
    .inl ⟨htop, hcallers, hclosures ▸ hr.closures, hr.signed.of_closures_eq (.one h) hclosures⟩
  have hinstr (hstays : i.Stays) (hrun : instr i r.advance = .ok () r') : r'.Orderly := by
    obtain ⟨hblock, hresume, hcallers, -⟩ := instr_place hstays hrun
    have hnone := createsNone_instr i r.advance
    rw [hrun] at hnone
    exact hcalm (hr.top.congr hblock hresume) (hcallers ▸ hr.callers) hnone
  cases i with
  | newFunction dst j => exact .inr (hr.newFunction hstanding hi h)
  | leave src =>
    obtain ⟨caller, callers, heq, hstays | ⟨dst, B, t, hresume, -⟩⟩ := leave_eq_ok hrun
    · have hall := hr.callers
      rw [show r.callers = caller :: callers from heq] at hall
      obtain ⟨hcaller, hcallers⟩ := List.forall_mem_cons.mp hall
      exact hcalm (hcaller.congr hstays.block hstays.resume) (hstays.callers ▸ hcallers) hstays.heap.closures
    · exact absurd hresume (hr.top.resume dst B)
  | call dst callee argc first =>
    rcases call_eq_ok hrun with ⟨c, args, r₁, -, hstays, rfl⟩ | ⟨-, hstays⟩
    · refine hcalm ⟨hr.nested c, nofun⟩ (List.forall_mem_cons.mpr ⟨?_, ?_⟩) hstays.heap.closures
      · exact hr.top.congr hstays.block hstays.resume
      · exact hstays.callers ▸ hr.callers
    · exact hcalm (hr.top.congr hstays.block hstays.resume) (hstays.callers ▸ hr.callers) hstays.heap.closures
  | _ => exact hinstr trivial hrun

/-- A step from a calm state creates no function at once, however it ends. -/
theorem Calm.closures_after (hr : r.Calm) :
    (after (Exec.step r)).machine.heap.closures = r.machine.heap.closures := by
  cases hi : r.next? with
  | none =>
    rw [Exec.step, bind_error (fetch_of_none hi)]
    rfl
  | some i =>
    rw [Exec.step, bind_ok (fetch_of_some hi)]
    have hinstr : CreatesNone (instr i >>= fun _ => (pure none : Exec (Option Value))) :=
      (createsNone_instr i).bind fun _ => .pure _
    cases i with
    | leave src =>
      show (after (leave src r.advance)).machine.heap.closures = r.machine.heap.closures
      cases hv : r.advance.top.registers[src.index]? with
      | none =>
        have hread : read src r.advance = .error (.registerOutOfRange src r.top.block.name) r.advance := by
          simp only [Exec.read, hv]
          rfl
        rw [leave, bind_error hread]
        rfl
      | some v =>
        have hread : read src r.advance = .ok v r.advance := by simp only [Exec.read, hv]
        rw [leave, bind_ok hread]
        have hresume := hr.top.resume
        obtain ⟨m, ⟨block, position, registers, environment, resume⟩, callers⟩ := r
        cases callers with
        | nil => rfl
        | cons caller callers =>
          cases resume with
          | answer => rfl
          | store dst => exact CreatesNone.bind (.of_stays (.write dst v)) (fun _ => .pure none) ⟨m, caller, callers⟩
          | signature dst B => exact absurd rfl (hresume dst B)
    | call dst callee argc first => exact (createsNone_call _ _ _ _).bind (fun _ => .pure none) r.advance
    | newFunction dst j =>
      show (after ((Exec.newFunction dst j >>= fun _ => pure none) r.advance)).machine.heap.closures =
        r.machine.heap.closures
      cases hB : r.advance.top.block.function? j with
      | none =>
        have hnested : Exec.nested j r.advance = .error (.unknownFunction j) r.advance := by simp only [Exec.nested, hB]
        rw [Exec.newFunction, bind_error (bind_error hnested)]
        rfl
      | some B =>
        have hstart := (hr.top.nested B (Array.mem_of_getElem? hB)).here.codeStart_ne_zero
        let k : Context := ⟨r.top.block, r.top.resume, r.callers⟩
        have hnew : Exec.step (k.run r.machine r.top.environment r.top.position r.top.registers) = _ :=
          Context.step_newFunction hi hB hstart
        change Exec.step r = _ at hnew
        rw [Exec.step, bind_ok (fetch_of_some hi)] at hnew
        exact congrArg (fun x => (after x).machine.heap.closures) hnew
    | _ => exact hinstr r.advance

/-- A run that ends in a calm state leaves all signatures as they are. -/
theorem Calm.machine (hr : r.Calm) :
    (∀ v r', Exec.step r = .ok (some v) r' → r'.machine.Signed) ∧
      ∀ e r', Exec.step r = .error e r' → r'.machine.Signed := by
  have hclosures := hr.closures_after
  have hsigned {m : Machine} (heq : m.heap.closures = r.machine.heap.closures)
      (h : ∀ id, r.Sealed id → m.Sealed id) : m.Signed := fun c hc => by
    obtain ⟨hshaped, hsealed⟩ := hr.signed c (heq ▸ hc)
    have htable (v) (hv : v ∈ c.signature.vars) := (h v.id (hsealed v hv)).table
    exact ⟨hshaped, fun v hv => (htable v hv).omits.known, fun v hv => (htable v hv).omits.unbound,
      fun v hv => (htable v hv).generalized⟩
  refine ⟨fun v r' h => ?_, fun e r' h => ?_⟩
  · rw [h] at hclosures
    exact hsigned hclosures fun id hid => (seals_step.ok hid h).2.machine
  · rw [h] at hclosures
    exact hsigned hclosures fun id hid => seals_step.error hid h

/-! ## Runs -/

/-- **A step** keeps a run orderly. -/
theorem Orderly.step (hr : r.Orderly) (hstanding : r.Standing) (h : Exec.step r = .ok none r') : r'.Orderly :=
  hr.elim (fun hr => hr.step hstanding h) fun hr => hr.step h

/-- A run that ends leaves all signatures as they are. -/
theorem Orderly.machine (hr : r.Orderly) :
    (∀ v r', Exec.step r = .ok (some v) r' → r'.machine.Signed) ∧
      ∀ e r', Exec.step r = .error e r' → r'.machine.Signed :=
  hr.elim Calm.machine Evaluates.machine

/-- Everything that is known about a state of a run of generated code on a new machine. -/
structure Regular (r : Run) : Prop where
  stands : r.Standing
  balanced : ∃ ss, r.Scoped 0 ss
  orderly : r.Orderly

theorem Regular.step (hr : r.Regular) (h : Exec.step r = .ok none r') : r'.Regular := by
  obtain ⟨ss, hss⟩ := hr.balanced
  have hfollows := follows_step .initial hr.stands hss
  unfold Exec.Follows at hfollows
  rw [h] at hfollows
  exact ⟨hfollows.2, ⟨_, hss.step h⟩, hr.orderly.step hr.stands h⟩

/-- The steps behind an older machine are those of the run. -/
theorem Regular.goes_behind {m : Machine} (hm : m.Clean) (hr : r.Regular) (h : Goes (r.behind m) s) :
    ∃ s' : Run, s'.Regular ∧ s = s'.behind m := by
  obtain ⟨n, h⟩ := h
  induction n generalizing r with
  | zero => exact ⟨r, hr, h.symm⟩
  | succ n ih =>
    obtain ⟨r₁, hstep, hrest⟩ := h
    obtain ⟨ss, hss⟩ := hr.balanced
    have hfollows := follows_step hm hr.stands hss
    unfold Exec.Follows at hfollows
    cases hout : Exec.step r with
    | ok out r' =>
      rw [hout] at hfollows
      cases out with
      | none =>
        cases hstep.symm.trans hfollows.1
        exact ih (hr.step hout) hrest
      | some v => exact nomatch hstep.symm.trans hfollows.1
    | error e r' =>
      rw [hout] at hfollows
      obtain ⟨-, e', -, hfails⟩ := hfollows
      cases hstep.symm.trans hfails

/-- All signatures of a machine are in order when a run on it has ended. -/
theorem Regular.finish (hr : r.Regular) {steps : Nat} {out : Except Fault Value} {m : Machine}
    (h : r.finish steps = some (out, m)) : m.Signed := by
  induction steps generalizing r with
  | zero => cases h
  | succ steps ih =>
    rw [Run.finish] at h
    cases hout : Exec.step r with
    | ok v r' =>
      rw [hout] at h
      cases v with
      | none => exact ih (hr.step hout) h
      | some v =>
        cases h
        exact hr.orderly.machine.1 v r' hout
    | error e r' =>
      rw [hout] at h
      cases h
      exact hr.orderly.machine.2 e r' hout

end Run

/-- The blocks in a generated block are those of functions. -/
theorem Block.Generated.functions {B : Block} (hB : B.Generated) :
    ∀ f ∈ B.functions, f.Everywhere Block.OfFunction := by
  obtain ⟨hfits, checks, rejected, ds, hlower⟩ := hB
  intro f hf
  have hdeclared := (Program.allocated_and_declared hlower).2 f hf
  have hfits := hfits.of_mem hf
  clear hf
  induction hdeclared with
  | intro here _ ih =>
    obtain ⟨-, head, body, b, b', hblock⟩ := here
    exact .intro ⟨hfits, checks, head, body, b, b', hblock⟩ fun g hg => ih g hg (hfits.of_mem hg)

namespace Machine

variable {m m₁ : Machine} {B : Block}

/-- The first state of a run on a new machine. -/
theorem regular_start (hB : B.Generated) : (initial.start B).Regular where
  stands := standing_start hB.filling hB.balanced
  balanced := ⟨_, (Run.Traced.start (m := Machine.initial) (B := B)).scoped grounded_initial.heap
    grounded_initial.known hB.balanced⟩
  orderly := .inl
    { top := ⟨hB.functions, nofun⟩
      callers := nofun
      closures := fun c hc => absurd hc (Array.not_mem_empty c)
      signed := fun c hc => absurd hc (Array.not_mem_empty c) }

/-- The signatures of a machine behind another one, and those of the other one. -/
theorem Signed.behind (hm : m.Signed) (h : m₁.Signed) : (m₁.behind m).Signed := by
  intro c hc
  have hclosures : (m₁.behind m).heap.closures =
      m.heap.closures ++ m₁.heap.closures.map (Closure.move m.extent) := rfl
  have hold {id : Nat} (hid : id < m.table.size) :
      (m₁.behind m).table.entries[id]? = m.table.entries[id]? := Array.getElem?_append_left hid
  rw [hclosures, Array.mem_append, Array.mem_map] at hc
  rcases hc with hc | ⟨c, hc, rfl⟩
  · obtain ⟨hshaped, hknown, hunbound, hgeneralized⟩ := hm c hc
    refine ⟨hshaped, fun v hv => ?_, fun v hv => ?_, fun v hv => ?_⟩
    · exact (hknown v hv).trans_le (by rw [Machine.behind, Table.size_behind]; exact Nat.le_add_right _ _)
    · rw [Table.binding?, hold (hknown v hv)]
      exact hunbound v hv
    · rw [Table.isGeneralized, hold (hknown v hv)]
      exact hgeneralized v hv
  · obtain ⟨⟨params, result, k, hsignature, hlength⟩, hknown, hunbound, hgeneralized⟩ := h c hc
    have hvars {v : TyVar} (hv : v ∈ (c.move m.extent).signature.vars) :
        ∃ w ∈ c.signature.vars, v.id = w.id + m.table.entries.size := by
      rw [Closure.move, Ty.vars_shift, List.mem_map] at hv
      obtain ⟨w, hw, rfl⟩ := hv
      exact ⟨w, hw, rfl⟩
    refine ⟨⟨params.map (Ty.shift m.table.size), result.shift m.table.size, k, ?_, ?_⟩, fun v hv => ?_, fun v hv => ?_,
      fun v hv => ?_⟩
    · show c.signature.shift m.table.size = _
      rw [hsignature, Ty.shift_fn]
    · rw [List.length_map]
      exact hlength
    all_goals obtain ⟨w, hw, heq⟩ := hvars hv; rw [heq, Machine.behind]
    · have hlt := hknown w hw
      show _ < (Table.behind _ _ _).size
      rw [Table.size_behind]
      omega
    · rw [Table.binding?_behind, hunbound w hw]
      rfl
    · rw [Table.isGeneralized_behind]
      exact hgeneralized w hw

/-- **The signatures of a machine** that has run generated code, with whatever outcome. -/
theorem Reached.signed (hm : m.Reached Block.Generated) : m.Signed := by
  induction hm with
  | initial => exact fun c hc => absurd hc (Array.not_mem_empty c)
  | @run m m' B steps out hm hB hrun ih =>
    have h := hm.clean.run hB steps
    have hfinish {out₁ : Except Fault Value} {m₁ : Machine} (h : Machine.initial.run steps B = some (out₁, m₁)) :=
      (regular_start hB).finish h
    split at h
    next => exact absurd (h.symm.trans hrun) nofun
    next v m₁ hinitial =>
      cases h.1.symm.trans hrun
      exact ih.behind (hfinish hinitial)
    next e m₁ hinitial =>
      obtain ⟨-, e', -, hrun'⟩ := h
      cases hrun'.symm.trans hrun
      exact ih.behind (hfinish hinitial)

/-- A state of a run of generated code is that of a run on a new machine, behind what was there before. -/
theorem Reached.goes_behind (hm : m.Reached Block.Generated) (hB : B.Generated) {r : Run} (h : Run.Goes (m.start B) r) :
    ∃ r₀ : Run, r₀.Regular ∧ r = r₀.behind m :=
  (regular_start hB).goes_behind hm.clean (hm.clean.start_behind B ▸ h)

end Machine

end Reified
