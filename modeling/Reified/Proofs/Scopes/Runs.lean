import Mathlib
import Reified.Proofs.Machine.Inside
import Reified.Proofs.Machine.Runs
import Reified.Proofs.Machine.Verified
import Reified.Proofs.Scopes.Depths

/-!
# Balanced blocks stay in their scopes

A run of balanced blocks is followed together with the environments that each block in execution has
opened and not closed. There are always as many of these as the depth of the position says. So a scope is
closed only where one is open, and a name is always defined in an environment of the block in execution:
the innermost one that it has opened, or the one with which it was entered.

These environments are all newer than the one around the block, be it that of the global names or the one
that a function has captured; so definitions never get there.

## Main definitions

* `Scopes`, `Run.scopesBy`, `Run.Traced` — the environments of the blocks in execution
* `Run.Scoped` — the invariant

## Main results

* `Run.Scoped.step` — one step
* `Run.Traced.scoped` — runs of any length
* `Program.scopes_balanced` — **generated code stays in its scopes**
-/

namespace Reified

/-! ## Following a run -/

/-- The environments of a block in execution: the one around it, the one with which it was entered, and
those that it has opened and not closed, the innermost first. -/
structure Scopes where
  outer : Nat
  entry : Nat
  opened : List Nat

/-- The environments that belong to the block in execution, the innermost first. -/
def Scopes.own (s : Scopes) : List Nat := s.opened ++ [s.entry]

namespace Run

/-- The environments of the block in execution, which are `s` before, and of its callers after an instruction
has been executed. A call of a function enters a block around which there is the environment that the
function has captured; the evaluation of a signature enters one inside the current environment. -/
def scopesBy (r r' : Run) (s : Scopes) (ss : List Scopes) : Instr → List Scopes
  | .pushScope => { s with opened := r'.top.environment :: s.opened } :: ss
  | .popScope => { s with opened := s.opened.tail } :: ss
  | .leave _ => ss
  | .call _ callee _ _ =>
    match r.top.registers[callee.index]? with
    | some (.function c) => ⟨(r.machine.heap.closure c).environment, r'.top.environment, []⟩ :: s :: ss
    | _ => s :: ss
  | .newFunction _ j =>
    match r.top.block.function? j with
    | some B =>
      if B.codeStart = 0 then s :: ss else ⟨r.top.environment, r'.top.environment, []⟩ :: s :: ss
    | none => s :: ss
  | _ => s :: ss

/-- The environments of the block in execution and of its callers after a step. -/
def scopesAfter (r r' : Run) (ss : List Scopes) : List Scopes :=
  match ss, r.next? with
  | s :: ss, some i => r.scopesBy r' s ss i
  | ss, _ => ss

/-- A state that the run of a block has come to, with the environments of the block in execution and of its
callers. -/
inductive Traced (m : Machine) (B : Block) : Run → List Scopes → Prop
  | start : Traced m B (m.start B) [⟨m.globals, (m.start B).top.environment, []⟩]
  | step {r r' : Run} {ss : List Scopes} (h : Traced m B r ss) (hstep : Exec.step r = .ok none r') :
      Traced m B r' (r.scopesAfter r' ss)

end Run

/-! ## The invariant -/

namespace Heap

/-- The functions of the heap have balanced blocks, and the environments that they have captured are
there. -/
structure Balanced (h : Heap) : Prop where
  block : ∀ c, (h.closure c).block.Everywhere Block.IsBalanced
  environment : ∀ c, (h.closure c).environment < h.environments.size

/-- A later heap, in which the environments that there were are still inside the same ones. -/
structure Later (h h' : Heap) : Prop where
  size : h.environments.size ≤ h'.environments.size
  parent : ∀ e < h.environments.size, h'.parent? e = h.parent? e

variable {h h' : Heap}

theorem Alike.later (a : h.Alike h') : h.Later h' := ⟨Nat.le_of_eq a.size.symm, fun e _ => a.parent e⟩

theorem later_newEnvironment (h : Heap) (parent : Option Nat) : h.Later (h.newEnvironment parent).2 := by
  refine ⟨?_, fun e he => ?_⟩
  · rw [size_newEnvironment]
    exact Nat.le_succ _
  · rw [parent?, environment_newEnvironment_of_lt he, parent?]

theorem Balanced.alike (hh : h.Balanced) (a : h.Alike h') : h'.Balanced := by
  have hclosure (c : Nat) : h'.closure c = h.closure c := by rw [closure, a.closures, closure]
  exact ⟨fun c => hclosure c ▸ hh.block c, fun c => by rw [hclosure, a.size]; exact hh.environment c⟩

theorem Balanced.newEnvironment (hh : h.Balanced) (parent : Option Nat) :
    (h.newEnvironment parent).2.Balanced :=
  ⟨hh.block, fun c => Nat.lt_of_lt_of_le (hh.environment c) (h.later_newEnvironment parent).size⟩

theorem Balanced.newClosure (hh : h.Balanced) {k : Closure} (hblock : k.block.Everywhere Block.IsBalanced)
    (henvironment : k.environment < h.environments.size) : (h.newClosure k).2.Balanced := by
  have hclosure (c : Nat) : (h.newClosure k).2.closure c = h.closure c ∨
      (h.newClosure k).2.closure c = k := by
    simp only [closure, Heap.newClosure, Array.getD_eq_getD_getElem?, Array.getElem?_push]
    split
    · exact .inr rfl
    · exact .inl rfl
  refine ⟨fun c => ?_, fun c => ?_⟩
  · rcases hclosure c with heq | heq <;> rw [heq]
    · exact hh.block c
    · exact hblock
  · show _ < h.environments.size
    rcases hclosure c with heq | heq <;> rw [heq]
    · exact hh.environment c
    · exact henvironment

end Heap

/-- The environments of a block in execution are inside each other and newer than the one around the block
and than that of the global names. The current one is the innermost, and as many are open as the depth of
the position says. -/
structure Activation.Scoped (globals : Nat) (h : Heap) (a : Activation) (s : Scopes) : Prop where
  nested : ∀ B ∈ a.block.functions, B.Everywhere Block.IsBalanced
  depth : ∃ depths, a.block.Balanced depths ∧ (depths a.position).scopes = s.opened.length
  current : s.own.head? = some a.environment
  inside : s.own.IsChain fun e outer => h.parent? e = some outer
  newer : ∀ e ∈ s.own, s.outer < e ∧ globals < e ∧ e < h.environments.size
  ordered : s.own.Pairwise (· > ·)
  signature : ∀ dst B, a.resume = .signature dst B → B.Everywhere Block.IsBalanced

/-- The invariant of a run with the environments of its blocks. -/
structure Run.Scoped (globals : Nat) (r : Run) (ss : List Scopes) : Prop where
  same : r.machine.globals = globals
  known : globals < r.machine.heap.environments.size
  heap : r.machine.heap.Balanced
  activations : List.Forall₂ (Activation.Scoped globals r.machine.heap) (r.top :: r.callers) ss

namespace Activation.Scoped

variable {g : Nat} {h h' : Heap} {a a' : Activation} {s : Scopes}

theorem later (ha : a.Scoped g h s) (hl : h.Later h') : a.Scoped g h' s where
  nested := ha.nested
  depth := ha.depth
  current := ha.current
  inside := ha.inside.imp_of_mem_imp fun e _ he _ hparent =>
    (hl.parent e (ha.newer e he).2.2).trans hparent
  newer e he :=
    have ⟨houter, hglobals, hlt⟩ := ha.newer e he
    ⟨houter, hglobals, Nat.lt_of_lt_of_le hlt hl.size⟩
  ordered := ha.ordered
  signature := ha.signature

/-- The same block in the same environment at another position with the same depth. -/
theorem congr (ha : a.Scoped g h s) (hblock : a'.block = a.block)
    (henvironment : a'.environment = a.environment) (hresume : a'.resume = a.resume)
    (hdepth : ∃ depths, a.block.Balanced depths ∧ (depths a'.position).scopes = s.opened.length) :
    a'.Scoped g h s :=
  ⟨hblock ▸ ha.nested, hblock ▸ hdepth, henvironment ▸ ha.current, ha.inside, ha.newer, ha.ordered,
    hresume ▸ ha.signature⟩

theorem mem_own (ha : a.Scoped g h s) : a.environment ∈ s.own := List.mem_of_mem_head? ha.current

/-- A block that is entered where nothing is open. -/
theorem enter {B : Block} (hB : B.Everywhere Block.IsBalanced) {p outer : Nat}
    (hp : p = 0 ∨ p = B.codeStart.toNat) (houter : outer < h.environments.size)
    (hg : g < h.environments.size) (args : Array Value) {resume : Resume}
    (hresume : ∀ dst B, resume = .signature dst B → B.Everywhere Block.IsBalanced) :
    (Activation.enter B p h.environments.size args resume).Scoped g (h.newEnvironment (some outer)).2
      ⟨outer, h.environments.size, []⟩ where
  nested _ := hB.nested
  depth := by
    obtain ⟨depths, hdepths⟩ := hB.here
    refine ⟨depths, hdepths, ?_⟩
    rcases hp with rfl | rfl
    · exact congrArg Depths.scopes hdepths.signature
    · exact congrArg Depths.scopes hdepths.code
  current := rfl
  inside := .singleton _
  newer e he := by
    obtain rfl := List.mem_singleton.mp he
    exact ⟨houter, hg, by rw [Heap.size_newEnvironment]; exact Nat.lt_succ_self _⟩
  ordered := List.pairwise_singleton _ _
  signature := hresume

end Activation.Scoped

namespace Run

variable {g : Nat} {r r' : Run} {s : Scopes} {ss : List Scopes}

/-- An instruction inside a scope leads to where the code goes on. -/
theorem leads_instr {i : Instr} (hstays : i.Stays) (hpush : i ≠ .pushScope) (hpop : i ≠ .popScope)
    (h : Exec.instr i r.advance = .ok () r') : i.Leads r.top.position r'.top.position := by
  have hposition := ((Exec.stays_instr (d := True) (φ := fun q => i.Leads r.top.position q) hpush hpop
    (fun _ _ _ => trivial) fun _ ht hnonneg => .target ht hnonneg).ok h).position
  refine hposition.elim (fun hnext => ?_) id
  by_cases hends : i.Ends
  · cases i with
    | leave => exact hstays.elim
    | jump t =>
      simp only [Exec.instr, Exec.jump] at h
      split at h
      next hnonneg =>
        cases h
        exact .target rfl hnonneg
      next => cases h
    | typeError | runtimeError =>
      obtain ⟨_, _, -, hthrow⟩ := Exec.bind_eq_ok h
      cases hthrow
    | _ => exact hends.elim
  · exact hnext ▸ .next hends

namespace Scoped

/-- What happens inside the block in execution, at the same position. -/
theorem stays {d : Prop} (hr : r.Scoped g ss) (h : r.Stays d (fun _ => False) r') : r'.Scoped g ss := by
  refine ⟨h.globals.trans hr.same, h.heap.size ▸ hr.known, hr.heap.alike h.heap, ?_⟩
  have hposition := h.position.resolve_right id
  cases hr.activations with
  | cons htop hcallers =>
    rw [h.callers]
    refine .cons ((htop.later h.heap.later).congr h.block h.environment h.resume ?_)
      (hcallers.imp fun _ _ ha => ha.later h.heap.later)
    rw [hposition]
    exact htop.depth

/-- The heap gets a further function. -/
theorem newClosure (hr : r.Scoped g ss) {k : Closure} (hblock : k.block.Everywhere Block.IsBalanced)
    (henvironment : k.environment < r.machine.heap.environments.size) :
    (r.withHeap (r.machine.heap.newClosure k).2).Scoped g ss := by
  have hlater : r.machine.heap.Later (r.machine.heap.newClosure k).2 := ⟨Nat.le_refl _, fun _ _ => rfl⟩
  exact ⟨hr.same, hr.known, hr.heap.newClosure hblock henvironment,
    hr.activations.imp fun _ _ ha => ha.later hlater⟩

/-- Another block is entered. -/
theorem enter (hr : r.Scoped g ss) {B : Block} (hB : B.Everywhere Block.IsBalanced) {p outer : Nat}
    (hp : p = 0 ∨ p = B.codeStart.toNat) (houter : outer < r.machine.heap.environments.size)
    (args : Array Value) {resume : Resume}
    (hresume : ∀ dst B, resume = .signature dst B → B.Everywhere Block.IsBalanced) :
    Scoped g ⟨r.machine.withHeap (r.machine.heap.newEnvironment (some outer)).2,
      .enter B p r.machine.heap.environments.size args resume, r.top :: r.callers⟩
      (⟨outer, r.machine.heap.environments.size, []⟩ :: ss) := by
  have hlater := r.machine.heap.later_newEnvironment (some outer)
  exact ⟨hr.same, Nat.lt_of_lt_of_le hr.known hlater.size, hr.heap.newEnvironment _,
    .cons (.enter hB hp houter hr.known args hresume) (hr.activations.imp fun _ _ ha => ha.later hlater)⟩

/-- The run goes on behind an instruction that does not end, or at its target. -/
theorem leads (hr : r.Scoped g (s :: ss)) {i : Instr} (hi : r.next? = some i)
    (hdepths : ∀ d e, i.depths? d = some e → e.scopes = d.scopes)
    (h : r.advance.Stays True (fun q => i.Leads r.top.position q) r')
    (hnext : r'.top.position = r.top.position + 1 → i.Leads r.top.position r'.top.position) :
    r'.Scoped g (s :: ss) := by
  refine ⟨h.globals.trans hr.same, h.heap.size ▸ hr.known, hr.heap.alike h.heap, ?_⟩
  cases hr.activations with
  | cons htop hcallers =>
    rw [h.callers]
    refine .cons ((htop.later h.heap.later).congr h.block h.environment h.resume ?_)
      (hcallers.imp fun _ _ ha => ha.later h.heap.later)
    obtain ⟨depths, hbalanced, hdepth⟩ := htop.depth
    obtain ⟨d, hd, hleads⟩ := hbalanced.step hi
    refine ⟨depths, hbalanced, ?_⟩
    rw [hleads _ (h.position.elim hnext id), hdepths _ _ hd]
    exact hdepth

/-- The position behind an instruction that does not end. -/
theorem advance (hr : r.Scoped g (s :: ss)) {i : Instr} (hi : r.next? = some i)
    (hdepths : ∀ d e, i.depths? d = some e → e.scopes = d.scopes) (hends : ¬i.Ends) :
    r.advance.Scoped g (s :: ss) :=
  hr.leads hi hdepths (.refl _) fun _ => .next hends

/-- An instruction inside a scope. -/
theorem instr (hr : r.Scoped g (s :: ss)) {i : Instr} (hi : r.next? = some i) (hstays : i.Stays)
    (hpush : i ≠ .pushScope) (hpop : i ≠ .popScope) (h : Exec.instr i r.advance = .ok () r') :
    r'.Scoped g (s :: ss) := by
  refine hr.leads hi (fun d e hd => ?_)
    ((Exec.stays_instr hpush hpop (fun _ _ _ => trivial) fun _ ht hnonneg => .target ht hnonneg).ok h) fun _ =>
      leads_instr hstays hpush hpop h
  obtain ⟨scopes, frames⟩ := d
  cases i <;> first | exact absurd rfl hpush | exact absurd rfl hpop | cases frames <;> cases hd <;> rfl

/-- A scope is opened. -/
theorem pushScope (hr : r.Scoped g (s :: ss)) (hi : r.next? = some .pushScope)
    (h : Exec.instr .pushScope r.advance = .ok () r') :
    r'.Scoped g ({ s with opened := r'.top.environment :: s.opened } :: ss) := by
  cases h
  have hlater := r.machine.heap.later_newEnvironment (some r.top.environment)
  refine ⟨hr.same, Nat.lt_of_lt_of_le hr.known hlater.size, hr.heap.newEnvironment _, ?_⟩
  cases hr.activations with
  | cons htop hcallers =>
    refine .cons ?_ (hcallers.imp fun _ _ ha => ha.later hlater)
    obtain ⟨depths, hbalanced, hdepth⟩ := htop.depth
    obtain ⟨_, ⟨⟩, hleads⟩ := hbalanced.step hi
    have htop' := htop.later hlater
    have hnew : ∀ e ∈ s.own, e < r.machine.heap.environments.size := fun e he => (htop.newer e he).2.2
    have hentry := htop.newer s.entry (List.mem_append_right _ List.mem_cons_self)
    refine ⟨htop.nested, ⟨depths, hbalanced, ?_⟩, rfl, ?_, ?_, .cons hnew htop.ordered,
      htop.signature⟩
    · show (depths (r.top.position + 1)).scopes = _
      rw [hleads _ (.next id), hdepth]
      rfl
    · have hown : s.own = r.top.environment :: s.own.tail :=
        List.eq_cons_of_mem_head? htop.current
      show List.IsChain _ (r.machine.heap.environments.size :: s.own)
      rw [hown]
      refine .cons_cons ?_ (hown ▸ htop'.inside)
      show Environment.parent _ = _
      exact congrArg Environment.parent Heap.environment_newEnvironment_self
    · refine List.forall_mem_cons.mpr ⟨⟨?_, ?_, ?_⟩, htop'.newer⟩
      · exact Nat.lt_trans hentry.1 hentry.2.2
      · exact Nat.lt_trans hentry.2.1 hentry.2.2
      · show _ < (Array.push _ _).size
        rw [Array.size_push]
        exact Nat.lt_succ_self _

/-- **Where a scope is closed, one is open**: the current environment is not the one with which the block
in execution was entered, and the environment around it belongs to the block, too. -/
theorem popScope (hr : r.Scoped g (s :: ss)) (hi : r.next? = some .popScope) :
    r.top.environment ∈ s.opened ∧ r.top.environment ≠ s.entry ∧
      ∃ outer, outer ∈ s.opened.tail ++ [s.entry] ∧
        Exec.step r = .ok none { r.advance with top := { r.advance.top with environment := outer } } ∧
        Scoped g { r.advance with top := { r.advance.top with environment := outer } }
          ({ s with opened := s.opened.tail } :: ss) := by
  have hstep (m : Machine) (top : Activation) (callers : List Activation) {outer : Nat}
      (hi : top.block.code[top.position]? = some .popScope)
      (hparent : m.heap.parent? top.environment = some outer) : Exec.step ⟨m, top, callers⟩ =
        .ok none ⟨m, { top with position := top.position + 1, environment := outer }, callers⟩ :=
    Context.step_popScope (k := ⟨top.block, top.resume, callers⟩) top.registers hi hparent
  obtain ⟨hsame, hknown, hheap, hactivations⟩ := hr
  cases hactivations with
  | cons htop hcallers =>
    obtain ⟨depths, hbalanced, hdepth⟩ := htop.depth
    obtain ⟨d, hd, hleads⟩ := hbalanced.step hi
    obtain ⟨outer, entry, opened⟩ := s
    cases opened with
    | nil =>
      -- At depth 0 closing a scope has no depths.
      rw [show depths r.top.position = ⟨0, (depths r.top.position).frames⟩ from
        Depths.ext hdepth rfl] at hd
      cases hd
    | cons e es =>
      have hdeep : depths r.top.position = ⟨es.length + 1, (depths r.top.position).frames⟩ :=
        Depths.ext hdepth rfl
      rw [hdeep] at hd
      cases hd
      obtain rfl : e = r.top.environment := Option.some.inj htop.current
      have hinside : List.IsChain _ (r.top.environment :: (es ++ [entry])) := htop.inside
      obtain ⟨hlast, hordered⟩ := List.pairwise_cons.mp
        (show List.Pairwise _ (r.top.environment :: (es ++ [entry])) from htop.ordered)
      obtain ⟨o, os, hown⟩ : ∃ o os, es ++ [entry] = o :: os :=
        List.exists_cons_of_ne_nil (List.append_ne_nil_of_right_ne_nil _ (List.cons_ne_nil _ _))
      rw [hown, List.isChain_cons_cons] at hinside
      refine ⟨List.mem_cons_self, ?_, o, hown ▸ List.mem_cons_self, hstep _ _ _ hi hinside.1, hsame,
        hknown, hheap, .cons ⟨htop.nested, ⟨depths, hbalanced, ?_⟩, ?_, ?_, fun e' he' => ?_, hordered,
          htop.signature⟩ hcallers⟩
      · exact Nat.ne_of_gt (hlast entry (List.mem_append_right _ List.mem_cons_self))
      · exact congrArg Depths.scopes (hleads _ (.next id))
      · exact congrArg List.head? hown
      · show List.IsChain _ (es ++ [entry])
        rw [hown]
        exact hinside.2
      · exact htop.newer e' (List.mem_cons_of_mem _ he')

/-- The block in execution is left. -/
theorem leave {src : Register} (hr : r.Scoped g (s :: ss)) (h : Exec.leave src r.advance = .ok none r') :
    r'.Scoped g ss := by
  obtain ⟨caller, callers, hcallers, hcases⟩ := Exec.leave_eq_ok h
  have hcallers : r.callers = caller :: callers := hcallers
  have hactivations := hr.activations
  rw [hcallers] at hactivations
  cases hactivations with
  | cons htop hactivations =>
    have hback : Scoped g ⟨r.machine, caller, callers⟩ ss := ⟨hr.same, hr.known, hr.heap, hactivations⟩
    rcases hcases with hstays | ⟨dst, B, t, hresume, hstays⟩
    · exact hback.stays hstays
    · cases hactivations with
      | cons hcaller _ =>
        exact (hback.newClosure (htop.signature dst B hresume)
          (hcaller.newer _ hcaller.mem_own).2.2).stays hstays

/-- **One step** keeps the invariant. -/
theorem step (hr : r.Scoped g ss) (h : Exec.step r = .ok none r') :
    r'.Scoped g (r.scopesAfter r' ss) := by
  obtain ⟨i, hi, hrest⟩ := Exec.step_eq_ok h
  cases ss with
  | nil => exact nomatch hr.activations
  | cons s ss =>
    have hactivations := hr.activations
    have hafter : r.scopesAfter r' (s :: ss) = r.scopesBy r' s ss i := by simp only [scopesAfter, hi]
    rw [hafter]
    cases hactivations with
    | cons htop hcallers =>
      cases i with
      | pushScope => exact hr.pushScope hi hrest
      | popScope =>
        obtain ⟨-, -, outer, -, hstep, hr'⟩ := hr.popScope hi
        rw [h] at hstep
        cases hstep
        exact hr'
      | leave src => exact hr.leave hrest
      | call dst callee argc first =>
        have hnext := hr.advance hi (fun _ _ h => by cases h; rfl) id
        rcases Exec.call_eq_ok hrest with ⟨c, args, r₁, hc, hstays, rfl⟩ | ⟨hno, hstays⟩
        · have hc : r.top.registers[callee.index]? = some (.function c) := hc
          have houter := hstays.heap.size ▸ hnext.heap.environment c
          simp only [scopesBy, hc]
          exact (hnext.stays hstays).enter (hnext.heap.block c) (.inr rfl) houter args nofun
        · simp only [scopesBy]
          split
          next c hc => exact absurd hc (hno c)
          next => exact hnext.stays hstays
      | newFunction dst j =>
        have hnext := hr.advance hi (fun _ _ h => by cases h; rfl) id
        have hcurrent := (htop.newer _ htop.mem_own).2.2
        obtain ⟨B, hB, hcases⟩ := Exec.newFunction_eq_ok hrest
        have hmem : r.top.block.function? j = some B := hB
        have hbalanced := htop.nested B (Array.mem_of_getElem? hmem)
        simp only [scopesBy, hmem]
        rcases hcases with ⟨hstart, r₁, t, hstays, hstays'⟩ | ⟨hstart, rfl⟩
        · rw [if_pos hstart]
          exact ((hnext.stays hstays).newClosure hbalanced (hstays.heap.size ▸ hcurrent)).stays hstays'
        · rw [if_neg hstart]
          refine hnext.enter hbalanced (.inl rfl) hcurrent #[] fun _ _ heq => ?_
          cases heq
          exact hbalanced
      | _ => exact hr.instr hi trivial nofun nofun hrest

end Scoped

/-! ## The machine after a run -/

end Run

/-- The functions of the heap are in order, and two environments are there, one of which is that of the
global names. -/
structure Machine.Grounded (g outer : Nat) (m : Machine) : Prop where
  heap : m.heap.Balanced
  globals : m.globals = g
  known : g < m.heap.environments.size
  outer : outer < m.heap.environments.size

theorem Machine.Grounded.global {g : Nat} (outer : Nat) {m : Machine} (h : m.Grounded g outer) : m.Grounded g g :=
  ⟨h.1, h.2, h.3, h.3⟩

namespace Exec

variable {α β : Type} {g outer : Nat} {x : Exec α} {f : α → Exec β}

/-- The run that an action leaves behind, also if it fails. -/
def after : EStateM.Result Fault Run α → Run
  | .ok _ r => r
  | .error _ r => r

/-- The action keeps the machine in order. -/
def Upholds (g outer : Nat) (x : Exec α) : Prop :=
  ∀ r, r.machine.Grounded g outer → (after (x r)).machine.Grounded g outer

namespace Upholds

theorem bind (hx : Upholds g outer x) (hf : ∀ a, Upholds g outer (f a)) : Upholds g outer (x >>= f) := by
  intro r hr
  have h := hx r hr
  cases hxr : x r with
  | ok a r₁ =>
    rw [hxr] at h
    rw [bind_ok hxr]
    exact hf a r₁ h
  | error e r₁ =>
    rw [hxr] at h
    rw [bind_error hxr]
    exact h

theorem fails {r r' : Run} (hr : r.machine.Grounded g outer) (h : r.Fails r') :
    r'.machine.Grounded g outer :=
  ⟨hr.heap.alike h.heap, h.globals.trans hr.globals, h.heap.size ▸ hr.known, h.heap.size ▸ hr.outer⟩

theorem of_stays (hx : Stays True (fun _ => True) x) : Upholds g outer x := by
  intro r hr
  cases hxr : x r with
  | ok a r' => exact fails hr (hx.ok hxr).fails
  | error e r' => exact fails hr (hx.error hxr)

theorem ite {c : Prop} [Decidable c] {x y : Exec α} (hx : Upholds g outer x) (hy : Upholds g outer y) :
    Upholds g outer (if c then x else y) := by
  split
  · exact hx
  · exact hy

theorem pure (a : α) : Upholds g outer (Pure.pure a : Exec α) := fun _ hr => hr

theorem newEnvironment (parent : Option Nat) : Upholds g outer (onHeap (·.newEnvironment parent)) :=
  fun r hr =>
    have hle := (r.machine.heap.later_newEnvironment parent).size
    ⟨hr.heap.newEnvironment parent, hr.globals, Nat.lt_of_lt_of_le hr.known hle,
      Nat.lt_of_lt_of_le hr.outer hle⟩

/-- A new function of a balanced block in the other environment. -/
theorem createClosure {B : Block} (hB : B.Everywhere Block.IsBalanced) (dst : Register) (t : Ty) :
    Upholds g outer (create dst (·.newClosure ⟨B, outer, t⟩)) :=
  bind (fun _ hr => ⟨hr.heap.newClosure hB hr.outer, hr.globals, hr.known, hr.outer⟩)
    fun _ => of_stays (.write _ _)

theorem enter (a : Activation) : Upholds g outer (enter a) := fun _ hr => ⟨hr.1, hr.2, hr.3, hr.4⟩

theorem setEnvironment (e : Nat) : Upholds g outer (setEnvironment e) :=
  fun _ hr => ⟨hr.1, hr.2, hr.3, hr.4⟩

end Upholds

theorem upholds_call (dst callee : Register) (argc : UInt32) (first : Register) :
    Upholds g outer (call dst callee argc first) := by
  refine .bind (.of_stays (Spares.read _).stays) fun v => ?_
  refine .bind (.of_stays (Spares.readRange _ _).stays) fun args => ?_
  cases v with
  | function c =>
    exact .bind (.of_stays Spares.heap.stays) fun _ =>
      .bind (.of_stays (spares_completeArgs _ _).stays) fun _ =>
      .bind (.newEnvironment _) fun _ => .enter _
  | builtin op =>
    dsimp only
    split
    · refine .bind (.of_stays Spares.heap.stays) fun _ => ?_
      split
      · exact .of_stays (.write _ _)
      · exact .of_stays (.throw _)
    · exact .of_stays (.throw _)
  | _ => exact .bind (.of_stays (Spares.text _).stays) fun _ => .of_stays (.throw _)

theorem upholds_instr (i : Instr) : Upholds g outer (instr i) := by
  by_cases hpush : i = .pushScope
  · subst hpush
    exact .bind (.of_stays Spares.get.stays) fun _ => .bind (.newEnvironment _) fun _ => .setEnvironment _
  by_cases hpop : i = .popScope
  · subst hpop
    refine .bind (.of_stays Spares.get.stays) fun r => ?_
    split
    · exact .setEnvironment _
    · exact .of_stays (.throw _)
  exact .of_stays (stays_instr hpush hpop (fun _ _ _ => trivial) fun _ _ _ => trivial)

end Exec

namespace Run

variable {g : Nat} {r r' : Run} {s : Scopes} {ss : List Scopes}

namespace Scoped

/-- What is known about the machine while a block is executed in an environment. -/
theorem machine (hr : r.Scoped g ss) {outer : Nat} (h : outer < r.machine.heap.environments.size) :
    r.machine.Grounded g outer :=
  ⟨hr.heap, hr.same, hr.known, h⟩

theorem grounded_newFunction (hr : r.Scoped g (s :: ss)) (dst : Register) (j : UInt32) :
    (Exec.after (Exec.newFunction dst j r.advance)).machine.Grounded g g := by
  cases hr.activations with
  | cons htop _ =>
  have hm := hr.machine (htop.newer _ htop.mem_own).2.2
  refine Machine.Grounded.global r.top.environment ?_
  cases hB : r.advance.top.block.function? j with
  | none =>
    have hnested : Exec.nested j r.advance = .error (.unknownFunction j) r.advance := by
      simp only [Exec.nested, hB]
    rw [Exec.newFunction, Exec.bind_error hnested]
    exact hm
  | some B =>
    have hnested : Exec.nested j r.advance = .ok B r.advance := by simp only [Exec.nested, hB]
    have hbalanced := htop.nested B (Array.mem_of_getElem? hB)
    rw [Exec.newFunction, Exec.bind_ok hnested, Exec.bind_ok (Exec.get_run r.advance)]
    refine Exec.Upholds.ite ?_ ?_ r.advance hm
    · exact .bind (.of_stays (Exec.spares_freshVars _ _).stays) fun _ =>
        .bind (.of_stays Exec.spares_freshVar.stays) fun _ => .createClosure hbalanced dst _
    · exact .bind (.newEnvironment _) fun _ => .enter _

theorem grounded_leave (hr : r.Scoped g (s :: ss)) (src : Register) :
    (Exec.after (Exec.leave src r.advance)).machine.Grounded g g := by
  have hm := hr.machine hr.known
  cases hv : r.advance.top.registers[src.index]? with
  | none =>
    have hread : Exec.read src r.advance =
        .error (.registerOutOfRange src r.top.block.name) r.advance := by
      simp only [Exec.read, hv]
      rfl
    rw [Exec.leave, Exec.bind_error hread]
    exact hm
  | some v =>
    have hread : Exec.read src r.advance = .ok v r.advance := by simp only [Exec.read, hv]
    rw [Exec.leave, Exec.bind_ok hread]
    have hactivations := hr.activations
    obtain ⟨m, ⟨block, position, registers, environment, resume⟩, callers⟩ := r
    cases callers with
    | nil => exact hm
    | cons caller callers =>
      cases resume with
      | answer => exact hm
      | store dst =>
        exact Exec.Upholds.bind (.of_stays (.write dst v)) (fun _ => .pure none)
          (⟨m, caller, callers⟩ : Run) hm
      | signature dst B =>
        cases hactivations with
        | cons htop hcallers =>
          cases hcallers with
          | cons hcaller _ =>
            have hbalanced := htop.signature dst B rfl
            have hm' : Machine.Grounded g caller.environment m :=
              ⟨hm.1, hm.2, hm.3, (hcaller.newer _ hcaller.mem_own).2.2⟩
            refine Machine.Grounded.global caller.environment ?_
            cases v with
            | type t =>
              exact Exec.Upholds.bind (.createClosure hbalanced dst t) (fun _ => .pure none)
                (⟨m, caller, callers⟩ : Run) hm'
            | _ =>
              have hfail (e : Fault) : Exec.Upholds g caller.environment (throw e : Exec (Option Value)) :=
                .of_stays (.throw e)
              exact Exec.Upholds.bind (.of_stays (Exec.Spares.text _).stays) (fun _ => hfail _)
                (⟨m, caller, callers⟩ : Run) hm'

/-- Whatever a step ends with, the machine is in order. -/
theorem grounded (hr : r.Scoped g ss) : (Exec.after (Exec.step r)).machine.Grounded g g := by
  have hm := hr.machine hr.known
  cases hi : r.next? with
  | none =>
    have hfetch : Exec.fetch r = .error (.pointerOutOfRange r.top.position r.top.block.name) r := by
      have hi : r.top.block.code[r.top.position]? = none := hi
      simp only [Exec.fetch, hi]
    rw [Exec.step, Exec.bind_error hfetch]
    exact hm
  | some i =>
    have hfetch : Exec.fetch r = .ok i r.advance := by
      have hi : r.top.block.code[r.top.position]? = some i := hi
      simp only [Exec.fetch, hi]
      rfl
    rw [Exec.step, Exec.bind_ok hfetch]
    cases ss with
    | nil => cases hr.activations
    | cons s ss =>
      -- Where the run goes on does not matter for what an instruction does to the machine.
      cases i with
      | leave src => exact hr.grounded_leave src
      | call dst callee argc first =>
        exact Exec.Upholds.bind (Exec.upholds_call _ _ _ _) (fun _ => .pure _) r.advance hm
      | newFunction dst j =>
        have h := hr.grounded_newFunction dst j
        show (Exec.after ((Exec.newFunction dst j >>= fun _ => pure none) r.advance)).machine.Grounded g g
        cases hcreate : Exec.newFunction dst j r.advance with
        | ok _ r' =>
          rw [hcreate] at h
          rw [Exec.bind_ok hcreate]
          exact h
        | error e r' =>
          rw [hcreate] at h
          rw [Exec.bind_error hcreate]
          exact h
      | _ => exact Exec.Upholds.bind (Exec.upholds_instr _) (fun _ => .pure _) r.advance hm

end Scoped

/-- **A run of balanced blocks** keeps the invariant, however long it is. -/
theorem Traced.scoped {m : Machine} {B : Block} (hm : m.heap.Balanced)
    (hglobals : m.globals < m.heap.environments.size) (hB : B.Everywhere Block.IsBalanced)
    (h : Traced m B r ss) : r.Scoped m.globals ss := by
  induction h with
  | start =>
    refine ⟨rfl, ?_, hm.newEnvironment _, .cons (.enter hB (.inr rfl) hglobals hglobals #[] nofun) .nil⟩
    exact Nat.lt_of_lt_of_le hglobals (m.heap.later_newEnvironment _).size
  | step _ hstep ih => exact ih.step hstep

/-- The machine is in order when the run has ended. -/
theorem Scoped.finish (hr : r.Scoped g ss) {steps : Nat} {out : Except Fault Value} {m : Machine}
    (h : r.finish steps = some (out, m)) : m.Grounded g g := by
  induction steps generalizing r ss with
  | zero => cases h
  | succ steps ih =>
    have hgrounded := hr.grounded
    rw [Run.finish] at h
    split at h
    next r' heq => exact ih (hr.step heq) h
    next v r' heq =>
      rw [heq] at hgrounded
      cases h
      exact hgrounded
    next e r' heq =>
      rw [heq] at hgrounded
      cases h
      exact hgrounded

end Run

/-! ## Generated code -/

namespace Machine

variable {m : Machine} {B : Block}

theorem grounded_initial : initial.Grounded 0 0 := by
  have hdefine (e : Nat) (ops : List Operator) (h : Heap) (hh : h.Balanced) :
      (defineOperators e ops h).Balanced ∧
        (defineOperators e ops h).environments.size = h.environments.size := by
    induction ops generalizing h with
    | nil => exact ⟨hh, rfl⟩
    | cons op ops ih =>
      obtain ⟨hb, hsize⟩ := ih _ (hh.alike (h.alike_define e op.symbol (.builtin op)))
      exact ⟨hb, hsize.trans Heap.size_define⟩
  have hempty : (Heap.empty.newEnvironment none).2.Balanced := by
    have hclosure (c : Nat) : (Heap.empty.newEnvironment none).2.closure c = default := by
      simp [Heap.closure, Heap.newEnvironment, Heap.empty]
    have hnone (p : Nat) : (default : Block).code[p]? = none := rfl
    refine ⟨fun c => ?_, fun c => ?_⟩
    · rw [hclosure]
      exact .intro ⟨fun _ => ⟨0, 0⟩, rfl, rfl, fun {p _} h => absurd (h.symm.trans (hnone p)) (Option.some_ne_none _)⟩
        fun f hf => absurd hf (Array.not_mem_empty f)
    · rw [hclosure]
      exact Nat.zero_lt_one
  obtain ⟨hb, hsize⟩ := hdefine 0 Operator.all _ hempty
  have hlt : 0 < (defineOperators 0 Operator.all (Heap.empty.newEnvironment none).2).environments.size :=
    hsize.symm ▸ Nat.zero_lt_one
  exact ⟨hb, rfl, hlt, hlt⟩

theorem Reached.grounded (hm : m.Reached fun B => B.Everywhere Block.IsBalanced) :
    m.Grounded m.globals m.globals := by
  induction hm with
  | initial => exact grounded_initial
  | run _ hB hrun ih =>
    have h := (Run.Traced.scoped ih.heap ih.known hB .start).finish hrun
    rw [h.globals]
    exact h

end Machine

/-- The block is that of a program, and its positions can be operands. -/
def Block.Generated (B : Block) : Prop :=
  B.Fits ∧ ∃ (checks : Bool) (rejected : List Nat) (ds : Program), ds.lower checks rejected = .ok B

theorem Block.Generated.balanced {B : Block} (h : B.Generated) : B.Everywhere IsBalanced := by
  obtain ⟨hfits, checks, rejected, ds, hlower⟩ := h
  exact Program.balanced_of_lower hlower hfits

end Reified
