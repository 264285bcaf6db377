import Reified.Proofs.Machine.Runs
import Reified.Proofs.Simulation.Store
import Reified.Proofs.Simulation.Types

/-!
# Instructions that follow an evaluation

The instructions that look at the parts of a value, test a value or make a hole do what the
evaluation does, with the same result or the same failure.

## Main definitions

* `Follows` — an action on a run does what an evaluation does
* `Done` — a value has been left in a register

## Main results

* `simulates_getArrayIndex`, `simulates_getTupleIndex`, `simulates_getField`, …
-/

namespace Reified

/-! ## Actions -/

section follows

variable {α β : Type}

/-- What an action does to a run, an evaluation does to a store that the heap of the run shows; both
only change cells, and `Q` is what the result is known to be. -/
def FollowsAt (x : Exec α) (y : Eval α) (Q : Store → α → Prop) (ρ : Nat → Nat) (s : Store)
    (k : Context) (m : Machine) (e p : Nat) (regs : Array Value) : Prop :=
  match y s with
  | .ok a s' => ∃ h, x (k.run m e p regs) = .ok a (k.run (m.withHeap h) e p regs) ∧
      Shows ρ s' h ∧ Moves ρ s ρ s' ∧ Q s' a
  | .error (.fault f) _ => ∃ r, x (k.run m e p regs) = .error f r
  | .error .unfinished _ => False

/-- An action on a run does what an evaluation does. -/
def Follows (x : Exec α) (y : Eval α) (Q : Store → α → Prop) : Prop :=
  ∀ ⦃ρ : Nat → Nat⦄ ⦃s : Store⦄ ⦃k : Context⦄ ⦃m : Machine⦄ ⦃e p : Nat⦄ ⦃regs : Array Value⦄,
    Shows ρ s m.heap → FollowsAt x y Q ρ s k m e p regs

namespace Follows

variable {x : Exec α} {y : Eval α} {Q R : Store → α → Prop}

theorem pure {a : α} (hQ : ∀ s, Q s a) : Follows (Pure.pure a) (Pure.pure a) Q :=
  fun _ s _ m _ _ _ hs => ⟨m.heap, rfl, hs, .refl _ s, hQ s⟩

theorem fail (f : Fault) : Follows (throw f) (Eval.fail f) Q :=
  fun _ _ k m e p regs _ => ⟨k.run m e p regs, rfl⟩

theorem text (v : Value) : Follows (Exec.text v) (Eval.text v) fun _ _ => True := by
  intro ρ s k m e p regs hs
  refine ⟨m.heap, ?_, hs, .refl _ s, trivial⟩
  rw [← hs.text]
  rfl

theorem bind {f : α → Exec β} {g : α → Eval β} {R : Store → β → Prop} (hx : Follows x y Q)
    (hf : ∀ a, Follows (f a) (g a) R) : Follows (x >>= f) (y >>= g) R := by
  intro ρ s k m e p regs hs
  have h : FollowsAt x y Q ρ s k m e p regs := hx hs
  unfold FollowsAt at h ⊢
  show match EStateM.bind y g s with
    | .ok a s' => _
    | .error (.fault f) _ => _
    | .error .unfinished _ => _
  unfold EStateM.bind
  match hy : y s with
  | .ok a s₁ =>
    rw [hy] at h
    obtain ⟨h₁, hrun, hs₁, hm₁, -⟩ := h
    have h' : FollowsAt (f a) (g a) R ρ s₁ k (m.withHeap h₁) e p regs := hf a hs₁
    unfold FollowsAt at h'
    dsimp only
    rw [Exec.bind_ok hrun]
    match hg : g a s₁ with
    | .ok c s₂ =>
      rw [hg] at h'
      obtain ⟨h₂, hrun₂, hs₂, hm₂, hQ⟩ := h'
      exact ⟨h₂, hrun₂, hs₂, hm₁.trans hm₂, hQ⟩
    | .error (.fault f) s₂ =>
      rw [hg] at h'
      exact h'
    | .error .unfinished s₂ =>
      rw [hg] at h'
      exact h'
  | .error (.fault f) s₁ =>
    rw [hy] at h
    obtain ⟨r, hrun⟩ := h
    exact ⟨r, Exec.bind_error hrun⟩
  | .error .unfinished s₁ =>
    rw [hy] at h
    exact h

/-- Both look at their heaps. -/
theorem heap {f : Heap → Exec α} {g : Heap → Eval α}
    (hf : ∀ ⦃ρ : Nat → Nat⦄ ⦃s : Store⦄ ⦃k : Context⦄ ⦃m : Machine⦄ ⦃e p : Nat⦄
      ⦃regs : Array Value⦄, Shows ρ s m.heap →
      FollowsAt (f m.heap) (g s.heap) Q ρ s k m e p regs) :
    Follows (Exec.heap >>= f) (Eval.heap >>= g) Q :=
  hf

theorem index (v : Value) : Follows (Exec.index v) (Eval.index v) fun _ _ => True := by
  unfold Exec.index Eval.index
  cases v with
  | number x =>
    dsimp only
    cases x.whole? with
    | some n => exact .pure fun _ => trivial
    | none => exact .bind (.text _) fun t => .fail (.notIndex t)
  | _ => exact .bind (.text _) fun t => .fail (.notIndex t)

theorem newHole (x : Hole) :
    Follows (Exec.onHeap (·.newHole x)) (Eval.onHeap (·.newHole x)) Store.Holds := by
  intro ρ s k m e p regs hs
  refine ⟨(m.heap.newHole x).2, ?_, hs.newHole x,
    Shows.moves_cells _ rfl rfl fun _ => Nat.le_refl _, trivial⟩
  rw [Context.onHeap_run, Heap.newHole, hs.holes]

theorem item (cell position : Nat) {shown : Exec String} {shown' : Eval String}
    (hshown : Follows shown shown' fun _ _ => True) (target : Value) :
    Follows (Exec.item cell position shown target) (Eval.item cell position shown' target)
      Store.Holds := by
  refine Follows.heap fun ρ s k m e p regs hs => ?_
  rw [hs.list]
  cases hv : (s.heap.list cell)[position]? with
  | some v => exact ⟨m.heap, rfl, hs, .refl _ s, hs.holdsItem v (Array.mem_of_getElem? hv)⟩
  | none =>
    exact (Follows.bind hshown fun i => Follows.bind (.text target) fun t =>
      Follows.fail (.indexOutOfBounds i t)) hs

/-- The element of an array. -/
theorem element (c : Nat) (i : Value) :
    Follows (do Exec.item c (← Exec.index i) (Exec.text i) (.array c))
      (Eval.element (.array c) i) Store.Holds :=
  .bind (.index i) fun n => .item c n (.text i) (.array c)

/-- The element of what is no array, or the hole that waits for it. -/
theorem subscript (target i : Value) (ht : ∀ c, target ≠ .array c) :
    Follows (Exec.subscript target i) (Eval.subscript target i) Store.Holds := by
  have hother : Follows
      (if target.isTypeLevel || i.isTypeLevel then Exec.onHeap (·.newHole (.subscript target i))
        else do throw (.notIndexable (← Exec.text target) (← Exec.text i)))
      (if target.isTypeLevel || i.isTypeLevel then Eval.onHeap (·.newHole (.subscript target i))
        else do Eval.fail (.notIndexable (← Eval.text target) (← Eval.text i)))
      Store.Holds := by
    split
    · exact .newHole _
    · exact .bind (.text target) fun t => .bind (.text i) fun t' => .fail (.notIndexable t t')
  cases target with
  | array c => exact absurd rfl (ht c)
  | tuple c =>
    cases i with
    | number x => exact .bind (.index _) fun n => .item c n (.text _) (.tuple c)
    | _ => exact hother
  | object c =>
    cases i with
    | string name =>
      refine Follows.heap fun ρ s k m e p regs hs => ?_
      rw [hs.object]
      cases hv : Fields.get? name (s.heap.object c) with
      | some v => exact ⟨m.heap, rfl, hs, .refl _ s, hs.holdsField hv⟩
      | none =>
        exact (Follows.bind (.text (.object c)) fun t => Follows.fail (.missingField name t)) hs
    | _ => exact hother
  | _ => exact hother

end Follows

end follows

/-! ## Values in registers -/

/-- A value has been left in a register: the run is at a position of the same block, in the same
environment, and the registers `P` are as they were. -/
def Done (k : Context) (ρ : Nat → Nat) (s : Store) (e q : Nat) (P : Nat → Prop)
    (regs : Array Value) (dst : Register) (v : Value) (s' : Store) (r' : Run) : Prop :=
  ∃ ρ' m' regs', r' = k.run m' (ρ' e) q regs' ∧ Shows ρ' s' m'.heap ∧ Moves ρ s ρ' s' ∧
    Keeps P regs regs' ∧ regs'[dst.index]? = some v ∧ s'.Holds v

section done

variable {k : Context} {ρ ρ₁ : Nat → Nat} {s s₁ s' : Store} {m : Machine} {e p q n : Nat}
  {P Q : Nat → Prop} {regs regs₁ : Array Value} {dst r a b : Register} {i : UInt32}
  {v w target : Value} {r' : Run} {name : String}

theorem Done.mono (h : Done k ρ s e q Q regs dst v s' r') (hPQ : ∀ i, P i → Q i) :
    Done k ρ s e q P regs dst v s' r' := by
  obtain ⟨ρ', m', regs', hr, hs, hm, hkeeps, hv⟩ := h
  exact ⟨ρ', m', regs', hr, hs, hm, hkeeps.mono hPQ, hv⟩

/-- What is done after something else is done altogether. -/
theorem Done.after (hm : Moves ρ s ρ₁ s₁) (hkeeps : Keeps P regs regs₁)
    (h : Done k ρ₁ s₁ e q P regs₁ dst v s' r') : Done k ρ s e q P regs dst v s' r' := by
  obtain ⟨ρ', m', regs', hr, hs, hm', hkeeps', hv⟩ := h
  exact ⟨ρ', m', regs', hr, hs, hm.trans hm', hkeeps.trans hkeeps', hv⟩

/-- An instruction that leaves a value in a register and changes nothing else. -/
theorem Done.set (hs : Shows ρ s m.heap) (hd : dst.index < regs.size) (hv : s.Holds v) :
    Done k ρ s e q (· ≠ dst.index) regs dst v s
      (k.run m (ρ e) q (regs.setIfInBounds dst.index v)) :=
  ⟨ρ, m, _, rfl, hs, .refl ρ s, .set fun hne => hne rfl, getElem?_set hd, hv⟩

/-- An instruction that leaves the result of an action in a register. -/
theorem simulates_follows {x : Instr} {act : Exec Value} {y : Eval Value}
    (hc : k.block.code[p]? = some x) (hx : x.Stays) (hs : Shows ρ s m.heap)
    (hd : dst.index < regs.size) (hact : Follows act y Store.Holds)
    (hinstr : Exec.instr x (k.run m (ρ e) (p + 1) regs) =
      (act >>= fun v => Exec.write dst v) (k.run m (ρ e) (p + 1) regs)) :
    Simulates n (y s) (k.run m (ρ e) p regs) (Done k ρ s e (p + 1) (· ≠ dst.index) regs dst) := by
  have h : FollowsAt act y Store.Holds ρ s k m (ρ e) (p + 1) regs := hact hs
  unfold FollowsAt at h
  match hy : y s with
  | .ok v s' =>
    rw [hy] at h
    obtain ⟨h', hrun, hs', hm, hv⟩ := h
    have hstep : Exec.step (k.run m (ρ e) p regs) =
        .ok none (k.run (m.withHeap h') (ρ e) (p + 1) (regs.setIfInBounds dst.index v)) := by
      refine Context.step_instr hc hx ?_
      rw [hinstr, Exec.bind_ok hrun, Context.write_run hd]
    exact .step hstep (.ok ⟨ρ, _, _, rfl, hs', hm, .set fun hne => hne rfl, getElem?_set hd, hv⟩)
  | .error (.fault f) s' =>
    rw [hy] at h
    obtain ⟨r, hrun⟩ := h
    exact .fault (Context.step_instr_error hc hx (by rw [hinstr, Exec.bind_error hrun]))
  | .error .unfinished s' =>
    rw [hy] at h
    exact h.elim

theorem simulates_getArrayIndex (hc : k.block.code[p]? = some (.getArrayIndex dst a b))
    (ha : regs[a.index]? = some target) (hb : regs[b.index]? = some v)
    (hd : dst.index < regs.size) (hs : Shows ρ s m.heap) :
    Simulates n (Eval.element target v s) (k.run m (ρ e) p regs)
      (Done k ρ s e (p + 1) (· ≠ dst.index) regs dst) := by
  cases target with
  | array c =>
    refine simulates_follows hc trivial hs hd (Follows.element c v) ?_
    rw [Exec.instr, Exec.bind_ok (Context.read_run ha), Exec.bind_ok (Context.read_run hb),
      bind_assoc]
  | _ =>
    refine simulates_follows hc trivial hs hd
      (Follows.bind (.text _) fun t => Follows.fail (.notArray t)) ?_
    rw [Exec.instr, Exec.bind_ok (Context.read_run ha), Exec.bind_ok (Context.read_run hb)]
    rfl

theorem simulates_getTupleIndex (hc : k.block.code[p]? = some (.getTupleIndex dst a i))
    (ha : regs[a.index]? = some target) (hd : dst.index < regs.size) (hs : Shows ρ s m.heap) :
    Simulates n (Eval.tupleItem target i.toNat s) (k.run m (ρ e) p regs)
      (Done k ρ s e (p + 1) (· ≠ dst.index) regs dst) := by
  cases target with
  | tuple c =>
    refine simulates_follows hc trivial hs hd
      (Follows.item c i.toNat (.pure fun _ => trivial) (.tuple c)) ?_
    rw [Exec.instr, Exec.bind_ok (Context.read_run ha)]
  | _ =>
    refine simulates_follows hc trivial hs hd
      (Follows.bind (.text _) fun t => Follows.fail (.notTuple t)) ?_
    rw [Exec.instr, Exec.bind_ok (Context.read_run ha)]
    rfl

theorem simulates_newSubscriptHole (hc : k.block.code[p]? = some (.newSubscriptHole dst a b))
    (ha : regs[a.index]? = some target) (hb : regs[b.index]? = some v)
    (ht : ∀ c, target ≠ .array c) (hd : dst.index < regs.size) (hs : Shows ρ s m.heap) :
    Simulates n (Eval.subscript target v s) (k.run m (ρ e) p regs)
      (Done k ρ s e (p + 1) (· ≠ dst.index) regs dst) := by
  refine simulates_follows hc trivial hs hd (Follows.subscript target v ht) ?_
  rw [Exec.instr, Exec.bind_ok (Context.read_run ha), Exec.bind_ok (Context.read_run hb)]

/-- The field of an object that is known to have it. -/
theorem simulates_getField (hc : k.block.code[p]? = some (.getField dst a i))
    (hi : k.block.identifier? i = some name) (ha : regs[a.index]? = some v)
    (hd : dst.index < regs.size) (hs : Shows ρ s m.heap) :
    Simulates n (Eval.member true v name s) (k.run m (ρ e) p regs)
      (Done k ρ s e (p + 1) (· ≠ dst.index) regs dst) := by
  have hfield := hs.field? v name
  cases hf : Exec.field? s.heap v name with
  | some w =>
    rw [hf] at hfield
    have hmember : Eval.member true v name s = .ok w s := by
      rw [Eval.member_eq, hf]
      rfl
    rw [hmember]
    exact .step (Context.step_getField hc hi ha hfield hd) (.ok (.set hs hd (hs.holds_field hf)))
  | none =>
    rw [hf] at hfield
    have hmember : Eval.member true v name s = .error (.fault (.missingField name (s.shown.text v))) s := by
      rw [Eval.member_eq, hf]
      rfl
    rw [hmember, ← hs.text]
    exact .fault (Context.step_getField_error hc hi ha hfield)

end done

end Reified
