import Reified.Proofs.Simulation.Actions
import Reified.Proofs.Table.Resolve

/-!
# Tests of the type of a value

To find the type of a value never fails, and changes nothing but the type variables. What class of
type it is can be seen from the value.

## Main definitions

* `Infers` — an action that changes nothing but type variables
* `Value.tyClass` — the class of the type of a value
* `TyClass.IsForm` — the classes of outermost forms

## Main results

* `Context.step_checkTypeOf`, `Shows.step_checkTypeOf` — a test of the type of a value
-/

namespace Reified

/-- The class of the type of a value. About a hole nothing is known. -/
def Value.tyClass : Value → TyClass
  | .unit | .bool _ | .number _ | .string _ | .type _ => .name
  | .array _ => .array
  | .tuple _ => .tuple
  | .object _ => .record
  | .function _ | .builtin _ => .function
  | .hole _ => .var

/-- The class is that of an outermost form of types other than a variable. -/
def TyClass.IsForm : TyClass → Prop
  | .anyValue | .anyType | .var | .hole => False
  | .name | .array | .tuple | .record | .function | .union | .binding => True

/-- On a machine with the given heap, the action succeeds and changes nothing but type variables;
`Q` is what the result is known to be. -/
def Infers {α : Type} (h : Heap) (x : Exec α) (Q : α → Prop) : Prop :=
  ∀ ⦃k : Context⦄ ⦃m : Machine⦄ ⦃e p : Nat⦄ ⦃regs : Array Value⦄, m.heap = h →
    ∃ a m', x (k.run m e p regs) = .ok a (k.run m' e p regs) ∧ m'.heap = h ∧ Q a

namespace Infers

variable {α β : Type} {h : Heap} {x : Exec α} {Q : α → Prop} {R : β → Prop}

theorem pure {a : α} (ha : Q a) : Infers h (Pure.pure a) Q :=
  fun _ m _ _ _ hm => ⟨a, m, rfl, hm, ha⟩

theorem bind {f : α → Exec β} (hx : Infers h x Q) (hf : ∀ a, Q a → Infers h (f a) R) :
    Infers h (x >>= f) R := by
  intro k m e p regs hm
  obtain ⟨a, m₁, hrun, hm₁, ha⟩ := hx hm
  rw [Exec.bind_ok hrun]
  exact hf a ha hm₁

theorem mono {Q' : α → Prop} (hx : Infers h x Q) (hQ : ∀ a, Q a → Q' a) : Infers h x Q' := by
  intro k m e p regs hm
  obtain ⟨a, m', hrun, hm', ha⟩ := @hx k m e p regs hm
  exact ⟨a, m', hrun, hm', hQ a ha⟩

theorem heap {f : Heap → Exec α} (hf : Infers h (f h) Q) : Infers h (Exec.heap >>= f) Q := by
  intro k m e p regs hm
  obtain ⟨a, m', hrun, hm', ha⟩ := @hf k m e p regs hm
  refine ⟨a, m', ?_, hm', ha⟩
  rw [Exec.bind_ok Context.heap_run, hm, hrun]

theorem freshVar : Infers h Exec.freshVar fun t => t.tyClass = .var :=
  fun _ _ _ _ _ hm => ⟨_, _, rfl, hm, rfl⟩

theorem instantiate_fn (ps : List Ty) (r : Ty) (n : Nat) :
    Infers h (Exec.instantiate (.fn ps r n)) fun t => t.tyClass = .function :=
  fun _ _ _ _ _ hm => ⟨_, _, rfl, hm, rfl⟩

theorem instantiate (t : Ty) : Infers h (Exec.instantiate t) fun _ => True :=
  fun _ _ _ _ _ hm => ⟨_, _, rfl, hm, trivial⟩

theorem mapM {γ : Type} {f : γ → Exec α} : (xs : List γ) → (∀ x ∈ xs, Infers h (f x) fun _ => True) →
    Infers h (xs.mapM f) fun _ => True
  | [], _ => by
    rw [List.mapM_nil]
    exact .pure trivial
  | x :: xs, hf => by
    rw [List.mapM_cons]
    exact .bind (hf x List.mem_cons_self) fun _ _ =>
      .bind (mapM xs fun y hy => hf y (List.mem_cons_of_mem x hy)) fun _ _ => .pure trivial

/-- The type of a value is always found. -/
theorem typeOfWithin (n : Nat) (v : Value) : Infers h (Exec.typeOfWithin n v) fun _ => True := by
  induction n generalizing v with
  | zero =>
    cases v with
    | builtin op => exact .bind .freshVar fun _ _ => .pure trivial
    | function c => exact .heap (.instantiate _)
    | array c => exact freshVar.mono fun _ _ => trivial
    | tuple c => exact freshVar.mono fun _ _ => trivial
    | object c => exact freshVar.mono fun _ _ => trivial
    | hole c => exact freshVar.mono fun _ _ => trivial
    | _ => exact .pure trivial
  | succ n ih =>
    cases v with
    | builtin op => exact .bind .freshVar fun _ _ => .pure trivial
    | function c => exact .heap (.instantiate _)
    | hole c => exact freshVar.mono fun _ _ => trivial
    | array c =>
      refine .heap ?_
      split
      · exact .bind (ih _) fun _ _ => .pure trivial
      · exact .bind .freshVar fun _ _ => .pure trivial
    | tuple c => exact .heap (.bind (.mapM _ fun v _ => ih v) fun _ _ => .pure trivial)
    | object c =>
      exact .heap (.bind (.mapM _ fun f _ => .bind (ih f.2) fun _ _ => .pure trivial)
        fun _ _ => .pure trivial)
    | _ => exact .pure trivial

/-- A function of the heap has the type of a function. -/
theorem typeOf {v : Value} (hv : ∀ c, v = .function c → ∃ ps r n, (h.closure c).signature = .fn ps r n) :
    Infers h (Exec.typeOf v) fun t => t.tyClass = v.tyClass := by
  refine .heap ?_
  rw [Heap.depth]
  cases v with
  | builtin op => exact .bind .freshVar fun _ _ => .pure rfl
  | function c =>
    obtain ⟨ps, r, n, hsignature⟩ := hv c rfl
    refine .heap ?_
    rw [hsignature]
    exact .instantiate_fn ps r n
  | hole c => exact .freshVar
  | array c =>
    refine .heap ?_
    split
    · exact .bind (.typeOfWithin _ _) fun _ _ => .pure rfl
    · exact .bind .freshVar fun _ _ => .pure rfl
  | tuple c => exact .heap (.bind (.mapM _ fun v _ => .typeOfWithin _ v) fun _ _ => .pure rfl)
  | object c =>
    exact .heap (.bind (.mapM _ fun f _ => .bind (.typeOfWithin _ f.2) fun _ _ => .pure trivial)
      fun _ _ => .pure rfl)
  | _ => exact .pure rfl

theorem resolve {t : Ty} (ht : t.tyClass ≠ .var) :
    Infers h (Exec.resolve t) fun t' => t' = t := by
  intro k m e p regs hm
  refine ⟨t, m, ?_, hm, rfl⟩
  have hresolve : m.table.resolve t = (t, m.table) := by
    refine Table.resolve_of_not_var fun v hv => ht ?_
    rw [hv]
    rfl
  unfold Exec.resolve Exec.onTable Context.run
  dsimp only
  rw [hresolve]

/-- Of what form the type of a value is can be seen from the value. -/
theorem checkTypeOf {v : Value} {expected : TyClass}
    (hv : ∀ c, v = .function c → ∃ ps r n, (h.closure c).signature = .fn ps r n)
    (hexpected : expected.IsForm) :
    Infers h (Exec.checkTypeOf expected v) fun b => b = decide (v.tyClass = expected) := by
  have hrest : v.tyClass ≠ .var →
      Infers h (do return decide ((← Exec.resolve (← Exec.typeOf v)).tyClass = expected))
        fun b => b = decide (v.tyClass = expected) := fun hne =>
    .bind (.typeOf hv) fun t ht => .bind (.resolve (ht ▸ hne)) fun t' ht' => .pure (by rw [ht', ht])
  cases expected with
  | anyValue | anyType | var | hole => exact hexpected.elim
  | _ =>
    cases v with
    | hole c => exact .pure rfl
    | _ => exact hrest (by simp [Value.tyClass])

end Infers

/-- A test of the class of the type of a value. -/
theorem Context.step_checkTypeOf {k : Context} {m : Machine} {e p : Nat} {regs : Array Value} {dst r : Register}
    {v : Value} {expected : TyClass}
    (hfn : ∀ c, v = .function c → ∃ ps r n, (m.heap.closure c).signature = .fn ps r n)
    (hexpected : expected.IsForm) (hc : k.block.code[p]? = some (.checkTypeOf dst r expected))
    (hr : regs[r.index]? = some v) (hd : dst.index < regs.size) :
    ∃ m', m'.heap = m.heap ∧ Exec.step (k.run m e p regs) =
      .ok none (k.run m' e (p + 1)
        (regs.setIfInBounds dst.index (.bool (decide (v.tyClass = expected))))) := by
  obtain ⟨b, m', hrun, hm', rfl⟩ :=
    @Infers.checkTypeOf m.heap v expected hfn hexpected k m e (p + 1) regs rfl
  refine ⟨m', hm', Context.step_instr hc trivial ?_⟩
  rw [Exec.instr, Exec.bind_ok (Context.read_run hr), Exec.bind_ok hrun, Context.write_run hd]

/-- A test of the type of a value. -/
theorem Shows.step_checkTypeOf {ρ : Nat → Nat} {s : Store} {k : Context} {m : Machine} {e p : Nat}
    {regs : Array Value} {dst r : Register} {v : Value} {expected : TyClass}
    (hs : Shows ρ s m.heap) (hv : s.Holds v)
    (hexpected : expected = .function ∨ expected = .array)
    (hc : k.block.code[p]? = some (.checkTypeOf dst r expected))
    (hr : regs[r.index]? = some v) (hd : dst.index < regs.size) :
    ∃ m', m'.heap = m.heap ∧ Exec.step (k.run m e p regs) =
      .ok none (k.run m' e (p + 1)
        (regs.setIfInBounds dst.index (.bool (decide (v.tyClass = expected))))) := by
  refine Context.step_checkTypeOf ?_ (by rcases hexpected with rfl | rfl <;> trivial) hc hr hd
  rintro c rfl
  have hf := Array.getElem?_eq_getElem (show c < s.functions.size from hv)
  obtain ⟨ps, r, hsignature⟩ := (hs.compiled hf).signature
  exact ⟨ps, r, 0, hsignature⟩

end Reified
