import Reified.Machine.Step

/-!
# Steps of a block

What one step of a machine does, instruction by instruction, for a block in execution of which the
environment, the position and the registers are known.

## Main definitions

* `Context`, `Context.run` — a block in execution
* `Machine.withHeap` — a machine with another heap

## Main results

* `Context.step_instr`, `Context.step_instr_error` — the instructions that stay in the block
* `Context.step_move`, `Context.step_getLocal`, … — the instructions one by one
-/

namespace Reified

/-! ## Actions on a run -/

namespace Exec

variable {α β : Type} {x : Exec α} {f : α → Exec β} {r r₁ : Run}

theorem bind_ok {a : α} (h : x r = .ok a r₁) : (x >>= f) r = f a r₁ := by
  show EStateM.bind x f r = _
  rw [EStateM.bind, h]

theorem bind_error {e : Fault} (h : x r = .error e r₁) : (x >>= f) r = .error e r₁ := by
  show EStateM.bind x f r = _
  rw [EStateM.bind, h]

theorem pure_run (a : α) (r : Run) : (pure a : Exec α) r = .ok a r := rfl

theorem get_run (r : Run) : (get : Exec Run) r = .ok r r := rfl

theorem throw_run (e : Fault) (r : Run) : (throw e : Exec α) r = .error e r := rfl

end Exec

/-! ## A block in execution -/

/-- What stays the same while the code of a block is executed. -/
structure Context where
  block : Block
  resume : Resume
  callers : List Activation

/-- The state of a run in which the block is at a position. -/
def Context.run (k : Context) (m : Machine) (environment position : Nat)
    (registers : Array Value) : Run :=
  ⟨m, ⟨k.block, position, registers, environment, k.resume⟩, k.callers⟩

/-- The machine with another heap. -/
def Machine.withHeap (m : Machine) (h : Heap) : Machine := { m with heap := h }

@[simp] theorem Machine.heap_withHeap (m : Machine) (h : Heap) : (m.withHeap h).heap = h := rfl

/-- The instruction neither leaves the block nor calls nor creates a function. -/
def Instr.Stays : Instr → Prop
  | .leave _ | .call .. | .newFunction .. => False
  | _ => True

namespace Context

variable {k : Context} {m : Machine} {e p q : Nat} {regs : Array Value} {dst r a b : Register}
  {i : UInt32} {t : Int32} {v w : Value} {name : String} {α : Type}

/-! ## The parts of a step -/

theorem fetch_run {x : Instr} (h : k.block.code[p]? = some x) :
    Exec.fetch (k.run m e p regs) = .ok x (k.run m e (p + 1) regs) := by
  simp only [Exec.fetch, run, h]

theorem read_run (h : regs[r.index]? = some v) :
    Exec.read r (k.run m e p regs) = .ok v (k.run m e p regs) := by
  simp only [Exec.read, run, h]

theorem write_run (h : dst.index < regs.size) :
    Exec.write dst v (k.run m e p regs) =
      .ok () (k.run m e p (regs.setIfInBounds dst.index v)) := by
  simp only [Exec.write, run, h, if_true]

theorem identifier_run (h : k.block.identifier? i = some name) :
    Exec.identifier i (k.run m e p regs) = .ok name (k.run m e p regs) := by
  simp only [Exec.identifier, run, h]

theorem constant_run {c : Constant} (h : k.block.constant? i = some c) :
    Exec.constant i (k.run m e p regs) = .ok c.value (k.run m e p regs) := by
  simp only [Exec.constant, run, h]

theorem jump_run (h : t.toInt = q) :
    Exec.jump t (k.run m e p regs) = .ok () (k.run m e q regs) := by
  simp only [Exec.jump, run, h, Int.natCast_nonneg, if_true, Int.toNat_natCast]

theorem onHeap_run (f : Heap → α × Heap) :
    Exec.onHeap f (k.run m e p regs) =
      .ok (f m.heap).1 (k.run (m.withHeap (f m.heap).2) e p regs) := rfl

theorem heap_run : Exec.heap (k.run m e p regs) = .ok m.heap (k.run m e p regs) := rfl

theorem text_run : Exec.text v (k.run m e p regs) = .ok (m.heap.text v) (k.run m e p regs) := rfl

theorem setEnvironment_run (e' : Nat) :
    Exec.setEnvironment e' (k.run m e p regs) = .ok () (k.run m e' p regs) := rfl

theorem create_run {f : Heap → Value × Heap} (h : dst.index < regs.size) :
    Exec.create dst f (k.run m e p regs) =
      .ok () (k.run (m.withHeap (f m.heap).2) e p
        (regs.setIfInBounds dst.index (f m.heap).1)) := by
  rw [Exec.create, Exec.bind_ok (onHeap_run f), write_run h]

/-- The instructions that stay in the block are executed after the position has moved on. -/
theorem step_instr {x : Instr} {r' : Run} (hc : k.block.code[p]? = some x) (hx : x.Stays)
    (h : Exec.instr x (k.run m e (p + 1) regs) = .ok () r') :
    Exec.step (k.run m e p regs) = .ok none r' := by
  rw [Exec.step, Exec.bind_ok (fetch_run hc)]
  cases x with
  | leave | call | newFunction => exact hx.elim
  | _ => exact Exec.bind_ok h

theorem step_instr_error {x : Instr} {f : Fault} {r' : Run} (hc : k.block.code[p]? = some x)
    (hx : x.Stays) (h : Exec.instr x (k.run m e (p + 1) regs) = .error f r') :
    Exec.step (k.run m e p regs) = .error f r' := by
  rw [Exec.step, Exec.bind_ok (fetch_run hc)]
  cases x with
  | leave | call | newFunction => exact hx.elim
  | _ => exact Exec.bind_error h

/-! ## Registers, names and jumps -/

theorem step_move (hc : k.block.code[p]? = some (.move dst r)) (hr : regs[r.index]? = some v)
    (hd : dst.index < regs.size) :
    Exec.step (k.run m e p regs) =
      .ok none (k.run m e (p + 1) (regs.setIfInBounds dst.index v)) := by
  refine step_instr hc trivial ?_
  rw [Exec.instr, Exec.bind_ok (read_run hr), write_run hd]

theorem step_loadConstant {c : Constant} (hc : k.block.code[p]? = some (.loadConstant dst i))
    (hi : k.block.constant? i = some c) (hd : dst.index < regs.size) :
    Exec.step (k.run m e p regs) =
      .ok none (k.run m e (p + 1) (regs.setIfInBounds dst.index c.value)) := by
  refine step_instr hc trivial ?_
  rw [Exec.instr, Exec.bind_ok (constant_run hi), write_run hd]

theorem step_getLocal (hc : k.block.code[p]? = some (.getLocal dst i))
    (hi : k.block.identifier? i = some name) (hl : m.heap.lookup e name = some v)
    (hd : dst.index < regs.size) :
    Exec.step (k.run m e p regs) =
      .ok none (k.run m e (p + 1) (regs.setIfInBounds dst.index v)) := by
  refine step_instr hc trivial ?_
  have hlookup : Exec.lookup name (k.run m e (p + 1) regs) = .ok v (k.run m e (p + 1) regs) := by
    simp only [Exec.lookup, run, hl]
  rw [Exec.instr, Exec.bind_ok (identifier_run hi), Exec.bind_ok hlookup, write_run hd]

theorem step_getLocal_error (hc : k.block.code[p]? = some (.getLocal dst i))
    (hi : k.block.identifier? i = some name) (hl : m.heap.lookup e name = none) :
    Exec.step (k.run m e p regs) = .error (.unknownVariable name) (k.run m e (p + 1) regs) := by
  refine step_instr_error hc trivial ?_
  have hlookup : Exec.lookup name (k.run m e (p + 1) regs) =
      .error (.unknownVariable name) (k.run m e (p + 1) regs) := by
    simp only [Exec.lookup, run, hl]
  rw [Exec.instr, Exec.bind_ok (identifier_run hi), Exec.bind_error hlookup]

theorem step_setLocal (hc : k.block.code[p]? = some (.setLocal i r))
    (hi : k.block.identifier? i = some name) (hr : regs[r.index]? = some v) :
    Exec.step (k.run m e p regs) =
      .ok none (k.run (m.withHeap (m.heap.define e name v)) e (p + 1) regs) := by
  refine step_instr hc trivial ?_
  rw [Exec.instr, Exec.bind_ok (identifier_run hi), Exec.bind_ok (read_run hr),
    Exec.bind_ok (Exec.get_run _)]
  rfl

theorem step_jump (hc : k.block.code[p]? = some (.jump t)) (ht : t.toInt = q) :
    Exec.step (k.run m e p regs) = .ok none (k.run m e q regs) :=
  step_instr hc trivial (jump_run ht)

theorem step_jumpIfFalse_true (hc : k.block.code[p]? = some (.jumpIfFalse r t))
    (hr : regs[r.index]? = some (.bool true)) :
    Exec.step (k.run m e p regs) = .ok none (k.run m e (p + 1) regs) := by
  refine step_instr hc trivial ?_
  rw [Exec.instr, Exec.bind_ok (read_run hr)]
  rfl

theorem step_jumpIfFalse_false (hc : k.block.code[p]? = some (.jumpIfFalse r t))
    (hr : regs[r.index]? = some (.bool false)) (ht : t.toInt = q) :
    Exec.step (k.run m e p regs) = .ok none (k.run m e q regs) := by
  refine step_instr hc trivial ?_
  rw [Exec.instr, Exec.bind_ok (read_run hr)]
  exact jump_run ht

theorem step_jumpIfFalse_error (hc : k.block.code[p]? = some (.jumpIfFalse r t))
    (hr : regs[r.index]? = some v) (hv : ∀ c, v ≠ .bool c) :
    Exec.step (k.run m e p regs) =
      .error (.notCondition (m.heap.text v)) (k.run m e (p + 1) regs) := by
  refine step_instr_error hc trivial ?_
  rw [Exec.instr, Exec.bind_ok (read_run hr)]
  cases v with
  | bool c => exact absurd rfl (hv c)
  | _ => rfl

theorem step_isEqual (hc : k.block.code[p]? = some (.isEqual dst a b))
    (ha : regs[a.index]? = some v) (hb : regs[b.index]? = some w) (hd : dst.index < regs.size) :
    Exec.step (k.run m e p regs) =
      .ok none (k.run m e (p + 1) (regs.setIfInBounds dst.index (.bool (v.same w)))) := by
  refine step_instr hc trivial ?_
  rw [Exec.instr, Exec.bind_ok (read_run ha), Exec.bind_ok (read_run hb), write_run hd]

theorem step_isCell {kind : CellKind} (hc : k.block.code[p]? = some (.isCell dst r kind))
    (hr : regs[r.index]? = some v) (hd : dst.index < regs.size) :
    Exec.step (k.run m e p regs) =
      .ok none (k.run m e (p + 1)
        (regs.setIfInBounds dst.index (.bool (v.cellKind? = some kind)))) := by
  refine step_instr hc trivial ?_
  rw [Exec.instr, Exec.bind_ok (read_run hr), write_run hd]

theorem message_run {message : String} (h : k.block.constant? i = some (.string message)) :
    Exec.message i (k.run m e p regs) = .ok message (k.run m e p regs) := by
  simp only [Exec.message, run, h]

theorem step_runtimeError {message : String} (hc : k.block.code[p]? = some (.runtimeError i))
    (hi : k.block.constant? i = some (.string message)) :
    Exec.step (k.run m e p regs) = .error (.raised message) (k.run m e (p + 1) regs) := by
  refine step_instr_error hc trivial ?_
  rw [Exec.instr, Exec.bind_ok (message_run hi), Exec.throw_run]

theorem step_pushScope (regs : Array Value)
    (hc : k.block.code[p]? = some .pushScope) :
    Exec.step (k.run m e p regs) =
      .ok none (k.run (m.withHeap (m.heap.newEnvironment (some e)).2) m.heap.environments.size
        (p + 1) regs) :=
  step_instr hc trivial rfl

theorem step_popScope {outer : Nat} (regs : Array Value)
    (hc : k.block.code[p]? = some .popScope)
    (he : m.heap.parent? e = some outer) :
    Exec.step (k.run m e p regs) = .ok none (k.run m outer (p + 1) regs) := by
  refine step_instr hc trivial ?_
  rw [Exec.instr, Exec.bind_ok (Exec.get_run _)]
  simp only [run, he]
  rfl

theorem step_pushFrame (regs : Array Value)
    (hc : k.block.code[p]? = some .pushFrame) :
    Exec.step (k.run m e p regs) =
      .ok none (k.run { m with frames := m.frames.push } e (p + 1) regs) :=
  step_instr hc trivial rfl

theorem step_popFrame (regs : Array Value)
    (hc : k.block.code[p]? = some .popFrame) :
    Exec.step (k.run m e p regs) =
      .ok none (k.run { m with
          table := (m.frames.pop m.table).2.2
          frames := (m.frames.pop m.table).2.1 } e (p + 1) regs) :=
  step_instr hc trivial rfl

/-! ## Cells -/

theorem step_newArray {size : UInt32} (hc : k.block.code[p]? = some (.newArray dst size))
    (hd : dst.index < regs.size) :
    Exec.step (k.run m e p regs) =
      .ok none (k.run (m.withHeap (m.heap.newArray #[]).2) e (p + 1)
        (regs.setIfInBounds dst.index (.array m.heap.lists.size))) :=
  step_instr hc trivial (create_run hd)

theorem step_newTuple {size : UInt32} (hc : k.block.code[p]? = some (.newTuple dst size))
    (hd : dst.index < regs.size) :
    Exec.step (k.run m e p regs) =
      .ok none (k.run
        (m.withHeap (m.heap.newTuple (Array.replicate size.toNat Value.unit)).2) e (p + 1)
        (regs.setIfInBounds dst.index (.tuple m.heap.lists.size))) :=
  step_instr hc trivial (create_run hd)

theorem step_newObject {size : UInt32} (hc : k.block.code[p]? = some (.newObject dst size))
    (hd : dst.index < regs.size) :
    Exec.step (k.run m e p regs) =
      .ok none (k.run (m.withHeap (m.heap.newObject []).2) e (p + 1)
        (regs.setIfInBounds dst.index (.object m.heap.objects.size))) :=
  step_instr hc trivial (create_run hd)

theorem step_setArrayIndex {c : Nat} (hc : k.block.code[p]? = some (.setArrayIndex a i r))
    (ha : regs[a.index]? = some (.array c)) (hr : regs[r.index]? = some v) :
    Exec.step (k.run m e p regs) =
      .ok none (k.run (m.withHeap (m.heap.setItem c i.toNat v)) e (p + 1) regs) := by
  refine step_instr hc trivial ?_
  rw [Exec.instr, Exec.bind_ok (read_run ha)]
  show (Exec.read r >>= _) _ = _
  rw [Exec.bind_ok (read_run hr)]
  rfl

theorem step_setTupleIndex {c : Nat} (hc : k.block.code[p]? = some (.setTupleIndex a i r))
    (ha : regs[a.index]? = some (.tuple c)) (hr : regs[r.index]? = some v)
    (hi : i.toNat < (m.heap.list c).size) :
    Exec.step (k.run m e p regs) =
      .ok none (k.run (m.withHeap (m.heap.setItem c i.toNat v)) e (p + 1) regs) := by
  refine step_instr hc trivial ?_
  rw [Exec.instr, Exec.bind_ok (read_run ha)]
  show (Exec.read r >>= _) _ = _
  rw [Exec.bind_ok (read_run hr), Exec.bind_ok heap_run, if_pos hi]
  rfl

theorem step_setField {c : Nat} (hc : k.block.code[p]? = some (.setField a i r))
    (ha : regs[a.index]? = some (.object c)) (hi : k.block.identifier? i = some name)
    (hr : regs[r.index]? = some v) :
    Exec.step (k.run m e p regs) =
      .ok none (k.run (m.withHeap (m.heap.setField c name v)) e (p + 1) regs) := by
  refine step_instr hc trivial ?_
  rw [Exec.instr, Exec.bind_ok (read_run ha)]
  show (Exec.identifier i >>= _) _ = _
  rw [Exec.bind_ok (identifier_run hi), Exec.bind_ok (read_run hr)]
  rfl

theorem step_getField (hc : k.block.code[p]? = some (.getField dst a i))
    (hi : k.block.identifier? i = some name) (ha : regs[a.index]? = some v)
    (hf : Exec.field? m.heap v name = some w) (hd : dst.index < regs.size) :
    Exec.step (k.run m e p regs) =
      .ok none (k.run m e (p + 1) (regs.setIfInBounds dst.index w)) := by
  refine step_instr hc trivial ?_
  rw [Exec.instr, Exec.bind_ok (identifier_run hi), Exec.bind_ok (read_run ha),
    Exec.bind_ok heap_run]
  simp only [hf]
  exact write_run hd

theorem step_getField_error (hc : k.block.code[p]? = some (.getField dst a i))
    (hi : k.block.identifier? i = some name) (ha : regs[a.index]? = some v)
    (hf : Exec.field? m.heap v name = none) :
    Exec.step (k.run m e p regs) =
      .error (.missingField name (m.heap.text v)) (k.run m e (p + 1) regs) := by
  refine step_instr_error hc trivial ?_
  rw [Exec.instr, Exec.bind_ok (identifier_run hi), Exec.bind_ok (read_run ha),
    Exec.bind_ok heap_run]
  simp only [hf]
  rfl

theorem step_tryGetField (hc : k.block.code[p]? = some (.tryGetField dst a i t))
    (hi : k.block.identifier? i = some name) (ha : regs[a.index]? = some v)
    (hf : Exec.field? m.heap v name = some w) (hd : dst.index < regs.size) :
    Exec.step (k.run m e p regs) =
      .ok none (k.run m e (p + 1) (regs.setIfInBounds dst.index w)) := by
  refine step_instr hc trivial ?_
  rw [Exec.instr, Exec.bind_ok (identifier_run hi), Exec.bind_ok (read_run ha),
    Exec.bind_ok heap_run]
  simp only [hf]
  exact write_run hd

theorem step_tryGetField_none (hc : k.block.code[p]? = some (.tryGetField dst a i t))
    (hi : k.block.identifier? i = some name) (ha : regs[a.index]? = some v)
    (hf : Exec.field? m.heap v name = none) (ht : t.toInt = q) :
    Exec.step (k.run m e p regs) = .ok none (k.run m e q regs) := by
  refine step_instr hc trivial ?_
  rw [Exec.instr, Exec.bind_ok (identifier_run hi), Exec.bind_ok (read_run ha),
    Exec.bind_ok heap_run]
  simp only [hf]
  exact jump_run ht

theorem step_newMemberHole (hc : k.block.code[p]? = some (.newMemberHole dst a i))
    (hi : k.block.identifier? i = some name) (ha : regs[a.index]? = some v)
    (hv : v.isTypeLevel = true) (hd : dst.index < regs.size) :
    Exec.step (k.run m e p regs) =
      .ok none (k.run (m.withHeap (m.heap.newHole (.member v name)).2) e (p + 1)
        (regs.setIfInBounds dst.index (.hole m.heap.holes.size))) := by
  refine step_instr hc trivial ?_
  rw [Exec.instr, Exec.bind_ok (identifier_run hi), Exec.bind_ok (read_run ha), if_pos hv]
  exact create_run hd

theorem step_newMemberHole_error (hc : k.block.code[p]? = some (.newMemberHole dst a i))
    (hi : k.block.identifier? i = some name) (ha : regs[a.index]? = some v)
    (hv : v.isTypeLevel = false) :
    Exec.step (k.run m e p regs) =
      .error (.missingField name (m.heap.text v)) (k.run m e (p + 1) regs) := by
  refine step_instr_error hc trivial ?_
  rw [Exec.instr, Exec.bind_ok (identifier_run hi), Exec.bind_ok (read_run ha), hv]
  rfl

end Context

end Reified
