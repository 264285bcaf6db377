import Reified.Proofs.Block.Verify
import Reified.Proofs.Machine.Steps
import Reified.Proofs.Ty.Subst

/-!
# Runs of verified blocks

A machine that runs verified blocks never reads or writes outside the register file, a pool or the
code. What carries this is an invariant of the whole stack of activations: every block on it and in
every function of the heap is sound, every register file is as large as its block says, and a caller
waits for its value in a register that it has. Since an unknown cell reads as a function without
code, every function value must also be one of those that the heap has.

Actions on a run are described by what they answer and by that they keep the invariant; if they fail,
the failure is not one of reaching outside, and the machine is still sound.

## Main definitions

* `Block.Sound` — verified, closed and short, with all nested blocks
* `Fault.IsOutside` — the failures that are excluded
* `Heap.Sound`, `Run.In` — the invariant
* `Exec.Keeps` — an action keeps the invariant

## Main results

* `Exec.Keeps.bind` — one action after the other
* `Exec.keeps_read`, `Exec.keeps_write`, … — what the parts of instructions do
-/

namespace Reified

/-- A block that can be run: no instruction has a problem, the code starts and ends properly, and
the runs of registers are short; and the same for all nested blocks. -/
def Block.Sound (B : Block) : Prop := B.Everywhere fun B => B.Clean ∧ B.Closed ∧ B.Short

/-- The failure is that something outside the registers, the pools or the code was asked for. -/
def Fault.IsOutside : Fault → Prop
  | .registerOutOfRange .. | .pointerOutOfRange .. | .unknownConstant _ | .unknownIdentifier _
  | .unknownFunction _ | .unknownTarget _ => True
  | _ => False

/-! ## Values and heaps -/

/-- If the value is a function, it is one of the first `n`. -/
def Value.Below (n : Nat) : Value → Prop
  | .function c => c < n
  | _ => True

theorem Value.Below.mono {v : Value} {n n' : Nat} (h : v.Below n) (hn : n ≤ n') : v.Below n' := by
  cases v with
  | function c => exact Nat.lt_of_lt_of_le h hn
  | _ => trivial

namespace Heap

/-- The heap has `n` functions, all of them of sound blocks, and no cell holds any other function. -/
structure Sound (n : Nat) (h : Heap) : Prop where
  size : h.closures.size = n
  closures : ∀ c ∈ h.closures, c.block.Sound
  lists : ∀ vs ∈ h.lists, ∀ v ∈ vs, v.Below n
  objects : ∀ fs ∈ h.objects, ∀ f ∈ fs, f.2.Below n
  environments : ∀ e ∈ h.environments, ∀ f ∈ e.values, f.2.Below n

variable {h : Heap} {n c e i : Nat} {v : Value} {name : String}

theorem Sound.empty : empty.Sound 0 := by
  refine ⟨rfl, ?_, ?_, ?_, ?_⟩ <;> exact fun _ hx => nomatch Array.not_mem_empty _ hx

/-! ### Reading -/

theorem Sound.closure (hh : h.Sound n) (hc : c < n) : (h.closure c).block.Sound := by
  have hlt : c < h.closures.size := hh.size ▸ hc
  rw [Heap.closure, Array.getD_eq_getD_getElem?, Array.getElem?_eq_getElem hlt]
  exact hh.closures _ (Array.getElem_mem hlt)

theorem Sound.list (hh : h.Sound n) (hv : v ∈ h.list c) : v.Below n := by
  rw [Heap.list, Array.getD_eq_getD_getElem?] at hv
  cases hc : h.lists[c]? with
  | none => simp [hc] at hv
  | some vs =>
    rw [hc] at hv
    exact hh.lists vs (Array.mem_of_getElem? hc) v hv

end Heap

namespace Heap

variable {h : Heap} {n c e i : Nat} {v : Value} {name : String}

theorem Sound.field (hh : h.Sound n) (hv : Fields.get? name (h.object c) = some v) :
    v.Below n := by
  rw [object, Array.getD_eq_getD_getElem?] at hv
  cases hc : h.objects[c]? with
  | none => rw [hc] at hv; cases hv
  | some fs =>
    rw [hc] at hv
    exact hh.objects fs (Array.mem_of_getElem? hc) _ (Fields.mem_of_get?_eq_some hv)

theorem Sound.field? (hh : h.Sound n) {o : Value} (hv : Exec.field? h o name = some v) :
    v.Below n := by
  cases o with
  | object c => exact hh.field hv
  | _ => cases hv

theorem Sound.lookup (hh : h.Sound n) (hv : h.lookup e name = some v) : v.Below n := by
  fun_induction Heap.lookup with
  | case1 e w hw =>
    cases hv
    rw [environment, Array.getD_eq_getD_getElem?] at hw
    cases he : h.environments[e]? with
    | none => rw [he] at hw; cases hw
    | some E =>
      rw [he] at hw
      exact hh.environments E (Array.mem_of_getElem? he) _ (Fields.mem_of_get?_eq_some hw)
  | case2 e hnone outer hparent hlt ih => exact ih hv
  | case3 => cases hv
  | case4 => cases hv

/-! ### Writing -/

theorem Sound.pushList {vs : Array Value} (hh : h.Sound n) (hvs : ∀ v ∈ vs, v.Below n) :
    Sound n { h with lists := h.lists.push vs } := by
  refine { hh with lists := fun xs hxs => ?_ }
  rcases Array.mem_push.mp hxs with hxs | rfl
  · exact hh.lists xs hxs
  · exact hvs

theorem Sound.pushObject {fs : Fields Value} (hh : h.Sound n) (hfs : ∀ f ∈ fs, f.2.Below n) :
    Sound n { h with objects := h.objects.push fs } := by
  refine { hh with objects := fun xs hxs => ?_ }
  rcases Array.mem_push.mp hxs with hxs | rfl
  · exact hh.objects xs hxs
  · exact hfs

theorem Sound.newHole (hh : h.Sound n) (x : Hole) : (h.newHole x).2.Sound n :=
  { hh with }

theorem Sound.newEnvironment (hh : h.Sound n) (parent : Option Nat) :
    (h.newEnvironment parent).2.Sound n := by
  refine { hh with environments := fun E hE => ?_ }
  rcases Array.mem_push.mp hE with hE | rfl
  · exact hh.environments E hE
  · exact fun f hf => nomatch hf

/-- A further function makes one more. -/
theorem Sound.newClosure {k : Closure} (hh : h.Sound n) (hk : k.block.Sound) :
    (h.newClosure k).2.Sound (n + 1) := by
  have hle := Nat.le_succ n
  refine ⟨by rw [Heap.newClosure, Array.size_push, hh.size], fun x hx => ?_,
    fun vs hvs v hv => (hh.lists vs hvs v hv).mono hle,
    fun fs hfs f hf => (hh.objects fs hfs f hf).mono hle,
    fun E hE f hf => (hh.environments E hE f hf).mono hle⟩
  rcases Array.mem_push.mp hx with hx | rfl
  · exact hh.closures x hx
  · exact hk

private theorem of_mem_modify {α : Type} {xs : Array α} {f : α → α} {y : α}
    (hy : y ∈ xs.modify c f) : y ∈ xs ∨ ∃ x ∈ xs, y = f x := by
  obtain ⟨j, hj, rfl⟩ := Array.mem_iff_getElem.mp hy
  rw [Array.size_modify] at hj
  rw [Array.getElem_modify]
  split
  · exact .inr ⟨xs[j], Array.getElem_mem hj, rfl⟩
  · exact .inl (Array.getElem_mem hj)

theorem Sound.setItem (hh : h.Sound n) (hv : v.Below n) : (h.setItem c i v).Sound n := by
  refine { hh with lists := fun vs hvs w hw => ?_ }
  simp only [Heap.setItem] at hvs
  rcases of_mem_modify hvs with hvs | ⟨items, hitems, rfl⟩
  · exact hh.lists vs hvs w hw
  · rcases Array.mem_or_eq_of_mem_setIfInBounds hw with hw | rfl
    · rcases Array.mem_append.mp hw with hw | hw
      · exact hh.lists items hitems w hw
      · rw [(Array.mem_replicate.mp hw).2]
        trivial
    · exact hv

theorem Sound.setField (hh : h.Sound n) (hv : v.Below n) : (h.setField c name v).Sound n := by
  refine { hh with objects := fun fs hfs f hf => ?_ }
  simp only [Heap.setField] at hfs
  rcases of_mem_modify hfs with hfs | ⟨fields, hfields, rfl⟩
  · exact hh.objects fs hfs f hf
  · rcases Fields.mem_of_mem_insert hf with rfl | hf
    · exact hv
    · exact hh.objects fields hfields f hf

theorem Sound.define (hh : h.Sound n) (hv : v.Below n) : (h.define e name v).Sound n := by
  refine { hh with environments := fun E hE f hf => ?_ }
  simp only [Heap.define] at hE
  rcases of_mem_modify hE with hE | ⟨E, hE', rfl⟩
  · exact hh.environments E hE f hf
  · rcases Fields.mem_of_mem_insert hf with rfl | hf
    · exact hv
    · exact hh.environments E hE' f hf

mutual

/-- The zero value of a type is no function, and its cells hold none. -/
theorem Sound.zero : (t : Ty) → {h : Heap} → h.Sound n →
    (zero t h).1.Below n ∧ (zero t h).2.Sound n
  | .name s, h, hh => by
    rw [Heap.zero.eq_def]
    split <;> first | exact ⟨trivial, hh⟩ | simp_all
  | .array _, h, hh => ⟨trivial, hh.pushList fun _ hv => by simp at hv⟩
  | .tuple ts, h, hh => by
    obtain ⟨hvs, hh'⟩ := Sound.zeros ts hh
    rw [Heap.zero]
    exact ⟨trivial, hh'.pushList fun v hv => hvs v (List.mem_toArray.mp hv)⟩
  | .record fs, h, hh => by
    obtain ⟨hvs, hh'⟩ := Sound.zeroFields fs hh
    rw [Heap.zero]
    exact ⟨trivial, hh'.pushObject hvs⟩
  | .union t _, h, hh => by
    rw [Heap.zero]
    exact Sound.zero t hh
  | .binding _ t, h, hh => by
    rw [Heap.zero]
    exact Sound.zero t hh
  | .var _, h, hh => ⟨trivial, hh⟩
  | .fn .., h, hh => ⟨trivial, hh⟩

theorem Sound.zeros : (ts : List Ty) → {h : Heap} → h.Sound n →
    (∀ v ∈ (zeros ts h).1, v.Below n) ∧ (zeros ts h).2.Sound n
  | [], h, hh => ⟨fun _ hv => (nomatch hv), hh⟩
  | t :: ts, h, hh => by
    obtain ⟨hv, hh'⟩ := Sound.zero t hh
    obtain ⟨hvs, hh''⟩ := Sound.zeros ts hh'
    rw [Heap.zeros]
    exact ⟨List.forall_mem_cons.mpr ⟨hv, hvs⟩, hh''⟩

theorem Sound.zeroFields : (fs : List (String × Ty)) → {h : Heap} → h.Sound n →
    (∀ f ∈ (zeroFields fs h).1, f.2.Below n) ∧ (zeroFields fs h).2.Sound n
  | [], h, hh => ⟨fun _ hv => (nomatch hv), hh⟩
  | (name, t) :: fs, h, hh => by
    obtain ⟨hv, hh'⟩ := Sound.zero t hh
    obtain ⟨hvs, hh''⟩ := Sound.zeroFields fs hh'
    rw [Heap.zeroFields]
    exact ⟨List.forall_mem_cons.mpr ⟨hv, hvs⟩, hh''⟩

end

end Heap

/-! ## The invariant inside a block -/

/-- The state of a run in which the given block is executed for the given callers, the heap is sound
with `n` functions, the register file has the size that the block says, and the position satisfies
`φ`. -/
inductive Run.In (k : Context) (n : Nat) (φ : Nat → Prop) : Run → Prop
  | intro {m : Machine} {e p : Nat} {regs : Array Value} (heap : m.heap.Sound n)
      (room : k.block.registerCount.toNat ≤ regs.size) (values : ∀ v ∈ regs, v.Below n)
      (position : φ p) : In k n φ (k.run m e p regs)

namespace Exec

/-- An action keeps the invariant and answers with something that satisfies `post`; if it fails, it
did not reach outside, and the heap is still sound. -/
def Keeps {α : Type} (k : Context) (n : Nat) (φ : Nat → Prop) (x : Exec α) (post : α → Prop) :
    Prop :=
  ∀ r, r.In k n φ →
    match x r with
    | .ok a r' => post a ∧ r'.In k n φ
    | .error f r' => ¬ f.IsOutside ∧ r'.machine.heap.Sound n

variable {α β : Type} {k : Context} {n : Nat} {φ : Nat → Prop} {x : Exec α} {f : α → Exec β}
  {P : α → Prop} {Q : β → Prop}

/-! ### Combining actions -/

theorem Keeps.pure {a : α} (h : P a) : Keeps k n φ (pure a) P := fun _ hr => ⟨h, hr⟩

/-- One action after the other. -/
theorem Keeps.bind (hx : Keeps k n φ x P) (hf : ∀ a, P a → Keeps k n φ (f a) Q) :
    Keeps k n φ (x >>= f) Q := by
  intro r hr
  have h := hx r hr
  cases hres : x r with
  | ok a r' =>
    rw [hres] at h
    rw [Exec.bind_ok hres]
    exact hf a h.1 r' h.2
  | error e r' =>
    rw [hres] at h
    rw [Exec.bind_error hres]
    exact h

theorem Keeps.weaken {P' : α → Prop} (hx : Keeps k n φ x P) (h : ∀ a, P a → P' a) :
    Keeps k n φ x P' := by
  intro r hr
  have hres := hx r hr
  split
  next heq => rw [heq] at hres; exact ⟨h _ hres.1, hres.2⟩
  next heq => rw [heq] at hres; exact hres

theorem keeps_throw {e : Fault} (h : ¬ e.IsOutside) : Keeps k n φ (throw e : Exec α) P :=
  fun _ ⟨hheap, _, _, _⟩ => ⟨h, hheap⟩

/-! ### The parts of a run -/

theorem keeps_get : Keeps k n φ get fun r => r.In k n φ := fun _ hr => ⟨hr, hr⟩

theorem keeps_heap : Keeps k n φ heap fun h => h.Sound n :=
  fun _ ⟨hheap, hroom, hvalues, hp⟩ => ⟨hheap, ⟨hheap, hroom, hvalues, hp⟩⟩

theorem keeps_text (v : Value) : Keeps k n φ (text v) fun _ => True :=
  keeps_heap.bind fun _ _ => .pure trivial

theorem keeps_onHeap {g : Heap → α × Heap} (h : ∀ h, h.Sound n → P (g h).1 ∧ (g h).2.Sound n) :
    Keeps k n φ (onHeap g) P :=
  fun _ ⟨hheap, hroom, hvalues, hp⟩ => ⟨(h _ hheap).1, ⟨(h _ hheap).2, hroom, hvalues, hp⟩⟩

theorem keeps_newEnvironment (parent : Option Nat) :
    Keeps k n φ (onHeap (·.newEnvironment parent)) fun _ => True :=
  keeps_onHeap fun _ hh => ⟨trivial, hh.newEnvironment parent⟩

/-- What is done to the types alone does not matter. -/
theorem keeps_onFrames (g : Frames → Table → α × Frames × Table) :
    Keeps k n φ (onFrames g) fun _ => True :=
  fun _ ⟨hheap, hroom, hvalues, hp⟩ => ⟨trivial, ⟨hheap, hroom, hvalues, hp⟩⟩

theorem keeps_onTable (g : Table → α × Table) : Keeps k n φ (onTable g) fun _ => True :=
  fun _ ⟨hheap, hroom, hvalues, hp⟩ => ⟨trivial, ⟨hheap, hroom, hvalues, hp⟩⟩

theorem keeps_unify (s t : Ty) : Keeps k n φ (unify s t) fun _ => True := by
  rintro _ ⟨hheap, hroom, hvalues, hp⟩
  simp only [unify, Context.run]
  split
  next heq =>
    split at heq
    · cases heq
      exact ⟨trivial, ⟨hheap, hroom, hvalues, hp⟩⟩
    · cases heq
  next heq =>
    split at heq
    · cases heq
    · cases heq
      exact ⟨id, hheap⟩

theorem keeps_setEnvironment (e : Nat) : Keeps k n φ (setEnvironment e) fun _ => True :=
  fun _ ⟨hheap, hroom, hvalues, hp⟩ => ⟨trivial, ⟨hheap, hroom, hvalues, hp⟩⟩

theorem keeps_lookup (name : String) : Keeps k n φ (lookup name) (Value.Below n) := by
  rintro _ ⟨hheap, hroom, hvalues, hp⟩
  simp only [lookup, Context.run]
  split
  next heq =>
    split at heq
    next hv =>
      cases heq
      exact ⟨hheap.lookup hv, ⟨hheap, hroom, hvalues, hp⟩⟩
    next => cases heq
  next heq =>
    split at heq
    · cases heq
    · cases heq
      exact ⟨id, hheap⟩

/-! ### Registers, pools and jumps -/

section

variable {r first : Register} {j count : UInt32} {t : Int32} {v : Value}

theorem keeps_read (hr : r.index < k.block.registerCount.toNat) :
    Keeps k n φ (read r) (Value.Below n) := by
  rintro _ ⟨hheap, hroom, hvalues, hp⟩
  have hlt := Nat.lt_of_lt_of_le hr hroom
  rw [Context.read_run (Array.getElem?_eq_getElem hlt)]
  exact ⟨hvalues _ (Array.getElem_mem hlt), ⟨hheap, hroom, hvalues, hp⟩⟩

theorem keeps_write (hr : r.index < k.block.registerCount.toNat) (hv : v.Below n) :
    Keeps k n φ (write r v) fun _ => True := by
  rintro _ ⟨hheap, hroom, hvalues, hp⟩
  rw [Context.write_run (Nat.lt_of_lt_of_le hr hroom)]
  refine ⟨trivial, ⟨hheap, by rwa [Array.size_setIfInBounds], fun w hw => ?_, hp⟩⟩
  rcases Array.mem_or_eq_of_mem_setIfInBounds hw with hw | rfl
  · exact hvalues w hw
  · exact hv

theorem keeps_create {g : Heap → Value × Heap} (hr : r.index < k.block.registerCount.toNat)
    (h : ∀ h, h.Sound n → (g h).1.Below n ∧ (g h).2.Sound n) :
    Keeps k n φ (create r g) fun _ => True :=
  (keeps_onHeap h).bind fun _ hv => keeps_write hr hv

theorem keeps_identifier (hj : j.toNat < k.block.identifiers.size) :
    Keeps k n φ (identifier j) fun _ => True := by
  rintro _ ⟨hheap, hroom, hvalues, hp⟩
  rw [Context.identifier_run (Array.getElem?_eq_getElem hj)]
  exact ⟨trivial, ⟨hheap, hroom, hvalues, hp⟩⟩

theorem keeps_constant (hj : j.toNat < k.block.constants.size) :
    Keeps k n φ (constant j) (Value.Below n) := by
  rintro _ ⟨hheap, hroom, hvalues, hp⟩
  rw [Context.constant_run (Array.getElem?_eq_getElem hj)]
  refine ⟨?_, ⟨hheap, hroom, hvalues, hp⟩⟩
  cases k.block.constants[j.toNat] <;> trivial

theorem keeps_nested (hj : j.toNat < k.block.functions.size) :
    Keeps k n φ (nested j) (· ∈ k.block.functions) := by
  rintro _ ⟨hheap, hroom, hvalues, hp⟩
  simp only [nested, Context.run, Block.function?, Array.getElem?_eq_getElem hj]
  exact ⟨Array.getElem_mem hj, ⟨hheap, hroom, hvalues, hp⟩⟩

/-- A message is made up if there is none. -/
theorem keeps_message (j : UInt32) : Keeps k n φ (message j) fun _ => True := by
  rintro _ ⟨hheap, hroom, hvalues, hp⟩
  simp only [message, Context.run]
  split
  next heq =>
    refine ⟨trivial, ?_⟩
    split at heq <;> cases heq <;> exact ⟨hheap, hroom, hvalues, hp⟩
  next heq => split at heq <;> cases heq

theorem keeps_jump (ht : 0 ≤ t.toInt) (hp : φ t.toInt.toNat) :
    Keeps k n φ (jump t) fun _ => True := by
  rintro _ ⟨hheap, hroom, hvalues, -⟩
  rw [Context.jump_run (Int.toNat_of_nonneg ht).symm]
  exact ⟨trivial, ⟨hheap, hroom, hvalues, hp⟩⟩

end

end Exec

end Reified
