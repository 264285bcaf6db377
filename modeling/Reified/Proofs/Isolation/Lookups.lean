import Reified.Proofs.Isolation.Mirrors
import Reified.Proofs.Machine.TypeSteps
import Reified.Proofs.Scopes.Runs

/-!
# Following a run behind an older machine

A machine between two runs is clean: no change of its table can be undone any more, a frame is open, and the
environment of the global names is as it was in the beginning. A run can be put behind any clean machine. What is
read there, from registers, from the block in execution, from the heap or from environments, is what the run
itself reads, moved; and what is written is the same.

## Main definitions

* `Machine.Clean` — a machine between two runs
* `Run.Kept` — what is known about a run while an instruction is executed
* `Exec.Follows` — an action is followed behind an older machine

## Main results

* `Machine.Clean.behind`, `Machine.Clean.initial_behind` — a clean machine behind another one
* `Exec.Follows.types` — actions on types
* `Exec.Follows.read`, `Exec.Follows.lookup`, … — reading
* `Exec.follows_write`, `Exec.Follows.onHeap`, … — writing
-/

namespace Reified

/-! ## Clean machines -/

namespace Machine

/-- A machine between two runs. -/
structure Clean (m : Machine) : Prop where
  snapshots : m.table.snapshots = 0
  trail : m.table.trail = #[]
  depth : 0 < m.frames.depth
  globals : m.globals = 0
  known : 0 < m.heap.environments.size
  root : m.heap.environment 0 = initial.heap.environment 0

namespace Clean

variable {m m₁ : Machine}

theorem initial : Clean initial := ⟨rfl, rfl, Nat.zero_lt_one, rfl, Nat.zero_lt_one, rfl⟩

/-- The environment of the global names holds operators only, so moving it makes no difference. -/
theorem move_root (o : Extent) :
    (Machine.initial.heap.environment 0).move o = Machine.initial.heap.environment 0 := rfl

theorem behind (hm : m.Clean) (h : m₁.Clean) : (m₁.behind m).Clean where
  snapshots := h.snapshots
  trail := (congrArg (Array.map _) h.trail).trans Array.map_empty
  depth := (Frames.depth_behind h.depth m.frames m.table.size).symm ▸ Nat.add_pos_left h.depth _
  globals := h.globals
  known := by
    rw [Machine.behind, Heap.size_environments_behind h.known]
    exact (Heap.environment_lt hm.known (e := 0)).mpr h.known
  root := (Heap.environment_behind_zero hm.known).trans hm.root

/-- A new machine behind another one is that one. -/
theorem initial_behind (hm : m.Clean) : Machine.initial.behind m = m := by
  obtain ⟨⟨entries, trail, snapshots⟩, ⟨stack⟩, ⟨lists, objects, closures, holes, environments⟩, globals⟩ := m
  obtain ⟨rfl, rfl, hdepth, rfl, -, -⟩ := hm
  obtain ⟨f, fs, rfl⟩ := List.exists_cons_of_length_pos hdepth
  have htable : Machine.initial.table = ⟨#[], #[], 0⟩ := rfl
  have hheap : Machine.initial.heap.lists = #[] ∧ Machine.initial.heap.objects = #[] ∧
      Machine.initial.heap.closures = #[] ∧ Machine.initial.heap.holes = #[] ∧
      Machine.initial.heap.environments.extract 1 = #[] := ⟨rfl, rfl, rfl, rfl, rfl⟩
  obtain ⟨hlists, hobjects, hclosures, hholes, henvironments⟩ := hheap
  simp only [Machine.behind, Heap.behind, Table.behind, htable, hlists, hobjects, hclosures, hholes,
    henvironments, Array.map_empty, Array.append_empty]
  rfl

end Clean

end Machine

/-! ## Runs -/

/-- The register of the caller that waits for the value of a block. -/
def Resume.dst? : Resume → Option Register
  | .answer => none
  | .store dst | .signature dst _ => some dst

/-- The blocks that can be entered from a block in execution fill their cells. -/
structure Activation.Nests (a : Activation) : Prop where
  nested : ∀ B ∈ a.block.functions, B.Everywhere Block.IsFilling
  signature : ∀ dst B, a.resume = .signature dst B → B.Everywhere Block.IsFilling

/-- The callers of a block, which ends as the first argument says: they wait at positions where the register for
the value holds no cell under construction. The last argument is the number of frames that are open outside the
block. -/
inductive Awaited (owners : Owners) (n : Extent) : Resume → List Activation → Nat → Prop
  | nil (resume : Resume) : Awaited owners n resume [] 1
  | cons {resume : Resume} {a : Activation} {as : List Activation} {base : Nat} {pending : Nat → List Nat}
      {depths : Nat → Depths} (fills : a.block.Fills pending) (balanced : a.block.Balanced depths)
      (registers : Registers.Kept owners as.length (pending a.position) n a.registers)
      (free : ∀ dst, resume.dst? = some dst → dst.index ∉ pending a.position) (nests : a.Nests)
      (callers : Awaited owners n a.resume as base) :
      Awaited owners n resume (a :: as) (base + (depths a.position).frames)

/-- What is known about a run while an instruction is executed: which registers of the block hold cells under
construction, and how many frames are open outside the block and at all. -/
structure Run.Kept (owners : Owners) (S : List Nat) (base D : Nat) (r : Run) : Prop where
  types : r.machine.frames.Grounded r.machine.table
  depth : r.machine.frames.depth = D
  globals : r.machine.globals = 0
  heap : r.machine.heap.Kept owners r.machine.table.size
  top : Registers.Kept owners r.callers.length S r.machine.extent r.top.registers
  callers : Awaited owners r.machine.extent r.top.resume r.callers base

namespace Awaited

variable {owners owners' : Owners} {n n' : Extent} {resume : Resume} {as : List Activation} {base : Nat}

theorem pos (h : Awaited owners n resume as base) : 0 < base := by
  induction h with
  | nil => exact Nat.one_pos
  | cons _ _ _ _ _ _ ih => exact Nat.add_pos_left ih _

theorem mono (h : Awaited owners n resume as base) (hle : n ≤ n') : Awaited owners n' resume as base := by
  induction h with
  | nil => exact .nil _
  | cons fills balanced registers free nests _ ih =>
    exact .cons fills balanced (registers.mono hle) free nests ih

/-- What is known about cells that there are is all that matters. -/
theorem congr {h : Heap} {N : Nat} (hn : n = h.extent N) (howners : ∀ c, h.Has c → owners' c = owners c)
    (hw : Awaited owners n resume as base) : Awaited owners' n resume as base := by
  induction hw with
  | nil => exact .nil _
  | cons fills balanced registers free nests _ ih =>
    exact .cons fills balanced (registers.congr hn howners) free nests ih

/-- Cells of a block that was called later are complete. -/
theorem release (h : Awaited owners n resume as base) {k : Nat} (hk : as.length ≤ k) (S : List Nat) :
    Awaited (owners.release k S) n resume as base := by
  induction h with
  | nil => exact .nil _
  | cons fills balanced registers free nests _ ih =>
    rw [List.length_cons] at hk
    exact .cons fills balanced (registers.release_ne (Nat.ne_of_gt hk)) free nests (ih (Nat.le_of_succ_le hk))

end Awaited

namespace Run.Kept

variable {owners owners' : Owners} {S S' : List Nat} {base D : Nat} {r : Run} (hr : r.Kept owners S base D)

include hr

/-- The machine would be clean if the run ended here. -/
theorem clean : r.machine.Clean where
  snapshots := hr.types.snapshots
  trail := hr.types.trail
  depth := hr.types.depth
  globals := hr.globals
  known := hr.heap.known
  root := hr.heap.root

theorem withTypes {F : Frames} {T : Table} (hF : F.Grounded T) {D' : Nat} (hD : F.depth = D')
    (hsize : r.machine.table.size ≤ T.size) : (r.withTypes F T).Kept owners S base D' where
  types := hF
  depth := hD
  globals := hr.globals
  heap := hr.heap.mono hsize
  top := hr.top.mono (Heap.extent_le hsize)
  callers := hr.callers.mono (Heap.extent_le hsize)

/-- Another heap, in which at most new cells are owned by others. -/
theorem withHeap {h : Heap} (hh : h.Kept owners' r.machine.table.size)
    (hle : r.machine.heap.extent r.machine.table.size ≤ h.extent r.machine.table.size)
    (howners : ∀ c, r.machine.heap.Has c → owners' c = owners c) : (r.withHeap h).Kept owners' S base D where
  types := hr.types
  depth := hr.depth
  globals := hr.globals
  heap := hh
  top := (hr.top.congr rfl howners).mono hle
  callers := (hr.callers.congr rfl howners).mono hle

theorem release (hS : S' ⊆ S) : r.Kept (owners.release r.callers.length S') S' base D :=
  { hr with
    heap := hr.heap.release _ _
    top := hr.top.release hS
    callers := hr.callers.release (Nat.le_refl _) _ }

/-- A register that comes after all with cells under construction. -/
theorem settled {src : Register} (h : src.Above S) {v : Value} (hv : r.top.registers[src.index]? = some v) :
    v.Settled r.machine.extent owners :=
  hr.top.settled hv fun hi => Nat.lt_irrefl _ (h _ hi)

theorem rooted {m : Machine} (hm : m.Clean) :
    r.machine.heap.Rooted m.heap m.table.size where
  old := hm.known
  new := hr.heap.known
  root := by rw [hm.root, hr.heap.root, Machine.Clean.move_root]

end Run.Kept

namespace Exec

variable {α β γ δ : Type} {m : Machine} {r : Run} {D n base : Nat} {x : Exec α} {x' : Exec β} {f : α → β}
  {P : α → Run → Prop} {owners : Owners} {S : List Nat}

/-- **The action is followed** by the other one behind the older machine: both give the same result, or fail for
the same cause, and what they leave behind is the same. -/
def Follows (m : Machine) (r : Run) (x : Exec α) (x' : Exec β) (f : α → β) (P : α → Run → Prop) : Prop :=
  match x r with
  | .ok a r' => x' (r.behind m) = .ok (f a) (r'.behind m) ∧ P a r'
  | .error e r' => r'.machine.Clean ∧ ∃ e', e.Renamed m.table.size r'.machine.heap e' ∧
      x' (r.behind m) = .error e' (r'.behind m)

namespace Follows

theorem of_ok {a : α} {r' : Run} (hx : x r = .ok a r') (hx' : x' (r.behind m) = .ok (f a) (r'.behind m))
    (hP : P a r') : Follows m r x x' f P := by
  rw [Follows, hx]
  exact ⟨hx', hP⟩

theorem of_error {e e' : Fault} (hr : r.machine.Clean) (hx : x r = .error e r)
    (he : e.Renamed m.table.size r.machine.heap e') (hx' : x' (r.behind m) = .error e' (r.behind m)) :
    Follows m r x x' f P := by
  rw [Follows, hx]
  exact ⟨hr, e', he, hx'⟩

theorem pure {a : α} {b : β} (hb : b = f a) (hP : P a r) : Follows m r (pure a) (pure b) f P :=
  of_ok rfl (hb ▸ rfl) hP

theorem throw (hr : r.machine.Clean) {e : Fault} (he : ¬e.Mentions) :
    Follows m r (throw e) (throw e) f P :=
  of_error hr rfl (.same he) rfl

/-- **One action after the other.** -/
theorem bind {g : α → Exec γ} {g' : β → Exec δ} {f' : γ → δ} {Q : γ → Run → Prop} (hx : Follows m r x x' f P)
    (hg : ∀ a r', P a r' → Follows m r' (g a) (g' (f a)) f' Q) :
    Follows m r (x >>= g) (x' >>= g') f' Q := by
  unfold Follows at hx
  cases hxr : x r with
  | ok a r' =>
    rw [hxr] at hx
    have hrest := hg a r' hx.2
    unfold Follows at hrest ⊢
    rw [bind_ok hxr, bind_ok hx.1]
    exact hrest
  | error e r' =>
    rw [hxr] at hx
    obtain ⟨hr', e', he, hx'⟩ := hx
    unfold Follows
    rw [bind_error hxr, bind_error hx']
    exact ⟨hr', e', he, rfl⟩

theorem imp {Q : α → Run → Prop} (hx : Follows m r x x' f P) (hPQ : ∀ a r', P a r' → Q a r') :
    Follows m r x x' f Q := by
  unfold Follows at hx ⊢
  cases hxr : x r with
  | ok a r' =>
    rw [hxr] at hx
    exact ⟨hx.1, hPQ _ _ hx.2⟩
  | error e r' =>
    rw [hxr] at hx
    exact hx

theorem ite {c : Prop} [Decidable c] {y : Exec α} {y' : Exec β} (hx : c → Follows m r x x' f P)
    (hy : ¬c → Follows m r y y' f P) : Follows m r (if c then x else y) (if c then x' else y') f P := by
  split
  next hc => exact hx hc
  next hc => exact hy hc

/-! ### Types -/

/-- An action that only changes types. -/
theorem of_mirrors {Q : Nat → α → Prop} (hr : r.Kept owners S base D)
    (hx : Mirrors m r D r.machine.table.size x x' f Q) :
    Follows m r x x' f fun a r' => ∃ F T, r' = r.withTypes F T ∧ (r.withTypes F T).Kept owners S base D ∧
      r.machine.table.size ≤ T.size ∧ Q T.size a := by
  obtain ⟨F, T, hF, hD, hsize, hout⟩ := hx r.machine.frames r.machine.table hr.types hr.depth (Nat.le_refl _)
  have hkept := hr.withTypes hF hD hsize
  unfold Follows
  cases hxr : x r with
  | ok a r' =>
    rw [show x (r.withTypes r.machine.frames r.machine.table) = .ok a r' from hxr] at hout
    obtain ⟨rfl, hQ, hx'⟩ := hout
    exact ⟨hx', F, T, rfl, hkept, hsize, hQ⟩
  | error e r' =>
    rw [show x (r.withTypes r.machine.frames r.machine.table) = .error e r' from hxr] at hout
    obtain ⟨rfl, e', he, hx'⟩ := hout
    exact ⟨hkept.clean, e', he, hx'⟩

/-- **Something is done with what has been found about types.** -/
theorem types {Q : Nat → α → Prop} {g : α → Exec γ} {g' : β → Exec δ} {f' : γ → δ} {P : γ → Run → Prop}
    (hr : r.Kept owners S base D) (hx : Mirrors m r D r.machine.table.size x x' f Q)
    (hg : ∀ a F T, (r.withTypes F T).Kept owners S base D → r.machine.table.size ≤ T.size → Q T.size a →
      Follows m (r.withTypes F T) (g a) (g' (f a)) f' P) : Follows m r (x >>= g) (x' >>= g') f' P :=
  (of_mirrors hr hx).bind fun a _ ⟨F, T, hr', hkept, hsize, hQ⟩ => hr' ▸ hg a F T hkept hsize hQ

/-- An action on types that only fails. -/
theorem fails {Q : Nat → α → Prop} (hr : r.Kept owners S base D)
    (hx : Mirrors m r D r.machine.table.size x x' f Q) (hQ : ∀ N a, ¬Q N a) : Follows m r x x' f P :=
  (of_mirrors hr hx).imp fun _ _ ⟨_, _, _, _, _, h⟩ => (hQ _ _ h).elim

/-! ### Reading -/

/-- **Something is done with a part of the run**, if it is there. -/
theorem look {o : Option α} {e : Fault} {g : α → Exec γ} {g' : β → Exec δ} {f' : γ → δ} {Q : γ → Run → Prop}
    (hr : r.machine.Clean) (he : ¬e.Mentions)
    (hx : x r = match o with
      | some a => .ok a r
      | none => .error e r)
    (hx' : x' (r.behind m) = match o.map f with
      | some b => .ok b (r.behind m)
      | none => .error e (r.behind m))
    (hg : ∀ a, o = some a → Follows m r (g a) (g' (f a)) f' Q) : Follows m r (x >>= g) (x' >>= g') f' Q := by
  cases o with
  | some a =>
    refine (of_ok (P := fun b r' => b = a ∧ r' = r) hx hx' ⟨rfl, rfl⟩).bind ?_
    rintro b r' ⟨rfl, rfl⟩
    exact hg b rfl
  | none =>
    exact (of_error (f := f) (P := fun _ _ => False) hr hx (.same he) hx').bind fun _ _ h => h.elim

section parts

variable {f' : γ → δ} {Q : γ → Run → Prop}

/-- **The heap** is behind the older one. -/
theorem heap {g : Heap → Exec γ} {g' : Heap → Exec δ}
    (h : Follows m r (g r.machine.heap) (g' (r.machine.heap.behind m.heap m.table.size)) f' Q) :
    Follows m r (Exec.heap >>= g) (Exec.heap >>= g') f' Q :=
  h

/-- The state of the run. -/
theorem get {g : Run → Exec γ} {g' : Run → Exec δ} (h : Follows m r (g r) (g' (r.behind m)) f' Q) :
    Follows m r (MonadState.get >>= g) (MonadState.get >>= g') f' Q :=
  h

/-- **A register** holds the moved value. -/
theorem read {g : Value → Exec γ} {g' : Value → Exec δ} (hr : r.machine.Clean) {src : Register}
    (hg : ∀ v, r.top.registers[src.index]? = some v → Follows m r (g v) (g' (v.move m.extent)) f' Q) :
    Follows m r (Exec.read src >>= g) (Exec.read src >>= g') f' Q := by
  have hget : (r.behind m).top.registers[src.index]? =
      (r.top.registers[src.index]?).map (Value.move m.extent) := Array.getElem?_map
  refine look hr (o := r.top.registers[src.index]?) (e := .registerOutOfRange src r.top.block.name) id ?_ ?_ hg
  · rw [Exec.read]
    cases r.top.registers[src.index]? <;> rfl
  · rw [Exec.read, hget]
    cases r.top.registers[src.index]? <;> rfl

theorem readFrom {first : Register} : (count : Nat) → ∀ {done : Array Value} {g : Array Value → Exec γ}
    {g' : Array Value → Exec δ}, r.machine.Clean →
    (∀ vs : Array Value, (∀ v ∈ vs, v ∈ done ∨ ∃ k, r.top.registers[(first.offset k).index]? = some v) →
      Follows m r (g vs) (g' (vs.map (Value.move m.extent))) f' Q) →
    Follows m r (Exec.readFrom first done count >>= g)
      (Exec.readFrom first (done.map (Value.move m.extent)) count >>= g') f' Q
  | 0, done, _, _, _, hg => hg done fun _ hv => .inl hv
  | count + 1, done, g, g', hr, hg => by
    simp only [Exec.readFrom, bind_assoc, Array.size_map]
    refine read hr fun v hv => ?_
    rw [← Array.map_push]
    refine readFrom count hr fun vs hvs => hg vs fun w hw => ?_
    rcases hvs w hw with hw | hw
    · rcases Array.mem_push.mp hw with hw | rfl
      · exact .inl hw
      · exact .inr ⟨_, hv⟩
    · exact .inr hw

/-- **A range of registers** holds the moved values. -/
theorem readRange {first : Register} {count : UInt32} {g : Array Value → Exec γ} {g' : Array Value → Exec δ}
    (hr : r.machine.Clean)
    (hg : ∀ vs : Array Value, (∀ v ∈ vs, ∃ k, r.top.registers[(first.offset k).index]? = some v) →
      Follows m r (g vs) (g' (vs.map (Value.move m.extent))) f' Q) :
    Follows m r (Exec.readRange first count >>= g) (Exec.readRange first count >>= g') f' Q := by
  have h : Follows m r (Exec.readFrom first #[] count.toNat >>= g)
      (Exec.readFrom first (#[].map (Value.move m.extent)) count.toNat >>= g') f' Q :=
    readFrom count.toNat hr fun vs hvs => hg vs fun v hv => (hvs v hv).resolve_left (Array.not_mem_empty v)
  rwa [Array.map_empty] at h

theorem identifier {g : String → Exec γ} {g' : String → Exec δ} (hr : r.machine.Clean) {i : UInt32}
    (hg : ∀ name, Follows m r (g name) (g' name) f' Q) :
    Follows m r (Exec.identifier i >>= g) (Exec.identifier i >>= g') f' Q := by
  refine look hr (f := id) (o := r.top.block.identifier? i) (e := .unknownIdentifier i) id ?_ ?_ fun a _ => hg a
  · rw [Exec.identifier]
    cases r.top.block.identifier? i <;> rfl
  · rw [Exec.identifier, show (r.behind m).top.block = r.top.block from rfl]
    cases r.top.block.identifier? i <;> rfl

theorem constant {g : Value → Exec γ} {g' : Value → Exec δ} (hr : r.machine.Clean) {i : UInt32}
    (hg : ∀ c : Constant, Follows m r (g c.value) (g' (c.value.move m.extent)) f' Q) :
    Follows m r (Exec.constant i >>= g) (Exec.constant i >>= g') f' Q := by
  refine look hr (f := Value.move m.extent) (o := (r.top.block.constant? i).map Constant.value)
    (e := .unknownConstant i) id ?_ ?_ fun a ha => ?_
  · rw [Exec.constant]
    cases r.top.block.constant? i <;> rfl
  · rw [Exec.constant, show (r.behind m).top.block = r.top.block from rfl]
    cases r.top.block.constant? i with
    | none => rfl
    | some c => cases c <;> rfl
  · obtain ⟨c, -, rfl⟩ := Option.map_eq_some_iff.mp ha
    exact hg c

theorem nested {g : Block → Exec γ} {g' : Block → Exec δ} (hr : r.machine.Clean) {i : UInt32}
    (hg : ∀ B, r.top.block.function? i = some B → Follows m r (g B) (g' B) f' Q) :
    Follows m r (Exec.nested i >>= g) (Exec.nested i >>= g') f' Q := by
  refine look hr (f := id) (o := r.top.block.function? i) (e := .unknownFunction i) id ?_ ?_ hg
  · rw [Exec.nested]
    cases r.top.block.function? i <;> rfl
  · rw [Exec.nested, show (r.behind m).top.block = r.top.block from rfl]
    cases r.top.block.function? i <;> rfl

/-- A message of the block. -/
theorem message {g : String → Exec γ} {g' : String → Exec δ} {i : UInt32}
    (hg : ∀ s, Follows m r (g s) (g' s) f' Q) :
    Follows m r (Exec.message i >>= g) (Exec.message i >>= g') f' Q := by
  obtain ⟨s, hs⟩ : ∃ s, ∀ r' : Run, r'.top.block = r.top.block → Exec.message i r' = .ok s r' := by
    cases hc : r.top.block.constant? i with
    | none => exact ⟨_, fun r' hr' => by simp only [Exec.message, hr', hc]; rfl⟩
    | some c =>
      cases c with
      | string s => exact ⟨s, fun r' hr' => by simp only [Exec.message, hr', hc]⟩
      | unit | bool | number => exact ⟨_, fun r' hr' => by simp only [Exec.message, hr', hc]; rfl⟩
  refine (of_ok (f := id) (P := fun a r' => a = s ∧ r' = r) (hs r rfl) (hs _ rfl) ⟨rfl, rfl⟩).bind ?_
  rintro a r' ⟨rfl, rfl⟩
  exact hg a

/-- **A name** has the moved value. -/
theorem lookup {g : Value → Exec γ} {g' : Value → Exec δ} (hm : m.Clean) (hr : r.Kept owners S base D)
    (he : r.top.environment < r.machine.heap.environments.size) {name : String}
    (hg : ∀ v, v.Settled r.machine.extent owners → Follows m r (g v) (g' (v.move m.extent)) f' Q) :
    Follows m r (Exec.lookup name >>= g) (Exec.lookup name >>= g') f' Q := by
  have hlookup : (r.behind m).machine.heap.lookup (r.behind m).top.environment name =
      (r.machine.heap.lookup r.top.environment name).map (Value.move m.extent) :=
    (hr.rooted hm).lookup he name
  refine look hr.clean (o := r.machine.heap.lookup r.top.environment name) (e := .unknownVariable name) id ?_ ?_
    fun v hv => hg v (hr.heap.lookup hv)
  · rw [Exec.lookup]
    cases r.machine.heap.lookup r.top.environment name <;> rfl
  · rw [Exec.lookup, hlookup]
    cases r.machine.heap.lookup r.top.environment name <;> rfl

end parts

/-! ### Writing -/

/-- An action on the heap. -/
theorem onHeap {g : Heap → α × Heap} {g' : Heap → β × Heap}
    (h : g' (r.machine.heap.behind m.heap m.table.size) =
      (f (g r.machine.heap).1, (g r.machine.heap).2.behind m.heap m.table.size)) :
    Follows m r (Exec.onHeap g) (Exec.onHeap g') f fun a r' =>
      a = (g r.machine.heap).1 ∧ r' = r.withHeap (g r.machine.heap).2 := by
  have hrun : Exec.onHeap g r = .ok (g r.machine.heap).1 (r.withHeap (g r.machine.heap).2) := rfl
  refine of_ok hrun ?_ ⟨rfl, rfl⟩
  have hrun' : Exec.onHeap g' (r.behind m) =
      .ok (g' (r.machine.heap.behind m.heap m.table.size)).1
        ((r.behind m).withHeap (g' (r.machine.heap.behind m.heap m.table.size)).2) := rfl
  rw [hrun', h]
  rfl

end Follows

/-- A failure that names a value. -/
theorem follows_throwText (hr : r.Kept owners S base D) {mk : String → Fault} {v : Value}
    (hv : v.Within r.machine.extent) (hmk : (mk (r.machine.heap.text v)).Renamed m.table.size r.machine.heap
      (mk ((r.machine.heap.rename m.table.size).text (v.rename m.table.size)))) :
    Follows m r (text v >>= fun s => throw (mk s)) (text (v.move m.extent) >>= fun s => throw (mk s)) f P :=
  .fails hr (mirrors_throwText (P := fun _ _ => False) hr.heap hv hmk) fun _ _ => id

/-- **A value is written.** -/
theorem Follows.write (hr : r.machine.Clean) {dst : Register} {v : Value} {P : Unit → Run → Prop}
    (hP : P () ⟨r.machine, { r.top with registers := r.top.registers.setIfInBounds dst.index v }, r.callers⟩) :
    Follows m r (write dst v) (write dst (v.move m.extent)) id P := by
  have hsize : (r.behind m).top.registers.size = r.top.registers.size := Array.size_map
  by_cases hlt : dst.index < r.top.registers.size
  · refine .of_ok (by rw [Exec.write, if_pos hlt]) ?_ hP
    rw [Exec.write, if_pos (hsize ▸ hlt)]
    simp only [Run.behind, Activation.move, Array.map_setIfInBounds]
  · refine .of_error (e := .registerOutOfRange dst r.top.block.name) hr ?_ (.same id) ?_
    · rw [Exec.write, if_neg hlt]
    · rw [Exec.write, if_neg (hsize ▸ hlt)]
      rfl

/-- **A settled value is written** to a register without a cell under construction. -/
theorem follows_write (hr : r.Kept owners S base D) {dst : Register} (hdst : dst.index ∉ S) {v : Value}
    (hv : v.Settled r.machine.extent owners) :
    Follows m r (write dst v) (write dst (v.move m.extent)) id fun _ r' =>
      r'.machine = r.machine ∧ r'.Kept owners S base D :=
  .write hr.clean ⟨rfl, { hr with top := hr.top.set hdst hv }⟩

/-- The code goes on at a position. -/
theorem follows_jump (hr : r.Kept owners S base D) (t : Int32) :
    Follows m r (jump t) (jump t) id fun _ r' => r'.Kept owners S base D := by
  by_cases ht : 0 ≤ t.toInt
  · have hx : jump t r = .ok () ⟨r.machine, { r.top with position := t.toInt.toNat }, r.callers⟩ := by
      rw [jump, if_pos ht]
    refine .of_ok hx ?_ { hr with }
    rw [jump, if_pos ht]
    rfl
  · refine .of_error (e := .unknownTarget t) hr.clean ?_ (.same id) ?_
    · rw [jump, if_neg ht]
    · rw [jump, if_neg ht]

end Exec

end Reified
