import Reified.Proofs.Machine.Heap
import Reified.Proofs.Machine.TypeSteps
import Reified.Proofs.Ty.Subst

/-!
# What an instruction leaves alone

An instruction that stays in its block has no say about the block that is executed, about the callers
that wait, about the functions there are, or about which environment is around which. Unless it opens or
closes a scope, it does not change the current environment either; and the code goes on behind it or at
its target.

Finding a value that is to be stored, say the type of a value, concerns at most the types and the cells
of lists, objects and holes: registers, names and functions are as they were.

A failure ends the run, and of the machine that is left behind only the heap matters.

## Main definitions

* `Run.Spares`, `Exec.Spares` — the same registers, names and functions
* `Heap.Alike` — the same functions, and the same environments around each other
* `Run.Stays`, `Exec.Stays` — inside a block, in the same environment
* `Instr.Writes` — the registers that an instruction writes
* `Exec.Acts` — what an instruction does inside a block

## Main results

* `Exec.spares_completeArgs` — the arguments of a call are found without a change of names or functions
* `Exec.acts_instr`, `Exec.stays_instr` — instructions inside a scope
* `Exec.step_eq_ok`, `Exec.call_eq_ok`, `Exec.newFunction_eq_ok`, `Exec.leave_eq_ok` — what a step does
-/

namespace Reified

/-! ## Heaps -/

namespace Heap

/-- The heaps have the same functions, and the same environments are around each other. -/
structure Alike (h h' : Heap) : Prop where
  closures : h'.closures = h.closures
  size : h'.environments.size = h.environments.size
  parent : ∀ e, h'.parent? e = h.parent? e

variable {h h₁ h' : Heap}

theorem Alike.refl (h : Heap) : h.Alike h := ⟨rfl, rfl, fun _ => rfl⟩

theorem Alike.trans (a : h.Alike h₁) (a' : h₁.Alike h') : h.Alike h' :=
  ⟨a'.closures.trans a.closures, a'.size.trans a.size, fun e => (a'.parent e).trans (a.parent e)⟩

/-- Only cells have changed that are neither functions nor environments. -/
structure Spared (h h' : Heap) : Prop where
  closures : h'.closures = h.closures
  environments : h'.environments = h.environments

theorem Spared.refl (h : Heap) : h.Spared h := ⟨rfl, rfl⟩

theorem Spared.trans (s : h.Spared h₁) (s' : h₁.Spared h') : h.Spared h' :=
  ⟨s'.closures.trans s.closures, s'.environments.trans s.environments⟩

theorem Spared.alike (s : h.Spared h') : h.Alike h' :=
  ⟨s.closures, by rw [s.environments], fun e => by rw [parent?, environment, s.environments]; rfl⟩

theorem alike_define (h : Heap) (e : Nat) (name : String) (v : Value) : h.Alike (h.define e name v) :=
  ⟨rfl, size_define, fun _ => parent?_define⟩

mutual

theorem spared_zero : (t : Ty) → (h : Heap) → h.Spared (zero t h).2
  | .name s, h => by
    rw [zero.eq_def]
    split <;> first | exact .refl h | simp_all [Spared.refl]
  | .array _, h => ⟨rfl, rfl⟩
  | .tuple ts, h => by
    rw [zero]
    exact (spared_zeros ts h).trans ⟨rfl, rfl⟩
  | .record fs, h => by
    rw [zero]
    exact (spared_zeroFields fs h).trans ⟨rfl, rfl⟩
  | .union t _, h => by
    rw [zero]
    exact spared_zero t h
  | .binding _ t, h => by
    rw [zero]
    exact spared_zero t h
  | .var _, h => .refl h
  | .fn .., h => .refl h

theorem spared_zeros : (ts : List Ty) → (h : Heap) → h.Spared (zeros ts h).2
  | [], h => .refl h
  | t :: ts, h => by
    rw [zeros]
    exact (spared_zero t h).trans (spared_zeros ts _)

theorem spared_zeroFields : (fs : List (String × Ty)) → (h : Heap) → h.Spared (zeroFields fs h).2
  | [], h => .refl h
  | (_, t) :: fs, h => by
    rw [zeroFields]
    exact (spared_zero t h).trans (spared_zeroFields fs _)

end

end Heap

/-! ## Runs -/

/-- At most the types and the cells of lists, objects and holes have changed. -/
structure Run.Spares (r r' : Run) : Prop where
  heap : r.machine.heap.Spared r'.machine.heap
  globals : r'.machine.globals = r.machine.globals
  top : r'.top = r.top
  callers : r'.callers = r.callers

theorem Run.Spares.refl (r : Run) : r.Spares r := ⟨.refl _, rfl, rfl, rfl⟩

theorem Run.Spares.trans {r r₁ r' : Run} (h : r.Spares r₁) (h' : r₁.Spares r') : r.Spares r' :=
  ⟨h.heap.trans h'.heap, h'.globals.trans h.globals, h'.top.trans h.top, h'.callers.trans h.callers⟩

/-- The run is still in the same block and the same environment, for the same callers, and the code goes
on at the same position or at one that satisfies `φ`. Names have been defined only if `d` holds. -/
structure Run.Stays (d : Prop) (φ : Nat → Prop) (r r' : Run) : Prop where
  heap : r.machine.heap.Alike r'.machine.heap
  names : d ∨ r'.machine.heap.environments = r.machine.heap.environments
  globals : r'.machine.globals = r.machine.globals
  block : r'.top.block = r.top.block
  environment : r'.top.environment = r.top.environment
  resume : r'.top.resume = r.top.resume
  file : r'.top.registers.size = r.top.registers.size
  callers : r'.callers = r.callers
  position : r'.top.position = r.top.position ∨ φ r'.top.position

namespace Run.Stays

variable {d : Prop} {φ : Nat → Prop} {r r₁ r' : Run}

theorem refl (r : Run) : r.Stays d φ r := ⟨.refl _, .inr rfl, rfl, rfl, rfl, rfl, rfl, rfl, .inl rfl⟩

theorem trans (h : r.Stays d φ r₁) (h' : r₁.Stays d φ r') : r.Stays d φ r' := by
  refine ⟨h.heap.trans h'.heap, h'.names.elim .inl fun heq => h.names.imp_right heq.trans,
    h'.globals.trans h.globals, h'.block.trans h.block, h'.environment.trans h.environment,
    h'.resume.trans h.resume, h'.file.trans h.file, h'.callers.trans h.callers, ?_⟩
  rcases h'.position with heq | hφ
  · exact heq ▸ h.position
  · exact .inr hφ

end Run.Stays

/-- The heap is still alike. This is what is known after a failure. -/
structure Run.Fails (r r' : Run) : Prop where
  heap : r.machine.heap.Alike r'.machine.heap
  globals : r'.machine.globals = r.machine.globals

theorem Run.Fails.refl (r : Run) : r.Fails r := ⟨.refl _, rfl⟩

theorem Run.Stays.fails {d : Prop} {φ : Nat → Prop} {r r' : Run} (h : r.Stays d φ r') : r.Fails r' :=
  ⟨h.heap, h.globals⟩

theorem Run.Fails.trans {r r₁ r' : Run} (h : r.Fails r₁) (h' : r₁.Fails r') : r.Fails r' :=
  ⟨h.heap.trans h'.heap, h'.globals.trans h.globals⟩

theorem Run.Spares.fails {r r' : Run} (h : r.Spares r') : r.Fails r' :=
  ⟨h.heap.alike, h.globals⟩

theorem Run.Spares.stays {d : Prop} {φ : Nat → Prop} {r r' : Run} (h : r.Spares r') : r.Stays d φ r' :=
  ⟨h.heap.alike, .inr h.heap.environments, h.globals, by rw [h.top], by rw [h.top], by rw [h.top], by rw [h.top],
    h.callers, .inl (by rw [h.top])⟩

/-- The instruction writes the register, be it at the end of a block that it enters. -/
def Instr.Writes : Instr → Nat → Prop
  | .move dst _ | .loadConstant dst _ | .getLocal dst _ | .newArray dst _ | .getArrayIndex dst _ _
  | .newTuple dst _ | .getTupleIndex dst _ _ | .newObject dst _ | .getField dst _ _ | .tryGetField dst _ _ _
  | .newFunction dst _ | .call dst _ _ _ | .isEqual dst _ _ | .resolveType dst _ | .checkType dst _ _
  | .checkTypeOf dst _ _ | .newVarType dst _ _ _ | .newNameType dst _ | .newArrayType dst _
  | .newTupleType dst _ _ | .newRecordType dst _ _ _ | .newFunctionType dst _ _ _ _ | .newUnionType dst _ _
  | .newBindingType dst _ _ | .newValue dst _ | .getTypeForValue dst _ | .newCallHole dst _ _ _
  | .newSubscriptHole dst _ _ | .newMemberHole dst _ _ | .isCell dst _ _ => (· = dst.index)
  | .inferImplicit _ count first => fun j => first.index ≤ j ∧ j < first.index + count.toNat
  | _ => fun _ => False

namespace Exec

variable {α β : Type} {d : Prop} {φ : Nat → Prop} {x : Exec α} {f : α → Exec β}

theorem bind_eq_ok {b : β} {r r' : Run} (h : (x >>= f) r = .ok b r') :
    ∃ a r₁, x r = .ok a r₁ ∧ f a r₁ = .ok b r' := by
  cases hx : x r with
  | ok a r₁ =>
    rw [bind_ok hx] at h
    exact ⟨a, r₁, rfl, h⟩
  | error e r₁ =>
    rw [bind_error hx] at h
    cases h

theorem bind_eq_error {e : Fault} {r r' : Run} (h : (x >>= f) r = .error e r') :
    x r = .error e r' ∨ ∃ a r₁, x r = .ok a r₁ ∧ f a r₁ = .error e r' := by
  cases hx : x r with
  | ok a r₁ =>
    rw [bind_ok hx] at h
    exact .inr ⟨a, r₁, rfl, h⟩
  | error e r₁ =>
    rw [bind_error hx] at h
    cases h
    exact .inl rfl

/-- The action changes at most the types and the cells of lists, objects and holes. -/
def Spares (x : Exec α) : Prop :=
  ∀ r, match x r with
    | .ok _ r' => r.Spares r'
    | .error _ r' => r.Spares r'

namespace Spares

variable {r r' : Run}

theorem ok {a : α} (hx : Spares x) (h : x r = .ok a r') : r.Spares r' := by
  have hr := hx r
  rwa [h] at hr

theorem error {e : Fault} (hx : Spares x) (h : x r = .error e r') : r.Spares r' := by
  have hr := hx r
  rwa [h] at hr

theorem pure (a : α) : Spares (pure a) := fun r => .refl r

/-- **One action after the other.** -/
theorem bind (hx : Spares x) (hf : ∀ a, Spares (f a)) : Spares (x >>= f) := by
  intro r
  cases h : (x >>= f) r with
  | ok b r' =>
    obtain ⟨a, r₁, hxr, hfr⟩ := bind_eq_ok h
    exact (hx.ok hxr).trans ((hf a).ok hfr)
  | error e r' =>
    rcases bind_eq_error h with hxr | ⟨a, r₁, hxr, hfr⟩
    · exact hx.error hxr
    · exact (hx.ok hxr).trans ((hf a).error hfr)

theorem throw (e : Fault) : Spares (throw e : Exec α) := fun r => .refl r

theorem get : Spares get := fun r => .refl r

theorem heap : Spares heap := fun r => .refl r

theorem onHeap {g : Heap → α × Heap} (h : ∀ h : Heap, h.Spared (g h).2) : Spares (onHeap g) :=
  fun _ => ⟨h _, rfl, rfl, rfl⟩

/-- What is done to the types alone does not matter. -/
theorem onFrames (g : Frames → Table → α × Frames × Table) : Spares (onFrames g) :=
  fun _ => ⟨.refl _, rfl, rfl, rfl⟩

theorem onTable (g : Table → α × Table) : Spares (onTable g) := fun _ => ⟨.refl _, rfl, rfl, rfl⟩

theorem unify (s t : Ty) : Spares (unify s t) := by
  intro r
  rw [Exec.unify]
  cases r.machine.table.unify s t with
  | ok _ T => exact ⟨.refl _, rfl, rfl, rfl⟩
  | error e T => exact ⟨.refl _, rfl, rfl, rfl⟩

theorem text (v : Value) : Spares (text v) := heap.bind fun _ => pure _

theorem ite {c : Prop} [Decidable c] {x y : Exec α} (hx : Spares x) (hy : Spares y) :
    Spares (if c then x else y) := by
  split
  · exact hx
  · exact hy

/-! ### Registers and pools -/

/-- Looking at a part of the run that may not be there. -/
theorem of_same (h : ∀ r, (∃ a, x r = .ok a r) ∨ ∃ e, x r = .error e r) : Spares x := by
  intro r
  rcases h r with ⟨a, ha⟩ | ⟨e, he⟩
  · rw [ha]
    exact .refl r
  · rw [he]
    exact .refl r

theorem read (r : Register) : Spares (read r) := of_same fun s => by
  unfold Exec.read
  split
  · exact .inl ⟨_, rfl⟩
  · exact .inr ⟨_, rfl⟩

theorem readFrom (first : Register) (done : Array Value) : (count : Nat) →
    Spares (readFrom first done count)
  | 0 => pure done
  | n + 1 => (read _).bind fun v => readFrom first (done.push v) n

theorem readRange (first : Register) (count : UInt32) : Spares (readRange first count) :=
  readFrom first #[] count.toNat

theorem identifier (i : UInt32) : Spares (identifier i) := of_same fun s => by
  unfold Exec.identifier
  split
  · exact .inl ⟨_, rfl⟩
  · exact .inr ⟨_, rfl⟩

theorem constant (i : UInt32) : Spares (constant i) := of_same fun s => by
  unfold Exec.constant
  split
  · exact .inl ⟨_, rfl⟩
  · exact .inr ⟨_, rfl⟩

theorem nested (i : UInt32) : Spares (nested i) := of_same fun s => by
  unfold Exec.nested
  split
  · exact .inl ⟨_, rfl⟩
  · exact .inr ⟨_, rfl⟩

theorem message (i : UInt32) : Spares (message i) := of_same fun s => by
  unfold Exec.message
  split <;> exact .inl ⟨_, rfl⟩

theorem lookup (name : String) : Spares (lookup name) := of_same fun s => by
  unfold Exec.lookup
  split
  · exact .inl ⟨_, rfl⟩
  · exact .inr ⟨_, rfl⟩

end Spares

/-! ## Types -/

theorem spares_newVar (name : String) (inferred rigid : Bool) :
    Spares (newVar name inferred rigid) := .onFrames _

theorem spares_freshVar : Spares freshVar := spares_newVar "" false false

theorem spares_pushFrame : Spares pushFrame := .onFrames _

theorem spares_popFrame : Spares popFrame := .onFrames _

theorem spares_freshVars : (done : List Ty) → (n : Nat) → Spares (freshVars done n)
  | _, 0 => .pure _
  | done, n + 1 => spares_freshVar.bind fun t => spares_freshVars (t :: done) n

theorem spares_mapM {γ δ : Type} {f : γ → Exec δ} (hf : ∀ x, Spares (f x)) (xs : List γ) :
    Spares (xs.mapM f) := by
  induction xs with
  | nil => exact .pure _
  | cons x xs ih =>
    rw [List.mapM_cons]
    exact (hf x).bind fun _ => ih.bind fun _ => .pure _

theorem spares_typeOfWithin (n : Nat) (v : Value) : Spares (typeOfWithin n v) := by
  induction n generalizing v with
  | zero =>
    cases v with
    | builtin op => exact spares_freshVar.bind fun _ => .pure _
    | function c => exact Spares.heap.bind fun _ => .onFrames _
    | array | tuple | object | hole => exact spares_freshVar
    | unit | bool | number | string | type => exact .pure _
  | succ n ih =>
    cases v with
    | builtin op => exact spares_freshVar.bind fun _ => .pure _
    | function c => exact Spares.heap.bind fun _ => .onFrames _
    | array c =>
      rw [typeOfWithin]
      refine Spares.heap.bind fun h => ?_
      split
      · exact (ih _).bind fun _ => .pure _
      · exact spares_freshVar.bind fun _ => .pure _
    | tuple c =>
      rw [typeOfWithin]
      exact Spares.heap.bind fun _ => (spares_mapM ih _).bind fun _ => .pure _
    | object c =>
      rw [typeOfWithin]
      exact Spares.heap.bind fun _ =>
        (spares_mapM (fun f : String × Value => (ih f.2).bind fun _ => .pure _) _).bind fun _ => .pure _
    | hole => exact spares_freshVar
    | unit | bool | number | string | type => exact .pure _

theorem spares_typeOf (v : Value) : Spares (typeOf v) :=
  Spares.heap.bind fun _ => spares_typeOfWithin _ v

theorem spares_asType (v : Value) : Spares (asType v) := by
  cases v with
  | type t => exact .pure _
  | hole c => exact spares_freshVar
  | _ => exact (Spares.text _).bind fun _ => .throw _

theorem spares_asTypes : (done : List Ty) → (vs : List Value) → Spares (asTypes done vs)
  | _, [] => .pure _
  | done, v :: vs => (spares_asType v).bind fun t => spares_asTypes (t :: done) vs

theorem spares_checkType (expected : TyClass) (v : Value) : Spares (checkType expected v) := by
  rw [checkType.eq_def]
  split
  case h_4 => exact (Spares.onTable _).bind fun _ => .pure _
  all_goals exact .pure _

theorem spares_checkTypeOf (expected : TyClass) (v : Value) : Spares (checkTypeOf expected v) := by
  rw [checkTypeOf.eq_def]
  split
  case h_5 => exact (spares_typeOf _).bind fun _ => (Spares.onTable _).bind fun _ => .pure _
  all_goals exact .pure _

theorem spares_recordFields (fields : Fields Ty) (keys : List Value) (ts : List Ty) :
    Spares (recordFields fields keys ts) := by
  induction keys generalizing fields ts with
  | nil => exact .pure _
  | cons key keys ih =>
    cases ts with
    | nil => exact .pure _
    | cons t ts =>
      cases key with
      | string name => exact ih _ ts
      | _ => exact (Spares.text _).bind fun _ => .throw _

/-! ## Elements -/

theorem spares_index (v : Value) : Spares (index v) := by
  cases v with
  | number x =>
    rw [index]
    split
    · exact .pure _
    · exact (Spares.text _).bind fun _ => .throw _
  | _ => exact (Spares.text _).bind fun _ => .throw _

theorem spares_item {shown : Exec String} (h : Spares shown) (c i : Nat) (target : Value) :
    Spares (item c i shown target) := by
  refine Spares.heap.bind fun _ => ?_
  split
  · exact .pure _
  · exact h.bind fun _ => (Spares.text _).bind fun _ => .throw _

theorem spares_subscript (target i : Value) : Spares (subscript target i) := by
  rw [subscript.eq_def]
  split
  case h_1 => exact (spares_index _).bind fun _ => spares_item (.text _) _ _ _
  case h_2 =>
    refine Spares.heap.bind fun _ => ?_
    split
    · exact .pure _
    · exact (Spares.text _).bind fun _ => .throw _
  case h_3 =>
    exact .ite (.onHeap fun _ => ⟨rfl, rfl⟩) <|
      (Spares.text _).bind fun _ => (Spares.text _).bind fun _ => .throw _

/-! ## Inferred arguments -/

theorem spares_unifyArgs (function : String) (args : Array Value) (position : Nat)
    (params : List Ty) : Spares (unifyArgs function args position params) := by
  induction params generalizing position with
  | nil => exact .pure _
  | cons param params ih =>
    rw [unifyArgs]
    split
    · exact .throw _
    · exact (spares_typeOf _).bind fun t => (Spares.unify _ _).bind fun _ => ih (position + 1)

theorem readSlots_cons (done : List Ty) (slot : Ty) (slots : List Ty) :
    readSlots done (slot :: slots) = (do
      match ← resolveDeep slot.slotType.2 with
      | .var _ => throw (.type (.cannotInfer slot.slotType.1))
      | t => readSlots (t :: done) slots) := by
  cases slot <;> rfl

theorem spares_readSlots (done slots : List Ty) : Spares (readSlots done slots) := by
  induction slots generalizing done with
  | nil => exact .pure _
  | cons slot slots ih =>
    refine (Spares.onTable _).bind fun t => ?_
    split
    · exact .throw _
    · exact ih _

theorem spares_inferImplicit (c : Closure) (count : Nat) (args : Array Value) :
    Spares (inferImplicit c count args) := by
  refine (Spares.onFrames _).bind fun t => (Spares.onTable _).bind fun t => ?_
  split
  · exact (spares_unifyArgs _ _ _ _).bind fun _ => spares_readSlots _ _
  · exact .throw _

/-- As many types are read as there are slots. -/
theorem length_readSlots {slots done : List Ty} {r r' : Run} {found : List Ty}
    (h : readSlots done slots r = .ok found r') : found.length = done.length + slots.length := by
  induction slots generalizing done r with
  | nil =>
    cases h
    simp
  | cons slot slots ih =>
    obtain ⟨t, r₁, -, h⟩ := bind_eq_ok h
    split at h
    next => cases h
    next =>
      rw [ih h]
      simp only [List.length_cons]
      omega

/-- No more arguments are found than are asked for. -/
theorem length_inferImplicit {c : Closure} {count : Nat} {args : Array Value} {r r' : Run} {found : List Ty}
    (h : inferImplicit c count args r = .ok found r') : found.length ≤ count := by
  rw [inferImplicit] at h
  obtain ⟨s, r₁, -, h⟩ := bind_eq_ok h
  obtain ⟨t, r₂, -, h⟩ := bind_eq_ok h
  split at h
  next params _ _ =>
    obtain ⟨_, r₃, -, h⟩ := bind_eq_ok h
    rw [length_readSlots h, List.length_nil, Nat.zero_add]
    exact (List.length_take_le ..)
  next => cases h

theorem spares_inFrame {act : Exec α} (h : Spares act) : Spares (inFrame act) := by
  intro r
  have hact : Spares (pushFrame >>= fun _ => act) := spares_pushFrame.bind fun _ => h
  rw [inFrame]
  cases hr : (pushFrame >>= fun _ => act) r with
  | ok a r₁ => exact (hact.ok hr).trans (spares_popFrame r₁)
  | error e r₁ => exact (hact.error hr).trans (spares_popFrame r₁)

/-- The arguments of a call are found inside the block of the caller. -/
theorem spares_completeArgs (c : Closure) (args : Array Value) : Spares (completeArgs c args) := by
  rw [completeArgs]
  split
  · exact .pure _
  refine (Spares.onTable _).bind fun t => ?_
  extract_lets implicit all given
  have hgiven : Spares (given ()) :=
    (spares_inFrame (spares_inferImplicit _ _ _)).bind fun _ => .pure _
  split
  · have hthrow (e : Fault) : Spares (throw e : Exec PUnit) := .throw e
    exact (hthrow _).bind fun _ => hgiven
  · exact hgiven

/-! ## Staying inside a block -/

/-- If the action succeeds, the run is still in the same block and the same environment. It defines names only
if `d` holds. -/
def Stays (d : Prop) (φ : Nat → Prop) (x : Exec α) : Prop :=
  ∀ r, match x r with
    | .ok _ r' => r.Stays d φ r'
    | .error _ r' => r.Fails r'

theorem Spares.stays (hx : Spares x) : Stays d φ x := by
  intro r
  cases h : x r with
  | ok a r' => exact (hx.ok h).stays
  | error e r' => exact (hx.error h).fails

/-- Something is done with what has been found. -/
theorem Spares.bindStays (hx : Spares x) (hf : ∀ r a r', x r = .ok a r' → Stays d φ (f a)) :
    Stays d φ (x >>= f) := by
  intro r
  cases h : (x >>= f) r with
  | ok b r' =>
    obtain ⟨a, r₁, hxr, hfr⟩ := bind_eq_ok h
    have hr := hf r a r₁ hxr r₁
    rw [hfr] at hr
    exact (hx.ok hxr).stays.trans hr
  | error e r' =>
    rcases bind_eq_error h with hxr | ⟨a, r₁, hxr, hfr⟩
    · exact (hx.error hxr).fails
    · have hr := hf r a r₁ hxr r₁
      rw [hfr] at hr
      exact (hx.ok hxr).fails.trans hr

namespace Stays

variable {r r' : Run}

theorem ok {a : α} (hx : Stays d φ x) (h : x r = .ok a r') : r.Stays d φ r' := by
  have hr := hx r
  rwa [h] at hr

theorem error {e : Fault} (hx : Stays d φ x) (h : x r = .error e r') : r.Fails r' := by
  have hr := hx r
  rwa [h] at hr

theorem pure (a : α) : Stays d φ (pure a) := fun r => .refl r

/-- **One action after the other.** -/
theorem bind (hx : Stays d φ x) (hf : ∀ a, Stays d φ (f a)) : Stays d φ (x >>= f) := by
  intro r
  cases h : (x >>= f) r with
  | ok b r' =>
    obtain ⟨a, r₁, hxr, hfr⟩ := bind_eq_ok h
    exact (hx.ok hxr).trans ((hf a).ok hfr)
  | error e r' =>
    rcases bind_eq_error h with hxr | ⟨a, r₁, hxr, hfr⟩
    · exact hx.error hxr
    · exact (hx.ok hxr).fails.trans ((hf a).error hfr)

theorem throw (e : Fault) : Stays d φ (throw e : Exec α) := fun r => .refl r

theorem onHeap {g : Heap → α × Heap} (h : ∀ h : Heap, h.Alike (g h).2)
    (hd : d ∨ ∀ h : Heap, (g h).2.environments = h.environments) : Stays d φ (onHeap g) :=
  fun _ => ⟨h _, hd.imp_right fun hd => hd _, rfl, rfl, rfl, rfl, rfl, rfl, .inl rfl⟩

/-! ### Registers and jumps -/

theorem write (r : Register) (v : Value) : Stays d φ (write r v) := by
  intro s
  rw [Exec.write]
  by_cases hlt : r.index < s.top.registers.size
  · rw [if_pos hlt]
    exact ⟨.refl _, .inr rfl, rfl, rfl, rfl, rfl, Array.size_setIfInBounds, rfl, .inl rfl⟩
  · rw [if_neg hlt]
    exact ⟨.refl _, rfl⟩

theorem jump {t : Int32} (ht : 0 ≤ t.toInt → φ t.toInt.toNat) : Stays d φ (jump t) := by
  intro s
  rw [Exec.jump]
  by_cases hnonneg : 0 ≤ t.toInt
  · rw [if_pos hnonneg]
    exact ⟨.refl _, .inr rfl, rfl, rfl, rfl, rfl, rfl, rfl, .inr (ht hnonneg)⟩
  · rw [if_neg hnonneg]
    exact ⟨.refl _, rfl⟩

end Stays

/-! ## Instructions -/

/-- What an instruction does inside its block and its environment: something is found, and then registers that
satisfy `W` are written, a name is defined, which only happens if `d` holds, or the code goes on at a position
that satisfies `φ`. -/
inductive Acts (W : Nat → Prop) (d : Prop) (φ : Nat → Prop) : Exec Unit → Prop
  | spares {x : Exec Unit} (hx : Spares x) : Acts W d φ x
  | find {α : Type} {x : Exec α} {f : α → Exec Unit} (hx : Spares x)
      (hf : ∀ r a r', x r = .ok a r' → Acts W d φ (f a)) : Acts W d φ (x >>= f)
  | seq {x y : Exec Unit} (hx : Acts W d φ x) (hy : Acts W d φ y) : Acts W d φ (x >>= fun _ => y)
  | write (r : Register) (v : Value) (hr : W r.index) : Acts W d φ (write r v)
  | define (hd : d) (e : Nat) (name : String) (v : Value) :
      Acts W d φ (onHeap fun h => ((), h.define e name v))
  | jump {t : Int32} (ht : 0 ≤ t.toInt → φ t.toInt.toNat) : Acts W d φ (jump t)

theorem Spares.bindActs {W : Nat → Prop} {f : α → Exec Unit} (hx : Spares x) (hf : ∀ a, Acts W d φ (f a)) :
    Acts W d φ (x >>= f) :=
  .find hx fun _ a _ _ => hf a

namespace Acts

variable {W : Nat → Prop} {x y : Exec Unit}

theorem pure (a : Unit) : Acts W d φ (pure a) := .spares (.pure a)

theorem throw (e : Fault) : Acts W d φ (throw e) := .spares (.throw e)

theorem ite {c : Prop} [Decidable c] (hx : Acts W d φ x) (hy : Acts W d φ y) :
    Acts W d φ (if c then x else y) := by
  split
  · exact hx
  · exact hy

theorem onCells {g : Heap → Unit × Heap} (h : ∀ h : Heap, h.Spared (g h).2) : Acts W d φ (onHeap g) :=
  .spares (.onHeap h)

theorem create {dst : Register} {g : Heap → Value × Heap} (hdst : W dst.index)
    (h : ∀ h : Heap, h.Spared (g h).2) : Acts W d φ (create dst g) :=
  (Spares.onHeap h).bindActs fun v => .write dst v hdst

theorem writeFrom (first : Register) {vs : List Value} {done : Nat}
    (h : ∀ k, done ≤ k → k < done + vs.length → W (first.offset k).index) :
    Acts W d φ (writeFrom first done vs) := by
  induction vs generalizing done with
  | nil => exact .pure ()
  | cons v vs ih =>
    rw [List.length_cons] at h
    exact .seq (.write _ v (h done (Nat.le_refl _) (by omega))) (ih fun k hle hlt => h k (by omega) (by omega))

/-- What an instruction does stays inside the block and its environment. -/
theorem stays (h : Acts W d φ x) : Stays d φ x := by
  induction h with
  | spares hx => exact hx.stays
  | find hx _ ih => exact hx.bindStays ih
  | seq _ _ ihx ihy => exact ihx.bind fun _ => ihy
  | write r v _ => exact .write r v
  | define hd e name v => exact .onHeap (fun h => h.alike_define e name v) (.inl hd)
  | jump ht => exact .jump ht

end Acts

/-- **What an instruction does inside a scope**: it writes its own registers, and the code goes on behind it or
at its target. -/
theorem acts_instr {i : Instr} (hpush : i ≠ .pushScope) (hpop : i ≠ .popScope)
    (hd : ∀ j src, i = .setLocal j src → d) (hφ : ∀ t, i.target? = some t → 0 ≤ t.toInt → φ t.toInt.toNat) :
    Acts i.Writes d φ (instr i) := by
  cases i with
  | leave | call | newFunction => exact .pure _
  | move dst src => exact (Spares.read _).bindActs fun _ => .write _ _ rfl
  | loadConstant dst c => exact (Spares.constant _).bindActs fun _ => .write _ _ rfl
  | getLocal dst j =>
    exact (Spares.identifier _).bindActs fun _ => (Spares.lookup _).bindActs fun _ => .write _ _ rfl
  | setLocal j src =>
    exact (Spares.identifier _).bindActs fun _ => (Spares.read _).bindActs fun _ => Spares.get.bindActs fun _ =>
      .define (hd j src rfl) _ _ _
  | newArray | newTuple | newObject => exact .create rfl fun _ => ⟨rfl, rfl⟩
  | setArrayIndex array j value =>
    refine (Spares.read _).bindActs fun v => ?_
    cases v with
    | array c => exact (Spares.read _).bindActs fun _ => .onCells fun _ => ⟨rfl, rfl⟩
    | _ => exact .throw _
  | getArrayIndex dst array j =>
    refine (Spares.read _).bindActs fun target => (Spares.read _).bindActs fun j => ?_
    cases target with
    | array c =>
      exact (spares_index j).bindActs fun _ => (spares_item (.text j) c _ _).bindActs fun _ => .write _ _ rfl
    | _ => exact (Spares.text _).bindActs fun _ => .throw _
  | setTupleIndex tuple j value =>
    refine (Spares.read _).bindActs fun v => ?_
    cases v with
    | tuple c =>
      exact (Spares.read _).bindActs fun _ => Spares.heap.bindActs fun _ =>
        .ite (.onCells fun _ => ⟨rfl, rfl⟩) (.throw _)
    | _ => exact .throw _
  | getTupleIndex dst tuple j =>
    refine (Spares.read _).bindActs fun target => ?_
    cases target with
    | tuple c => exact (spares_item (.pure _) c _ _).bindActs fun _ => .write _ _ rfl
    | _ => exact (Spares.text _).bindActs fun _ => .throw _
  | setField object f value =>
    refine (Spares.read _).bindActs fun v => ?_
    cases v with
    | object c =>
      exact (Spares.identifier _).bindActs fun _ => (Spares.read _).bindActs fun _ =>
        .onCells fun _ => ⟨rfl, rfl⟩
    | _ => exact .throw _
  | getField dst object f =>
    refine (Spares.identifier _).bindActs fun _ => (Spares.read _).bindActs fun _ => Spares.heap.bindActs fun _ => ?_
    split
    · exact .write _ _ rfl
    · exact (Spares.text _).bindActs fun _ => .throw _
  | tryGetField dst object f t =>
    refine (Spares.identifier _).bindActs fun _ => (Spares.read _).bindActs fun _ => Spares.heap.bindActs fun _ => ?_
    split
    · exact .write _ _ rfl
    · exact .jump (hφ t rfl)
  | jump t => exact .jump (hφ t rfl)
  | jumpIfFalse condition t =>
    refine (Spares.read _).bindActs fun v => ?_
    split
    · exact .pure _
    · exact .jump (hφ t rfl)
    · exact (Spares.text _).bindActs fun _ => .throw _
  | isEqual dst lhs rhs =>
    exact (Spares.read _).bindActs fun _ => (Spares.read _).bindActs fun _ => .write _ _ rfl
  | pushScope => exact absurd rfl hpush
  | popScope => exact absurd rfl hpop
  | pushFrame => exact .spares spares_pushFrame
  | popFrame => exact .spares spares_popFrame
  | unify lhs rhs =>
    exact (Spares.read _).bindActs fun _ => (spares_asType _).bindActs fun _ => (Spares.read _).bindActs fun _ =>
      (spares_asType _).bindActs fun _ => .spares (.unify _ _)
  | resolveType dst ty =>
    exact (Spares.read _).bindActs fun _ => (spares_asType _).bindActs fun _ => (Spares.onTable _).bindActs fun _ =>
      .write _ _ rfl
  | checkType dst ty expected =>
    exact (Spares.read _).bindActs fun _ => (spares_checkType _ _).bindActs fun _ => .write _ _ rfl
  | checkTypeOf dst value expected =>
    exact (Spares.read _).bindActs fun _ => (spares_checkTypeOf _ _).bindActs fun _ => .write _ _ rfl
  | typeError j | runtimeError j => exact (Spares.message _).bindActs fun _ => .throw _
  | inferImplicit function count first =>
    refine (Spares.read _).bindActs fun callee => Spares.get.bindActs fun _ => ?_
    cases callee with
    | function c =>
      refine Spares.heap.bindActs fun _ => .find (spares_inferImplicit _ _ _) fun _ found _ hfound => ?_
      have hle := length_inferImplicit hfound
      refine .writeFrom _ fun k _ hk => ⟨first.le_index_offset k, ?_⟩
      have := first.index_offset_le k
      rw [List.length_map] at hk
      omega
    | _ => exact (Spares.text _).bindActs fun _ => .throw _
  | newVarType dst name inferred rigid =>
    exact (Spares.identifier _).bindActs fun _ => (spares_newVar _ _ _).bindActs fun _ => .write _ _ rfl
  | newNameType dst name => exact (Spares.identifier _).bindActs fun _ => .write _ _ rfl
  | newArrayType dst item =>
    exact (Spares.read _).bindActs fun _ => (spares_asType _).bindActs fun _ => .write _ _ rfl
  | newTupleType dst count first =>
    exact (Spares.readRange _ _).bindActs fun _ => (spares_asTypes _ _).bindActs fun _ => .write _ _ rfl
  | newRecordType dst count firstKey firstType =>
    exact (Spares.readRange _ _).bindActs fun _ => (Spares.readRange _ _).bindActs fun _ =>
      (spares_asTypes _ _).bindActs fun _ => (spares_recordFields _ _ _).bindActs fun _ => .write _ _ rfl
  | newFunctionType dst count first result implicit =>
    exact (Spares.readRange _ _).bindActs fun _ => (spares_asTypes _ _).bindActs fun _ =>
      (Spares.read _).bindActs fun _ => (spares_asType _).bindActs fun _ => .write _ _ rfl
  | newUnionType dst lhs rhs =>
    exact (Spares.read _).bindActs fun _ => (spares_asType _).bindActs fun _ => (Spares.read _).bindActs fun _ =>
      (spares_asType _).bindActs fun _ => .write _ _ rfl
  | newBindingType dst name ty =>
    exact (Spares.identifier _).bindActs fun _ => (Spares.read _).bindActs fun _ =>
      (spares_asType _).bindActs fun _ => .write _ _ rfl
  | newValue dst ty =>
    exact (Spares.read _).bindActs fun _ => (spares_asType _).bindActs fun _ => (Spares.onTable _).bindActs fun _ =>
      .create rfl fun h => h.spared_zero _
  | getTypeForValue dst value =>
    exact (Spares.read _).bindActs fun _ => (spares_typeOf _).bindActs fun _ => .write _ _ rfl
  | newCallHole dst callee argc first =>
    exact (Spares.read _).bindActs fun _ => (Spares.readRange _ _).bindActs fun _ =>
      .ite (.create rfl fun _ => ⟨rfl, rfl⟩) <| (Spares.text _).bindActs fun _ => .throw _
  | newSubscriptHole dst target j =>
    exact (Spares.read _).bindActs fun _ => (Spares.read _).bindActs fun _ => (spares_subscript _ _).bindActs fun _ =>
      .write _ _ rfl
  | newMemberHole dst object f =>
    exact (Spares.identifier _).bindActs fun _ => (Spares.read _).bindActs fun _ =>
      .ite (.create rfl fun _ => ⟨rfl, rfl⟩) <| (Spares.text _).bindActs fun _ => .throw _
  | isCell dst value kind => exact (Spares.read _).bindActs fun _ => .write _ _ rfl

/-- **An instruction inside a scope** stays in the block and in the environment, and the code goes on
behind it or at its target. -/
theorem stays_instr {i : Instr} (hpush : i ≠ .pushScope) (hpop : i ≠ .popScope)
    (hd : ∀ j src, i = .setLocal j src → d) (hφ : ∀ t, i.target? = some t → 0 ≤ t.toInt → φ t.toInt.toNat) :
    Stays d φ (instr i) :=
  (acts_instr hpush hpop hd hφ).stays

end Exec

/-! ## Steps -/

namespace Run

/-- The instruction that is executed next. -/
def next? (r : Run) : Option Instr := r.top.block.code[r.top.position]?

/-- The run at the next position. -/
def advance (r : Run) : Run := { r with top := { r.top with position := r.top.position + 1 } }

/-- The run with another heap. -/
def withHeap (r : Run) (h : Heap) : Run := { r with machine := r.machine.withHeap h }

/-- Closing a scope changes nothing but the current environment. -/
theorem popScope_eq_ok {r r' : Run} (h : Exec.instr .popScope r = .ok () r') :
    ∃ outer, r' = { r with top := { r.top with environment := outer } } := by
  obtain ⟨_, _, hget, h⟩ := Exec.bind_eq_ok h
  cases hget
  cases houter : r.machine.heap.parent? r.top.environment with
  | some outer =>
    rw [houter] at h
    cases h
    exact ⟨outer, rfl⟩
  | none =>
    rw [houter] at h
    cases h

end Run

namespace Exec

variable {r r' : Run} {dst callee first src : Register} {argc j : UInt32}

/-- What a step does depends on the sort of the instruction. -/
theorem step_eq_ok (h : step r = .ok none r') :
    ∃ i, r.next? = some i ∧
      match i with
      | .leave src => leave src r.advance = .ok none r'
      | .call dst callee argc first => call dst callee argc first r.advance = .ok () r'
      | .newFunction dst j => newFunction dst j r.advance = .ok () r'
      | i => instr i r.advance = .ok () r' := by
  obtain ⟨i, r₁, hfetch, h⟩ := bind_eq_ok h
  have hnext : r.next? = some i ∧ r₁ = r.advance := by
    simp only [fetch] at hfetch
    split at hfetch
    next hi =>
      cases hfetch
      exact ⟨hi, rfl⟩
    next => cases hfetch
  obtain ⟨hi, rfl⟩ := hnext
  refine ⟨i, hi, ?_⟩
  cases i with
  | leave => exact h
  | _ =>
    obtain ⟨_, r₂, hinstr, hpure⟩ := bind_eq_ok h
    cases hpure
    exact hinstr

/-- A call of a function enters its block in a new environment inside the captured one; a call of an
operator stays in the block. -/
theorem call_eq_ok (h : call dst callee argc first r = .ok () r') :
    (∃ c args r₁, r.top.registers[callee.index]? = some (.function c) ∧ r.Stays False (fun _ => False) r₁ ∧
      r' = ⟨r₁.machine.withHeap
          (r₁.machine.heap.newEnvironment (some (r.machine.heap.closure c).environment)).2,
        .enter (r.machine.heap.closure c).block (r.machine.heap.closure c).block.codeStart.toNat
          r₁.machine.heap.environments.size args (.store dst), r₁.top :: r₁.callers⟩) ∨
    (∀ c, r.top.registers[callee.index]? ≠ some (.function c)) ∧ r.Stays False (fun _ => False) r' := by
  obtain ⟨v, r₁, hread, hrest⟩ := bind_eq_ok h
  have hv : r.top.registers[callee.index]? = some v ∧ r₁ = r := by
    simp only [read] at hread
    split at hread
    next hv =>
      cases hread
      exact ⟨hv, rfl⟩
    next => cases hread
  obtain ⟨hv, rfl⟩ := hv
  obtain ⟨args, r₂, hargs, h⟩ := bind_eq_ok hrest
  have hstays := Stays.ok (d := False) (φ := fun _ => False) (Spares.readRange _ _).stays hargs
  cases v with
  | function c =>
    obtain ⟨_, r₃, hheap, h⟩ := bind_eq_ok h
    cases hheap
    obtain ⟨args', r₄, hcomplete, h⟩ := bind_eq_ok h
    obtain ⟨e, r₅, henvironment, h⟩ := bind_eq_ok h
    cases henvironment
    cases h
    have hclosure : r₂.machine.heap.closure c = r₁.machine.heap.closure c := by
      rw [Heap.closure, hstays.heap.closures, Heap.closure]
    refine .inl ⟨c, args', r₄, hv, hstays.trans ((spares_completeArgs _ _).ok hcomplete).stays, ?_⟩
    rw [hclosure]
    rfl
  | builtin op =>
    have hno (c : Nat) : r₁.top.registers[callee.index]? ≠ some (.function c) := by
      rw [hv]
      nofun
    refine .inr ⟨hno, hstays.trans ?_⟩
    dsimp only at h
    generalize args.toList = values at h
    match values, h with
    | [a, b], h =>
      obtain ⟨heap, r₃, hheap, h⟩ := bind_eq_ok h
      cases hheap
      cases happly : op.apply r₂.machine.heap a b with
      | ok v =>
        rw [happly] at h
        exact (Stays.write _ _).ok h
      | error e =>
        rw [happly] at h
        cases h
  | _ =>
    obtain ⟨_, _, -, h⟩ := bind_eq_ok h
    cases h

/-- Creating a function either creates it at once or enters its block, to evaluate the signature. -/
theorem newFunction_eq_ok (h : newFunction dst j r = .ok () r') :
    ∃ B, r.top.block.function? j = some B ∧
      (B.codeStart = 0 ∧ (∃ r₁ t, r.Stays False (fun _ => False) r₁ ∧
          (r₁.withHeap (r₁.machine.heap.newClosure ⟨B, r.top.environment, t⟩).2).Stays False
            (fun _ => False) r') ∨
        B.codeStart ≠ 0 ∧ r' = ⟨r.machine.withHeap
            (r.machine.heap.newEnvironment (some r.top.environment)).2,
          .enter B 0 r.machine.heap.environments.size #[] (.signature dst B), r.top :: r.callers⟩) := by
  obtain ⟨B, r₁, hnested, hrest⟩ := bind_eq_ok h
  have hB : r.top.block.function? j = some B ∧ r₁ = r := by
    simp only [nested] at hnested
    split at hnested
    next hB =>
      cases hnested
      exact ⟨hB, rfl⟩
    next => cases hnested
  obtain ⟨hB, rfl⟩ := hB
  refine ⟨B, hB, ?_⟩
  obtain ⟨_, r₂, hget, h⟩ := bind_eq_ok hrest
  cases hget
  dsimp only at h
  split at h
  next hstart =>
    obtain ⟨params, r₂, hparams, h⟩ := bind_eq_ok h
    obtain ⟨result, r₃, hresult, h⟩ := bind_eq_ok h
    obtain ⟨v, r₄, hclosure, h⟩ := bind_eq_ok h
    cases hclosure
    exact .inl ⟨hstart, r₃, .fn params result 0, (((spares_freshVars _ _).ok hparams).trans
      (spares_freshVar.ok hresult)).stays, (Stays.write _ _).ok h⟩
  next hstart =>
    obtain ⟨e, r₂, henvironment, h⟩ := bind_eq_ok h
    cases henvironment
    cases h
    exact .inr ⟨hstart, rfl⟩

/-- Leaving a block that has a caller goes on with the caller, which may have a new function. -/
theorem leave_eq_ok (h : leave src r = .ok none r') :
    ∃ caller callers, r.callers = caller :: callers ∧
      (Run.Stays False (fun _ => False) ⟨r.machine, caller, callers⟩ r' ∨
        ∃ dst B t, r.top.resume = .signature dst B ∧
          (Run.withHeap ⟨r.machine, caller, callers⟩
            (r.machine.heap.newClosure ⟨B, caller.environment, t⟩).2).Stays False (fun _ => False) r') := by
  obtain ⟨v, r₁, hread, hrest⟩ := bind_eq_ok h
  obtain rfl : r₁ = r := by
    simp only [read] at hread
    split at hread <;> cases hread
    rfl
  obtain ⟨resume, r₂, hback, h⟩ := bind_eq_ok hrest
  obtain ⟨m, ⟨block, position, registers, environment, resume'⟩, callers⟩ := r₁
  cases callers with
  | nil =>
    cases hback
    cases h
  | cons caller callers =>
    cases hback
    refine ⟨caller, callers, rfl, ?_⟩
    cases resume' with
    | answer =>
      cases h
      exact .inl (.refl _)
    | store dst =>
      obtain ⟨_, r₃, hwrite, hpure⟩ := bind_eq_ok h
      cases hpure
      exact .inl ((Stays.write _ _).ok hwrite)
    | signature dst B =>
      cases v with
      | type t =>
        obtain ⟨_, r₃, hget, h⟩ := bind_eq_ok h
        cases hget
        obtain ⟨_, r₄, hcreate, hpure⟩ := bind_eq_ok h
        cases hpure
        obtain ⟨v, r₅, hclosure, hwrite⟩ := bind_eq_ok hcreate
        cases hclosure
        exact .inr ⟨dst, B, t, rfl, (Stays.write _ _).ok hwrite⟩
      | _ =>
        obtain ⟨_, _, -, h⟩ := bind_eq_ok h
        cases h

end Exec

end Reified
