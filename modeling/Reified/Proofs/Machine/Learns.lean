import Reified.Proofs.Machine.Inside
import Reified.Proofs.Machine.Runs
import Reified.Proofs.Machine.Verified
import Reified.Proofs.Table.Growth

/-!
# The table of a machine only learns

Whatever a block does, and however wrong it is, nothing that the table of the machine says of a type is ever taken
back, and no cycle arises among the bindings. This holds of every instruction, whether it succeeds or fails, and so of
every state that a machine can come to.

## Main definitions

* `Exec.Learns` — an action from which the table learns

## Main results

* `Exec.learns_instr`, `Exec.learns_step` — one instruction, one step
* `Run.tame_of_goes` — **the table of every state is tame**
-/

namespace Reified

/-- What the table said before, it still says. -/
def Run.Learns (r r' : Run) : Prop := r.machine.table.Tame → r.machine.table.Grows r'.machine.table

theorem Run.Learns.of_eq {r r' : Run} (h : r'.machine.table = r.machine.table) : r.Learns r' := by
  rw [Learns, h]
  exact .refl

theorem Run.Learns.trans {r r₁ r' : Run} (h : r.Learns r₁) (h' : r₁.Learns r') : r.Learns r' :=
  fun ht => (h ht).trans (h' (h ht).tame)

/-- Closing a frame marks variables and moves them to other frames. -/
theorem Frames.grows_pop (F : Frames) {T : Table} (hT : T.Tame) : T.Grows (F.pop T).2.2 := by
  -- by induction on the variables that are left, in whatever frames and with whatever marks so far
  have key : ∀ (depth : Nat) (ids : List Nat) (F : Frames) (S : Table) (done : List Nat), T.Grows S →
      T.Grows (settle depth ids F S done).2.2 := by
    intro depth ids
    induction ids with
    | nil => exact fun _ _ _ h => h
    | cons id ids ih =>
      intro F S done h
      rw [settle]
      split
      · exact ih _ _ _ h
      · split
        · exact ih _ _ _ (h.trans (h.tame.generalize id))
        · exact ih _ _ _ h
  rw [pop]
  split
  · exact .refl hT
  · exact key _ _ _ _ _ (.refl hT)

namespace Exec

variable {α β : Type} {x : Exec α} {f : α → Exec β} {r r' : Run}

/-- The table learns from the action, also if the action fails. -/
def Learns (x : Exec α) : Prop :=
  ∀ r, match x r with
    | .ok _ r' => r.Learns r'
    | .error _ r' => r.Learns r'

namespace Learns

theorem ok {a : α} (hx : Learns x) (h : x r = .ok a r') : r.Learns r' := by
  have hr := hx r
  rwa [h] at hr

theorem error {e : Fault} (hx : Learns x) (h : x r = .error e r') : r.Learns r' := by
  have hr := hx r
  rwa [h] at hr

/-- An action that leaves the table alone. -/
theorem of_same (h : ∀ r, (∃ a r', x r = .ok a r' ∧ r'.machine.table = r.machine.table) ∨
    ∃ e r', x r = .error e r' ∧ r'.machine.table = r.machine.table) : Learns x := by
  intro r
  rcases h r with ⟨a, r', hr, heq⟩ | ⟨e, r', hr, heq⟩
  · rw [hr]
    exact .of_eq heq
  · rw [hr]
    exact .of_eq heq

theorem pure (a : α) : Learns (pure a) := fun _ => .of_eq rfl

/-- **One action after the other.** -/
theorem bind (hx : Learns x) (hf : ∀ a, Learns (f a)) : Learns (x >>= f) := by
  intro r
  cases h : (x >>= f) r with
  | ok b r' =>
    obtain ⟨a, r₁, hxr, hfr⟩ := bind_eq_ok h
    exact (hx.ok hxr).trans ((hf a).ok hfr)
  | error e r' =>
    rcases bind_eq_error h with hxr | ⟨a, r₁, hxr, hfr⟩
    · exact hx.error hxr
    · exact (hx.ok hxr).trans ((hf a).error hfr)

theorem throw (e : Fault) : Learns (throw e : Exec α) := fun _ => .of_eq rfl

theorem get : Learns get := fun _ => .of_eq rfl

theorem heap : Learns heap := fun _ => .of_eq rfl

theorem onHeap (g : Heap → α × Heap) : Learns (onHeap g) := fun _ => .of_eq rfl

theorem onTable {g : Table → α × Table} (h : ∀ T : Table, T.Tame → T.Grows (g T).2) : Learns (onTable g) :=
  fun _ => h _

theorem onFrames {g : Frames → Table → α × Frames × Table} (h : ∀ F (T : Table), T.Tame → T.Grows (g F T).2.2) :
    Learns (onFrames g) := fun _ => h _ _

theorem text (v : Value) : Learns (text v) := heap.bind fun _ => pure _

theorem ite {c : Prop} [Decidable c] {x y : Exec α} (hx : Learns x) (hy : Learns y) : Learns (if c then x else y) := by
  split
  · exact hx
  · exact hy

/-! ### The block in execution -/

/-- What does not even change registers leaves the table alone. -/
theorem of_spares (h : ∀ r, (∃ a, x r = .ok a r) ∨ ∃ e, x r = .error e r) : Learns x := of_same fun r =>
  (h r).imp (fun ⟨a, ha⟩ => ⟨a, r, ha, rfl⟩) fun ⟨e, he⟩ => ⟨e, r, he, rfl⟩

theorem read (r : Register) : Learns (read r) := of_spares fun s => by
  unfold Exec.read
  split
  · exact .inl ⟨_, rfl⟩
  · exact .inr ⟨_, rfl⟩

theorem write (r : Register) (v : Value) : Learns (write r v) := of_same fun ⟨_, ⟨_, _, _, _, _⟩, _⟩ => by
  rw [Exec.write]
  split
  · exact .inl ⟨_, _, rfl, rfl⟩
  · exact .inr ⟨_, _, rfl, rfl⟩

theorem create (dst : Register) (g : Heap → Value × Heap) : Learns (create dst g) :=
  (onHeap g).bind fun v => write dst v

theorem readFrom (first : Register) (done : Array Value) : (count : Nat) → Learns (readFrom first done count)
  | 0 => pure done
  | n + 1 => (read _).bind fun v => readFrom first (done.push v) n

theorem readRange (first : Register) (count : UInt32) : Learns (readRange first count) :=
  readFrom first #[] count.toNat

theorem writeFrom (first : Register) : (done : Nat) → (vs : List Value) → Learns (writeFrom first done vs)
  | _, [] => pure _
  | done, v :: vs => (write _ v).bind fun _ => writeFrom first (done + 1) vs

theorem identifier (i : UInt32) : Learns (identifier i) := of_spares fun s => by
  unfold Exec.identifier
  split
  · exact .inl ⟨_, rfl⟩
  · exact .inr ⟨_, rfl⟩

theorem constant (i : UInt32) : Learns (constant i) := of_spares fun s => by
  unfold Exec.constant
  split
  · exact .inl ⟨_, rfl⟩
  · exact .inr ⟨_, rfl⟩

theorem nested (i : UInt32) : Learns (nested i) := of_spares fun s => by
  unfold Exec.nested
  split
  · exact .inl ⟨_, rfl⟩
  · exact .inr ⟨_, rfl⟩

theorem message (i : UInt32) : Learns (message i) := of_spares fun s => by
  unfold Exec.message
  split <;> exact .inl ⟨_, rfl⟩

theorem lookup (name : String) : Learns (lookup name) := of_spares fun s => by
  unfold Exec.lookup
  split
  · exact .inl ⟨_, rfl⟩
  · exact .inr ⟨_, rfl⟩

theorem jump (t : Int32) : Learns (jump t) := of_same fun ⟨_, ⟨_, _, _, _, _⟩, _⟩ => by
  rw [Exec.jump]
  split
  · exact .inl ⟨_, _, rfl, rfl⟩
  · exact .inr ⟨_, _, rfl, rfl⟩

theorem fetch : Learns fetch := of_same fun ⟨_, ⟨_, _, _, _, _⟩, _⟩ => by
  rw [Exec.fetch]
  split
  · exact .inl ⟨_, _, rfl, rfl⟩
  · exact .inr ⟨_, _, rfl, rfl⟩

theorem setEnvironment (e : Nat) : Learns (setEnvironment e) := fun _ => .of_eq rfl

theorem enter (a : Activation) : Learns (enter a) := fun _ => .of_eq rfl

theorem back : Learns back := of_same fun
  | ⟨_, ⟨_, _, _, _, _⟩, []⟩ => .inl ⟨_, _, rfl, rfl⟩
  | ⟨_, ⟨_, _, _, _, _⟩, _ :: _⟩ => .inl ⟨_, _, rfl, rfl⟩

end Learns

/-! ## Types -/

theorem learns_unify (s t : Ty) : Learns (unify s t) := by
  intro r
  have hgrows : r.machine.table.Tame → r.machine.table.Grows (r.machine.table.unify s t).table := fun ht => ht.unify s t
  rw [unify]
  cases h : r.machine.table.unify s t with
  | ok _ T =>
    rw [h] at hgrows
    exact hgrows
  | error e T =>
    rw [h] at hgrows
    exact hgrows

theorem learns_resolve (t : Ty) : Learns (resolve t) := .onTable fun _ hT => (hT.resolve t).1

theorem learns_resolveDeep (t : Ty) : Learns (resolveDeep t) := .onTable fun _ hT => (hT.resolveDeep t).1

theorem learns_newVar (name : String) (inferred rigid : Bool) : Learns (newVar name inferred rigid) :=
  .onFrames fun _ _ hT => hT.newVar name inferred rigid _

theorem learns_freshVar : Learns freshVar := learns_newVar "" false false

theorem learns_instantiate (t : Ty) : Learns (instantiate t) := .onFrames fun _ _ hT => hT.instantiate t _

theorem learns_pushFrame : Learns pushFrame := .onFrames fun _ _ hT => .refl hT

theorem learns_popFrame : Learns popFrame := .onFrames fun F _ hT => F.grows_pop hT

theorem learns_freshVars : (done : List Ty) → (n : Nat) → Learns (freshVars done n)
  | _, 0 => .pure _
  | done, n + 1 => learns_freshVar.bind fun t => learns_freshVars (t :: done) n

theorem learns_mapM {γ δ : Type} {f : γ → Exec δ} (hf : ∀ x, Learns (f x)) (xs : List γ) : Learns (xs.mapM f) := by
  induction xs with
  | nil => exact .pure _
  | cons x xs ih =>
    rw [List.mapM_cons]
    exact (hf x).bind fun _ => ih.bind fun _ => .pure _

theorem learns_typeOfWithin (n : Nat) (v : Value) : Learns (typeOfWithin n v) := by
  induction n generalizing v with
  | zero =>
    cases v with
    | builtin op => exact learns_freshVar.bind fun _ => .pure _
    | function c => exact Learns.heap.bind fun _ => learns_instantiate _
    | array | tuple | object | hole => exact learns_freshVar
    | unit | bool | number | string | type => exact .pure _
  | succ n ih =>
    cases v with
    | builtin op => exact learns_freshVar.bind fun _ => .pure _
    | function c => exact Learns.heap.bind fun _ => learns_instantiate _
    | array c =>
      rw [typeOfWithin]
      refine Learns.heap.bind fun h => ?_
      split
      · exact (ih _).bind fun _ => .pure _
      · exact learns_freshVar.bind fun _ => .pure _
    | tuple c =>
      rw [typeOfWithin]
      exact Learns.heap.bind fun _ => (learns_mapM ih _).bind fun _ => .pure _
    | object c =>
      rw [typeOfWithin]
      exact Learns.heap.bind fun _ =>
        (learns_mapM (fun f : String × Value => (ih f.2).bind fun _ => .pure _) _).bind fun _ => .pure _
    | hole => exact learns_freshVar
    | unit | bool | number | string | type => exact .pure _

theorem learns_typeOf (v : Value) : Learns (typeOf v) := Learns.heap.bind fun _ => learns_typeOfWithin _ v

theorem learns_asType (v : Value) : Learns (asType v) := by
  cases v with
  | type t => exact .pure _
  | hole c => exact learns_freshVar
  | _ => exact (Learns.text _).bind fun _ => .throw _

theorem learns_asTypes : (done : List Ty) → (vs : List Value) → Learns (asTypes done vs)
  | _, [] => .pure _
  | done, v :: vs => (learns_asType v).bind fun t => learns_asTypes (t :: done) vs

theorem learns_checkType (expected : TyClass) (v : Value) : Learns (checkType expected v) := by
  rw [checkType.eq_def]
  split
  case h_4 => exact (learns_resolve _).bind fun _ => .pure _
  all_goals exact .pure _

theorem learns_checkTypeOf (expected : TyClass) (v : Value) : Learns (checkTypeOf expected v) := by
  rw [checkTypeOf.eq_def]
  split
  case h_5 => exact (learns_typeOf _).bind fun _ => (learns_resolve _).bind fun _ => .pure _
  all_goals exact .pure _

theorem learns_recordFields (fields : Fields Ty) (keys : List Value) (ts : List Ty) :
    Learns (recordFields fields keys ts) := by
  induction keys generalizing fields ts with
  | nil => exact .pure _
  | cons key keys ih =>
    cases ts with
    | nil => exact .pure _
    | cons t ts =>
      cases key with
      | string name => exact ih _ ts
      | _ => exact (Learns.text _).bind fun _ => .throw _

/-! ## Elements -/

theorem learns_index (v : Value) : Learns (index v) := by
  cases v with
  | number x =>
    rw [index]
    split
    · exact .pure _
    · exact (Learns.text _).bind fun _ => .throw _
  | _ => exact (Learns.text _).bind fun _ => .throw _

theorem learns_item {shown : Exec String} (h : Learns shown) (c i : Nat) (target : Value) :
    Learns (item c i shown target) := by
  refine Learns.heap.bind fun _ => ?_
  split
  · exact .pure _
  · exact h.bind fun _ => (Learns.text _).bind fun _ => .throw _

theorem learns_subscript (target i : Value) : Learns (subscript target i) := by
  rw [subscript.eq_def]
  split
  case h_1 => exact (learns_index _).bind fun _ => learns_item (.text _) _ _ _
  case h_2 =>
    refine Learns.heap.bind fun _ => ?_
    split
    · exact .pure _
    · exact (Learns.text _).bind fun _ => .throw _
  case h_3 => exact .ite (.onHeap _) <| (Learns.text _).bind fun _ => (Learns.text _).bind fun _ => .throw _

/-! ## Inferred arguments -/

theorem learns_unifyArgs (function : String) (args : Array Value) (position : Nat) (params : List Ty) :
    Learns (unifyArgs function args position params) := by
  induction params generalizing position with
  | nil => exact .pure _
  | cons param params ih =>
    rw [unifyArgs]
    split
    · exact .throw _
    · exact (learns_typeOf _).bind fun t => (learns_unify _ _).bind fun _ => ih (position + 1)

theorem learns_readSlots (done slots : List Ty) : Learns (readSlots done slots) := by
  induction slots generalizing done with
  | nil => exact .pure _
  | cons slot slots ih =>
    refine (learns_resolveDeep _).bind fun t => ?_
    split
    · exact .throw _
    · exact ih _

theorem learns_inferImplicit (c : Closure) (count : Nat) (args : Array Value) : Learns (inferImplicit c count args) := by
  refine (learns_instantiate _).bind fun t => (learns_resolve _).bind fun t => ?_
  split
  · exact (learns_unifyArgs _ _ _ _).bind fun _ => learns_readSlots _ _
  · exact .throw _

theorem learns_inFrame {act : Exec α} (h : Learns act) : Learns (inFrame act) := by
  intro r
  have hact : Learns (pushFrame >>= fun _ => act) := learns_pushFrame.bind fun _ => h
  rw [inFrame]
  cases hr : (pushFrame >>= fun _ => act) r with
  | ok a r₁ => exact (hact.ok hr).trans (learns_popFrame r₁)
  | error e r₁ => exact (hact.error hr).trans (learns_popFrame r₁)

theorem learns_completeArgs (c : Closure) (args : Array Value) : Learns (completeArgs c args) := by
  rw [completeArgs]
  split
  · exact .pure _
  refine (learns_resolve _).bind fun t => ?_
  extract_lets implicit all given
  have hgiven : Learns (given ()) := (learns_inFrame (learns_inferImplicit _ _ _)).bind fun _ => .pure _
  split
  · have hthrow (e : Fault) : Learns (throw e : Exec PUnit) := .throw e
    exact (hthrow _).bind fun _ => hgiven
  · exact hgiven

/-! ## Instructions -/

/-- **The table learns from every instruction.** -/
theorem learns_instr (i : Instr) : Learns (instr i) := by
  cases i with
  | leave | call | newFunction => exact .pure _
  | move dst src => exact (Learns.read _).bind fun _ => .write _ _
  | loadConstant dst c => exact (Learns.constant _).bind fun _ => .write _ _
  | getLocal dst j => exact (Learns.identifier _).bind fun _ => (Learns.lookup _).bind fun _ => .write _ _
  | setLocal j src =>
    exact (Learns.identifier _).bind fun _ => (Learns.read _).bind fun _ => Learns.get.bind fun _ => .onHeap _
  | newArray | newTuple | newObject => exact .create _ _
  | setArrayIndex array j value =>
    refine (Learns.read _).bind fun v => ?_
    cases v with
    | array c => exact (Learns.read _).bind fun _ => .onHeap _
    | _ => exact .throw _
  | getArrayIndex dst array j =>
    refine (Learns.read _).bind fun target => (Learns.read _).bind fun j => ?_
    cases target with
    | array c => exact (learns_index j).bind fun _ => (learns_item (.text j) c _ _).bind fun _ => .write _ _
    | _ => exact (Learns.text _).bind fun _ => .throw _
  | setTupleIndex tuple j value =>
    refine (Learns.read _).bind fun v => ?_
    cases v with
    | tuple c => exact (Learns.read _).bind fun _ => Learns.heap.bind fun _ => .ite (.onHeap _) (.throw _)
    | _ => exact .throw _
  | getTupleIndex dst tuple j =>
    refine (Learns.read _).bind fun target => ?_
    cases target with
    | tuple c => exact (learns_item (.pure _) c _ _).bind fun _ => .write _ _
    | _ => exact (Learns.text _).bind fun _ => .throw _
  | setField object f value =>
    refine (Learns.read _).bind fun v => ?_
    cases v with
    | object c => exact (Learns.identifier _).bind fun _ => (Learns.read _).bind fun _ => .onHeap _
    | _ => exact .throw _
  | getField dst object f =>
    refine (Learns.identifier _).bind fun _ => (Learns.read _).bind fun _ => Learns.heap.bind fun _ => ?_
    split
    · exact .write _ _
    · exact (Learns.text _).bind fun _ => .throw _
  | tryGetField dst object f t =>
    refine (Learns.identifier _).bind fun _ => (Learns.read _).bind fun _ => Learns.heap.bind fun _ => ?_
    split
    · exact .write _ _
    · exact .jump t
  | jump t => exact .jump t
  | jumpIfFalse condition t =>
    refine (Learns.read _).bind fun v => ?_
    split
    · exact .pure _
    · exact .jump t
    · exact (Learns.text _).bind fun _ => .throw _
  | isEqual dst lhs rhs => exact (Learns.read _).bind fun _ => (Learns.read _).bind fun _ => .write _ _
  | pushScope => exact Learns.get.bind fun _ => (Learns.onHeap _).bind fun _ => .setEnvironment _
  | popScope =>
    refine Learns.get.bind fun _ => ?_
    split
    · exact .setEnvironment _
    · exact .throw _
  | pushFrame => exact learns_pushFrame
  | popFrame => exact learns_popFrame
  | unify lhs rhs =>
    exact (Learns.read _).bind fun _ => (learns_asType _).bind fun _ => (Learns.read _).bind fun _ =>
      (learns_asType _).bind fun _ => learns_unify _ _
  | resolveType dst ty =>
    exact (Learns.read _).bind fun _ => (learns_asType _).bind fun _ => (learns_resolveDeep _).bind fun _ => .write _ _
  | checkType dst ty expected =>
    exact (Learns.read _).bind fun _ => (learns_checkType _ _).bind fun _ => .write _ _
  | checkTypeOf dst value expected =>
    exact (Learns.read _).bind fun _ => (learns_checkTypeOf _ _).bind fun _ => .write _ _
  | typeError j | runtimeError j => exact (Learns.message _).bind fun _ => .throw _
  | inferImplicit function count first =>
    refine (Learns.read _).bind fun callee => Learns.get.bind fun _ => ?_
    cases callee with
    | function c =>
      exact Learns.heap.bind fun _ => (learns_inferImplicit _ _ _).bind fun _ => .writeFrom _ _ _
    | _ => exact (Learns.text _).bind fun _ => .throw _
  | newVarType dst name inferred rigid =>
    exact (Learns.identifier _).bind fun _ => (learns_newVar _ _ _).bind fun _ => .write _ _
  | newNameType dst name => exact (Learns.identifier _).bind fun _ => .write _ _
  | newArrayType dst item => exact (Learns.read _).bind fun _ => (learns_asType _).bind fun _ => .write _ _
  | newTupleType dst count first =>
    exact (Learns.readRange _ _).bind fun _ => (learns_asTypes _ _).bind fun _ => .write _ _
  | newRecordType dst count firstKey firstType =>
    exact (Learns.readRange _ _).bind fun _ => (Learns.readRange _ _).bind fun _ =>
      (learns_asTypes _ _).bind fun _ => (learns_recordFields _ _ _).bind fun _ => .write _ _
  | newFunctionType dst count first result implicit =>
    exact (Learns.readRange _ _).bind fun _ => (learns_asTypes _ _).bind fun _ =>
      (Learns.read _).bind fun _ => (learns_asType _).bind fun _ => .write _ _
  | newUnionType dst lhs rhs =>
    exact (Learns.read _).bind fun _ => (learns_asType _).bind fun _ => (Learns.read _).bind fun _ =>
      (learns_asType _).bind fun _ => .write _ _
  | newBindingType dst name ty =>
    exact (Learns.identifier _).bind fun _ => (Learns.read _).bind fun _ => (learns_asType _).bind fun _ => .write _ _
  | newValue dst ty =>
    exact (Learns.read _).bind fun _ => (learns_asType _).bind fun _ => (learns_resolveDeep _).bind fun _ =>
      .create _ _
  | getTypeForValue dst value => exact (Learns.read _).bind fun _ => (learns_typeOf _).bind fun _ => .write _ _
  | newCallHole dst callee argc first =>
    exact (Learns.read _).bind fun _ => (Learns.readRange _ _).bind fun _ =>
      .ite (.create _ _) <| (Learns.text _).bind fun _ => .throw _
  | newSubscriptHole dst target j =>
    exact (Learns.read _).bind fun _ => (Learns.read _).bind fun _ => (learns_subscript _ _).bind fun _ => .write _ _
  | newMemberHole dst object f =>
    exact (Learns.identifier _).bind fun _ => (Learns.read _).bind fun _ =>
      .ite (.create _ _) <| (Learns.text _).bind fun _ => .throw _
  | isCell dst value kind => exact (Learns.read _).bind fun _ => .write _ _

theorem learns_call (dst callee : Register) (argc : UInt32) (first : Register) : Learns (call dst callee argc first) := by
  refine (Learns.read _).bind fun callee => (Learns.readRange _ _).bind fun args => ?_
  cases callee with
  | function c =>
    exact Learns.heap.bind fun _ => (learns_completeArgs _ _).bind fun _ => (Learns.onHeap _).bind fun _ => .enter _
  | builtin op =>
    dsimp only
    split
    · refine Learns.heap.bind fun _ => ?_
      split
      · exact .write _ _
      · exact .throw _
    · exact .throw _
  | _ => exact (Learns.text _).bind fun _ => .throw _

theorem learns_newFunction (dst : Register) (i : UInt32) : Learns (newFunction dst i) := by
  refine (Learns.nested _).bind fun block => Learns.get.bind fun _ => ?_
  dsimp only
  split
  · exact (learns_freshVars _ _).bind fun _ => learns_freshVar.bind fun _ => .create _ _
  · exact (Learns.onHeap _).bind fun _ => .enter _

theorem learns_leave (r : Register) : Learns (leave r) := by
  refine (Learns.read _).bind fun v => Learns.back.bind fun resume => ?_
  split
  · exact .pure _
  · exact .pure _
  · exact (Learns.write _ _).bind fun _ => .pure _
  · split
    · exact Learns.get.bind fun _ => (Learns.create _ _).bind fun _ => .pure _
    · exact (Learns.text _).bind fun _ => .throw _

/-- **The table learns from every step.** -/
theorem learns_step : Learns step := by
  refine Learns.fetch.bind fun i => ?_
  split
  · exact learns_leave _
  · exact (learns_call _ _ _ _).bind fun _ => .pure _
  · exact (learns_newFunction _ _).bind fun _ => .pure _
  · exact (learns_instr _).bind fun _ => .pure _

end Exec

/-! ## Runs -/

theorem Run.learns_of_steps {n : Nat} {r r' : Run} (h : Steps n r r') : r.Learns r' := by
  induction n generalizing r with
  | zero =>
    cases h
    exact .of_eq rfl
  | succ n ih =>
    obtain ⟨r₁, hstep, hrest⟩ := h
    exact (Exec.learns_step.ok hstep).trans (ih hrest)

theorem Run.learns_finish {n : Nat} {r : Run} {out : Except Fault Value} {m : Machine}
    (h : r.finish n = some (out, m)) (hr : r.machine.table.Tame) : r.machine.table.Grows m.table := by
  induction n generalizing r with
  | zero => cases h
  | succ n ih =>
    rw [finish] at h
    cases hstep : Exec.step r with
    | ok v r' =>
      rw [hstep] at h
      have hgrows := Exec.learns_step.ok hstep hr
      cases v with
      | none => exact hgrows.trans (ih h hgrows.tame)
      | some v =>
        cases h
        exact hgrows
    | error e r' =>
      rw [hstep] at h
      cases h
      exact Exec.learns_step.error hstep hr

theorem Machine.tame_initial : initial.table.Tame where
  acyclic := ⟨fun _ => 0, fun _ _ hv => by simp [initial, Table.binding?, Table.empty] at hv⟩
  quiet _ := rfl

/-- **The table of every machine** that has run blocks of whatever sort is tame. -/
theorem Machine.Reached.tame {P : Block → Prop} {m : Machine} (hm : m.Reached P) : m.table.Tame := by
  induction hm with
  | initial => exact tame_initial
  | @run m _ B _ _ _ _ hrun ih => exact (Run.learns_finish (r := m.start B) hrun ih).tame

/-- **The table of every state** that a run of whatever block comes to is tame. -/
theorem Run.tame_of_goes {P : Block → Prop} {m : Machine} (hm : m.Reached P) {B : Block} {r : Run}
    (h : Goes (m.start B) r) : r.machine.table.Tame := by
  obtain ⟨n, hn⟩ := h
  exact (learns_of_steps hn (show (m.start B).machine.table.Tame from hm.tame)).tame

end Reified
