import Reified.Proofs.Machine.Sound
import Reified.Proofs.Machine.TypeSteps

/-!
# Verified blocks do not reach outside

Every instruction without problems keeps the invariant of `Reified.Proofs.Machine.Sound`; so does a
step, which may enter or leave a block; and therefore so does a run, and one run after the other.

The condition that runs of registers are short cannot be left out: verification computes the end of a
run of registers with 32 bits, and a long enough run passes because its end comes out small.

## Main definitions

* `Run.Sound` — the invariant of the whole stack
* `Machine.Reached` — the machines that have only run blocks with a property

## Main results

* `Exec.keeps_instr` — one instruction
* `Run.step_sound` — one step
* `Run.finish_sound`, `Machine.run_stays_inside` — runs of any length
* `Machine.run_longRange` — a block that passes and reaches outside
-/

namespace Reified

namespace Exec

variable {α : Type} {k : Context} {n : Nat} {φ : Nat → Prop} {P : α → Prop}

/-! ## Runs of registers -/

theorem keeps_readFrom {first : Register} {count : Nat} {done : Array Value}
    (h : ∀ j < done.size + count, (first.offset j).index < k.block.registerCount.toNat)
    (hdone : ∀ v ∈ done, v.Below n) :
    Keeps k n φ (readFrom first done count) fun vs => ∀ v ∈ vs, v.Below n := by
  induction count generalizing done with
  | zero => exact .pure hdone
  | succ count ih =>
    refine (keeps_read (h done.size (by omega))).bind fun v hv => ih (fun j hj => ?_) ?_
    · rw [Array.size_push] at hj
      exact h j (by omega)
    · intro w hw
      rcases Array.mem_push.mp hw with hw | rfl
      · exact hdone w hw
      · exact hv

/-- The registers of a run that ends inside the register file are inside it, also where the numbers
of registers end. -/
theorem offset_lt {first : Register} {count : Nat}
    (h : 0 < count → first.index + count ≤ k.block.registerCount.toNat) {j : Nat} (hj : j < count) :
    (first.offset j).index < k.block.registerCount.toNat := by
  have hle : (first.offset j).index ≤ first.index + j := by
    rw [Register.offset, Register.index_ofNat (Nat.min_le_right _ _)]
    exact Nat.min_le_left _ _
  have := h (by omega)
  omega

theorem keeps_readRange {first : Register} {count : UInt32}
    (h : 0 < count.toNat → first.index + count.toNat ≤ k.block.registerCount.toNat) :
    Keeps k n φ (readRange first count) fun vs => ∀ v ∈ vs, v.Below n := by
  refine keeps_readFrom (fun j hj => ?_) fun v hv => nomatch Array.not_mem_empty _ hv
  rw [Array.size_empty, Nat.zero_add] at hj
  exact offset_lt h hj

theorem keeps_writeFrom {first : Register} {count done : Nat} {vs : List Value}
    (h : 0 < count → first.index + count ≤ k.block.registerCount.toNat)
    (hcount : done + vs.length ≤ count) (hvs : ∀ v ∈ vs, v.Below n) :
    Keeps k n φ (writeFrom first done vs) fun _ => True := by
  induction vs generalizing done with
  | nil => exact .pure trivial
  | cons v vs ih =>
    rw [List.length_cons] at hcount
    rw [List.forall_mem_cons] at hvs
    exact (keeps_write (offset_lt h (by omega)) hvs.1).bind fun _ _ => ih (by omega) hvs.2

/-! ## Types -/

theorem keeps_newVar (name : String) (inferred rigid : Bool) :
    Keeps k n φ (newVar name inferred rigid) fun _ => True := keeps_onFrames _

theorem keeps_freshVar : Keeps k n φ freshVar fun _ => True := keeps_newVar "" false false

theorem keeps_pushFrame : Keeps k n φ pushFrame fun _ => True := keeps_onFrames _

theorem keeps_popFrame : Keeps k n φ popFrame fun _ => True := keeps_onFrames _

theorem keeps_freshVars (done : List Ty) (m : Nat) :
    Keeps k n φ (freshVars done m) fun _ => True := by
  induction m generalizing done with
  | zero => exact .pure trivial
  | succ m ih => exact keeps_freshVar.bind fun t _ => ih (t :: done)

theorem keeps_mapM {γ δ : Type} {f : γ → Exec δ} (xs : List γ)
    (h : ∀ x ∈ xs, Keeps k n φ (f x) fun _ => True) : Keeps k n φ (xs.mapM f) fun _ => True := by
  induction xs with
  | nil => exact .pure trivial
  | cons x xs ih =>
    rw [List.forall_mem_cons] at h
    rw [List.mapM_cons]
    exact h.1.bind fun _ _ => (ih h.2).bind fun _ _ => .pure trivial

theorem keeps_typeOfWithin (d : Nat) (v : Value) :
    Keeps k n φ (typeOfWithin d v) fun _ => True := by
  induction d generalizing v with
  | zero =>
    cases v with
    | builtin op => exact keeps_freshVar.bind fun _ _ => .pure trivial
    | function c => exact keeps_heap.bind fun _ _ => keeps_onFrames _
    | array | tuple | object | hole => exact keeps_freshVar
    | unit | bool | number | string | type => exact .pure trivial
  | succ d ih =>
    cases v with
    | builtin op => exact keeps_freshVar.bind fun _ _ => .pure trivial
    | function c => exact keeps_heap.bind fun _ _ => keeps_onFrames _
    | array c =>
      rw [typeOfWithin]
      refine keeps_heap.bind fun h _ => ?_
      split
      · exact (ih _).bind fun _ _ => .pure trivial
      · exact keeps_freshVar.bind fun _ _ => .pure trivial
    | tuple c =>
      rw [typeOfWithin]
      exact keeps_heap.bind fun h _ =>
        (keeps_mapM _ fun v _ => ih v).bind fun _ _ => .pure trivial
    | object c =>
      rw [typeOfWithin]
      exact keeps_heap.bind fun h _ =>
        (keeps_mapM _ fun f _ => (ih f.2).bind fun _ _ => .pure trivial).bind fun _ _ =>
          .pure trivial
    | hole => exact keeps_freshVar
    | unit | bool | number | string | type => exact .pure trivial

theorem keeps_typeOf (v : Value) : Keeps k n φ (typeOf v) fun _ => True :=
  keeps_heap.bind fun _ _ => keeps_typeOfWithin _ v

theorem keeps_asType (v : Value) : Keeps k n φ (asType v) fun _ => True := by
  cases v with
  | type t => exact .pure trivial
  | hole c => exact keeps_freshVar
  | _ => exact (keeps_text _).bind fun _ _ => keeps_throw id

theorem keeps_asTypes (done : List Ty) (vs : List Value) :
    Keeps k n φ (asTypes done vs) fun _ => True := by
  induction vs generalizing done with
  | nil => exact .pure trivial
  | cons v vs ih => exact (keeps_asType v).bind fun t _ => ih (t :: done)

theorem keeps_checkType (expected : TyClass) (v : Value) :
    Keeps k n φ (checkType expected v) fun _ => True := by
  rw [checkType.eq_def]
  split
  case h_4 => exact (keeps_onTable _).bind fun _ _ => .pure trivial
  all_goals exact .pure trivial

theorem keeps_checkTypeOf (expected : TyClass) (v : Value) :
    Keeps k n φ (checkTypeOf expected v) fun _ => True := by
  rw [checkTypeOf.eq_def]
  split
  case h_5 => exact (keeps_typeOf _).bind fun _ _ => (keeps_onTable _).bind fun _ _ => .pure trivial
  all_goals exact .pure trivial

theorem keeps_recordFields (fields : Fields Ty) (keys : List Value) (ts : List Ty) :
    Keeps k n φ (recordFields fields keys ts) fun _ => True := by
  induction keys generalizing fields ts with
  | nil => exact .pure trivial
  | cons key keys ih =>
    cases ts with
    | nil => exact .pure trivial
    | cons t ts =>
      cases key with
      | string name => exact ih _ ts
      | _ => exact (keeps_text _).bind fun _ _ => keeps_throw id

/-! ## Elements -/

theorem keeps_index (v : Value) : Keeps k n φ (index v) fun _ => True := by
  cases v with
  | number x =>
    rw [index]
    split
    · exact .pure trivial
    · exact (keeps_text _).bind fun _ _ => keeps_throw id
  | _ => exact (keeps_text _).bind fun _ _ => keeps_throw id

theorem keeps_item {shown : Exec String} (h : Keeps k n φ shown fun _ => True) (c i : Nat)
    (target : Value) : Keeps k n φ (item c i shown target) (Value.Below n) := by
  refine keeps_heap.bind fun h' hh => ?_
  split
  next v hv => exact .pure (hh.list (Array.mem_of_getElem? hv))
  next => exact h.bind fun _ _ => (keeps_text _).bind fun _ _ => keeps_throw id

theorem keeps_subscript (target i : Value) :
    Keeps k n φ (subscript target i) (Value.Below n) := by
  rw [subscript.eq_def]
  split
  case h_1 => exact (keeps_index _).bind fun j _ => keeps_item (keeps_text _) _ _ _
  case h_2 =>
    refine keeps_heap.bind fun h hh => ?_
    split
    next hv => exact .pure (hh.field hv)
    next => exact (keeps_text _).bind fun _ _ => keeps_throw id
  case h_3 =>
    split
    · exact keeps_onHeap fun h hh => ⟨trivial, hh.newHole _⟩
    · exact (keeps_text _).bind fun _ _ => (keeps_text _).bind fun _ _ => keeps_throw id

/-! ## Inferred arguments -/

theorem keeps_unifyArgs (function : String) (args : Array Value) (position : Nat)
    (params : List Ty) : Keeps k n φ (unifyArgs function args position params) fun _ => True := by
  induction params generalizing position with
  | nil => exact .pure trivial
  | cons param params ih =>
    rw [unifyArgs]
    split
    · exact keeps_throw id
    · exact (keeps_typeOf _).bind fun t _ => (keeps_unify _ _).bind fun _ _ => ih (position + 1)

/-- As many types are found as there are slots. -/
theorem keeps_readSlots (done slots : List Ty) :
    Keeps k n φ (readSlots done slots) fun ts => ts.length = done.length + slots.length := by
  induction slots generalizing done with
  | nil => exact .pure (by simp)
  | cons slot slots ih =>
    refine (keeps_onTable _).bind fun t _ => ?_
    split
    · exact keeps_throw id
    · refine (ih (_ :: done)).weaken fun ts hts => ?_
      rw [hts, List.length_cons, List.length_cons, Nat.add_right_comm, Nat.add_assoc]

theorem keeps_inferImplicit (c : Closure) (count : Nat) (args : Array Value) :
    Keeps k n φ (inferImplicit c count args) fun ts => ts.length ≤ count := by
  refine (keeps_onFrames _).bind fun t _ => (keeps_onTable _).bind fun t _ => ?_
  split
  · refine (keeps_unifyArgs _ _ _ _).bind fun _ _ => (keeps_readSlots _ _).weaken fun ts hts => ?_
    rw [hts, List.length_take, List.length_nil, Nat.zero_add]
    exact Nat.min_le_left _ _
  · exact keeps_throw id

theorem keeps_inFrame {act : Exec α} (h : Keeps k n φ act P) : Keeps k n φ (inFrame act) P := by
  intro r hr
  have hact := (keeps_pushFrame.bind fun _ _ => h) r hr
  rw [inFrame]
  cases hres : (pushFrame >>= fun _ => act) r with
  | ok a r' =>
    rw [hres] at hact
    obtain ⟨ha, ⟨hheap, hroom, hvalues, hp⟩⟩ := hact
    exact ⟨ha, ⟨hheap, hroom, hvalues, hp⟩⟩
  | error e r' =>
    rw [hres] at hact
    exact hact

theorem keeps_completeArgs (c : Closure) {args : Array Value} (hargs : ∀ v ∈ args, v.Below n) :
    Keeps k n φ (completeArgs c args) fun vs => ∀ v ∈ vs, v.Below n := by
  rw [completeArgs]
  split
  · exact .pure hargs
  refine (keeps_onTable _).bind fun t _ => ?_
  extract_lets implicit all given
  have hgiven : Keeps k n φ (given ()) fun vs => ∀ v ∈ vs, v.Below n := by
    refine (keeps_inFrame (keeps_inferImplicit _ _ _)).bind fun ts _ => .pure ?_
    intro v hv
    rcases Array.mem_append.mp hv with hv | hv
    · obtain ⟨t, -, rfl⟩ := List.mem_map.mp (List.mem_toArray.mp hv)
      trivial
    · obtain ⟨j, hj, rfl⟩ := Array.mem_extract_iff_getElem.mp hv
      rcases Array.mem_append.mp (Array.getElem_mem _) with hv | hv
      · rw [(Array.mem_replicate.mp hv).2]
        trivial
      · exact hargs _ hv
  split
  · have hthrow (e : Fault) (he : ¬ e.IsOutside) :
        Keeps k n φ (throw e : Exec PUnit) fun _ => False := keeps_throw he
    exact (hthrow _ id).bind fun _ h => h.elim
  · exact hgiven

/-! ## Instructions -/

/-- **Instructions without problems do not reach outside.** An instruction that stays in the block
keeps the invariant if every target inside the code is a position that satisfies `φ`. -/
theorem keeps_instr {i : Instr} (hi : k.block.problem? i = none)
    (hshort : ∀ x ∈ i.ranges, x.1.index + x.2.toNat < 2 ^ 32)
    (hφ : ∀ p < k.block.code.size, φ p) : Keeps k n φ (instr i) fun _ => True := by
  obtain ⟨hops, hclean, -⟩ := Block.problem?_eq_none_iff.mp hi
  have hranges : ∀ x ∈ i.ranges, 0 < x.2.toNat →
      x.1.index + x.2.toNat ≤ k.block.registerCount.toNat := fun x hx =>
    (Block.rangeProblem?_eq_none_iff (hshort x hx)).mp (hclean x hx)
  have keeps_target {t : Int32} (ht : 0 ≤ t.toInt ∧ t.toInt < k.block.code.size) :
      Keeps k n φ (jump t) fun _ => True := keeps_jump ht.1 (hφ _ (by omega))
  cases i <;>
    simp only [Instr.operands, Instr.opcode, Opcode.shape, Instr.args, Operands.toList,
      List.forall_mem_cons, Block.operandProblem?_register, Block.operandProblem?_constant,
      Block.operandProblem?_identifier, Block.operandProblem?_target] at hops
  case leave | call | newFunction => exact .pure trivial
  case move dst src =>
    obtain ⟨hdst, hsrc, -⟩ := hops
    exact (keeps_read hsrc).bind fun v hv => keeps_write hdst hv
  case loadConstant dst c =>
    obtain ⟨hdst, hc, -⟩ := hops
    exact (keeps_constant hc).bind fun v hv => keeps_write hdst hv
  case getLocal dst j =>
    obtain ⟨hdst, hj, -⟩ := hops
    exact (keeps_identifier hj).bind fun name _ =>
      (keeps_lookup name).bind fun v hv => keeps_write hdst hv
  case setLocal j src =>
    obtain ⟨hj, hsrc, -⟩ := hops
    exact (keeps_identifier hj).bind fun name _ => (keeps_read hsrc).bind fun v hv =>
      keeps_get.bind fun _ _ => keeps_onHeap fun h hh => ⟨trivial, hh.define hv⟩
  case newArray dst size =>
    exact keeps_create hops.1 fun h hh => ⟨trivial, hh.pushList (by simp)⟩
  case setArrayIndex array j value =>
    obtain ⟨harray, -, hvalue, -⟩ := hops
    refine (keeps_read harray).bind fun v _ => ?_
    cases v with
    | array c =>
      exact (keeps_read hvalue).bind fun v hv =>
        keeps_onHeap fun h hh => ⟨trivial, hh.setItem hv⟩
    | _ => exact keeps_throw id
  case getArrayIndex dst array j =>
    obtain ⟨hdst, harray, hj, -⟩ := hops
    refine (keeps_read harray).bind fun target _ => (keeps_read hj).bind fun j _ => ?_
    cases target with
    | array c =>
      exact (keeps_index j).bind fun p _ =>
        (keeps_item (keeps_text j) c p _).bind fun v hv => keeps_write hdst hv
    | _ => exact (keeps_text _).bind fun _ _ => keeps_throw id
  case newTuple dst size =>
    refine keeps_create hops.1 fun h hh => ⟨trivial, hh.pushList fun v hv => ?_⟩
    rw [(Array.mem_replicate.mp hv).2]
    trivial
  case setTupleIndex tuple j value =>
    obtain ⟨htuple, -, hvalue, -⟩ := hops
    refine (keeps_read htuple).bind fun v _ => ?_
    cases v with
    | tuple c =>
      refine (keeps_read hvalue).bind fun v hv => keeps_heap.bind fun h _ => ?_
      split
      · exact keeps_onHeap fun h hh => ⟨trivial, hh.setItem hv⟩
      · exact keeps_throw id
    | _ => exact keeps_throw id
  case getTupleIndex dst tuple j =>
    obtain ⟨hdst, htuple, -⟩ := hops
    refine (keeps_read htuple).bind fun target _ => ?_
    cases target with
    | tuple c =>
      exact (keeps_item (.pure trivial) c _ _).bind fun v hv => keeps_write hdst hv
    | _ => exact (keeps_text _).bind fun _ _ => keeps_throw id
  case newObject dst size =>
    exact keeps_create hops.1 fun h hh => ⟨trivial, hh.pushObject (by simp)⟩
  case setField object f value =>
    obtain ⟨hobject, hf, hvalue, -⟩ := hops
    refine (keeps_read hobject).bind fun v _ => ?_
    cases v with
    | object c =>
      exact (keeps_identifier hf).bind fun name _ => (keeps_read hvalue).bind fun v hv =>
        keeps_onHeap fun h hh => ⟨trivial, hh.setField hv⟩
    | _ => exact keeps_throw id
  case getField dst object f =>
    obtain ⟨hdst, hobject, hf, -⟩ := hops
    refine (keeps_identifier hf).bind fun name _ => (keeps_read hobject).bind fun target _ =>
      keeps_heap.bind fun h hh => ?_
    split
    next v hv => exact keeps_write hdst (hh.field? hv)
    next => exact (keeps_text _).bind fun _ _ => keeps_throw id
  case tryGetField dst object f t =>
    obtain ⟨hdst, hobject, hf, ht, -⟩ := hops
    refine (keeps_identifier hf).bind fun name _ => (keeps_read hobject).bind fun target _ =>
      keeps_heap.bind fun h hh => ?_
    split
    next v hv => exact keeps_write hdst (hh.field? hv)
    next => exact keeps_target ht
  case jump t => exact keeps_target hops.1
  case jumpIfFalse condition t =>
    obtain ⟨hcondition, ht, -⟩ := hops
    refine (keeps_read hcondition).bind fun v _ => ?_
    split
    · exact .pure trivial
    · exact keeps_target ht
    · exact (keeps_text _).bind fun _ _ => keeps_throw id
  case isEqual dst lhs rhs =>
    obtain ⟨hdst, hlhs, hrhs, -⟩ := hops
    exact (keeps_read hlhs).bind fun a _ => (keeps_read hrhs).bind fun b _ =>
      keeps_write hdst trivial
  case pushScope =>
    exact keeps_get.bind fun _ _ => (keeps_newEnvironment _).bind fun e _ => keeps_setEnvironment e
  case popScope =>
    refine keeps_get.bind fun r _ => ?_
    split
    · exact keeps_setEnvironment _
    · exact keeps_throw id
  case pushFrame => exact keeps_pushFrame
  case popFrame => exact keeps_popFrame
  case unify lhs rhs =>
    obtain ⟨hlhs, hrhs, -⟩ := hops
    exact (keeps_read hlhs).bind fun _ _ => (keeps_asType _).bind fun _ _ =>
      (keeps_read hrhs).bind fun _ _ => (keeps_asType _).bind fun _ _ => keeps_unify _ _
  case resolveType dst ty =>
    obtain ⟨hdst, hty, -⟩ := hops
    exact (keeps_read hty).bind fun _ _ => (keeps_asType _).bind fun _ _ =>
      (keeps_onTable _).bind fun _ _ => keeps_write hdst trivial
  case checkType dst ty expected =>
    obtain ⟨hdst, hty, -⟩ := hops
    exact (keeps_read hty).bind fun _ _ => (keeps_checkType _ _).bind fun _ _ =>
      keeps_write hdst trivial
  case checkTypeOf dst value expected =>
    obtain ⟨hdst, hvalue, -⟩ := hops
    exact (keeps_read hvalue).bind fun _ _ => (keeps_checkTypeOf _ _).bind fun _ _ =>
      keeps_write hdst trivial
  case typeError m => exact (keeps_message m).bind fun _ _ => keeps_throw id
  case inferImplicit function count first =>
    refine (keeps_read hops.1).bind fun callee _ => keeps_get.bind fun r _ => ?_
    cases callee with
    | function c =>
      refine keeps_heap.bind fun h _ => (keeps_inferImplicit _ _ _).bind fun ts hts => ?_
      refine keeps_writeFrom (hranges (first, count) List.mem_cons_self) (by simpa using hts) ?_
      intro v hv
      obtain ⟨t, -, rfl⟩ := List.mem_map.mp hv
      trivial
    | _ => exact (keeps_text _).bind fun _ _ => keeps_throw id
  case newVarType dst name inferred rigid =>
    exact (keeps_identifier hops.2.1).bind fun _ _ => (keeps_newVar _ _ _).bind fun _ _ =>
      keeps_write hops.1 trivial
  case newNameType dst name =>
    exact (keeps_identifier hops.2.1).bind fun _ _ => keeps_write hops.1 trivial
  case newArrayType dst item =>
    exact (keeps_read hops.2.1).bind fun _ _ => (keeps_asType _).bind fun _ _ =>
      keeps_write hops.1 trivial
  case newTupleType dst count first =>
    exact (keeps_readRange (hranges (first, count) List.mem_cons_self)).bind fun _ _ =>
      (keeps_asTypes _ _).bind fun _ _ => keeps_write hops.1 trivial
  case newRecordType dst count firstKey firstType =>
    have htypes := hranges (firstType, count) (List.mem_cons_of_mem _ List.mem_cons_self)
    exact (keeps_readRange (hranges (firstKey, count) List.mem_cons_self)).bind fun _ _ =>
      (keeps_readRange htypes).bind fun _ _ => (keeps_asTypes _ _).bind fun _ _ =>
        (keeps_recordFields _ _ _).bind fun _ _ => keeps_write hops.1 trivial
  case newFunctionType dst count first result implicit =>
    obtain ⟨hdst, -, -, hresult, -⟩ := hops
    exact (keeps_readRange (hranges (first, count) List.mem_cons_self)).bind fun _ _ =>
      (keeps_asTypes _ _).bind fun _ _ => (keeps_read hresult).bind fun _ _ =>
        (keeps_asType _).bind fun _ _ => keeps_write hdst trivial
  case newUnionType dst lhs rhs =>
    obtain ⟨hdst, hlhs, hrhs, -⟩ := hops
    exact (keeps_read hlhs).bind fun _ _ => (keeps_asType _).bind fun _ _ =>
      (keeps_read hrhs).bind fun _ _ => (keeps_asType _).bind fun _ _ => keeps_write hdst trivial
  case newBindingType dst name ty =>
    obtain ⟨hdst, hname, hty, -⟩ := hops
    exact (keeps_identifier hname).bind fun _ _ => (keeps_read hty).bind fun _ _ =>
      (keeps_asType _).bind fun _ _ => keeps_write hdst trivial
  case newValue dst ty =>
    exact (keeps_read hops.2.1).bind fun _ _ => (keeps_asType _).bind fun _ _ =>
      (keeps_onTable _).bind fun t _ => keeps_create hops.1 fun h hh => hh.zero t
  case getTypeForValue dst value =>
    exact (keeps_read hops.2.1).bind fun v _ => (keeps_typeOf v).bind fun _ _ =>
      keeps_write hops.1 trivial
  case newCallHole dst callee argc first =>
    refine (keeps_read hops.2.1).bind fun _ _ =>
      (keeps_readRange (hranges (first, argc) List.mem_cons_self)).bind fun _ _ => ?_
    split
    · exact keeps_create hops.1 fun h hh => ⟨trivial, hh.newHole _⟩
    · exact (keeps_text _).bind fun _ _ => keeps_throw id
  case newSubscriptHole dst target j =>
    obtain ⟨hdst, htarget, hj, -⟩ := hops
    exact (keeps_read htarget).bind fun _ _ => (keeps_read hj).bind fun _ _ =>
      (keeps_subscript _ _).bind fun v hv => keeps_write hdst hv
  case newMemberHole dst object f =>
    obtain ⟨hdst, hobject, hf, -⟩ := hops
    refine (keeps_identifier hf).bind fun _ _ => (keeps_read hobject).bind fun _ _ => ?_
    split
    · exact keeps_create hdst fun h hh => ⟨trivial, hh.newHole _⟩
    · exact (keeps_text _).bind fun _ _ => keeps_throw id
  case isCell dst value kind =>
    exact (keeps_read hops.2.1).bind fun _ _ => keeps_write hops.1 trivial
  case runtimeError m => exact (keeps_message m).bind fun _ _ => keeps_throw id

end Exec

/-! ## Operators -/

namespace Operator

variable {h : Heap} {op : Operator} {a b v : Value} {f : Fault}

/-- The result of an operator is no function. -/
theorem below_of_apply (heq : op.apply h a b = .ok v) (n : Nat) : v.Below n := by
  rw [apply.eq_def] at heq
  split at heq
  · cases heq
    trivial
  · split at heq
    · cases heq
      cases op <;> trivial
    · cases heq

theorem inside_of_apply (heq : op.apply h a b = .error f) : ¬ f.IsOutside := by
  rw [apply.eq_def] at heq
  split at heq
  · cases heq
  · split at heq
    · cases heq
    · cases heq
      exact id

end Operator

/-! ## The stack -/

/-- The value fits a register file with so much room. -/
def Resume.Fits (room : Nat) : Resume → Prop
  | .answer => True
  | .store dst => dst.index < room
  | .signature dst block => dst.index < room ∧ block.Sound

/-- An activation can go on: its next instruction is there, and its registers are. -/
structure Activation.Sound (n : Nat) (a : Activation) : Prop where
  block : a.block.Sound
  position : a.position < a.block.code.size
  room : a.block.registerCount.toNat ≤ a.registers.size
  values : ∀ v ∈ a.registers, v.Below n

/-- All callers can go on, and each can take the value for which it waits. -/
def Resume.Awaited (n : Nat) : Resume → List Activation → Prop
  | _, [] => True
  | resume, a :: as =>
    resume.Fits a.block.registerCount.toNat ∧ a.Sound n ∧ a.resume.Awaited n as

theorem Activation.Sound.mono {a : Activation} {n n' : Nat} (h : a.Sound n) (hn : n ≤ n') :
    a.Sound n' :=
  { h with values := fun v hv => (h.values v hv).mono hn }

/-- An activation that can go on goes on. -/
theorem Activation.Sound.in_run {a : Activation} {n : Nat} {m : Machine} {callers : List Activation}
    (h : a.Sound n) (hm : m.heap.Sound n) :
    Run.In ⟨a.block, a.resume, callers⟩ n (· < a.block.code.size) ⟨m, a, callers⟩ :=
  ⟨hm, h.room, h.values, h.position⟩

theorem Resume.Awaited.mono {resume : Resume} {callers : List Activation} {n n' : Nat}
    (h : resume.Awaited n callers) (hn : n ≤ n') : resume.Awaited n' callers := by
  induction callers generalizing resume with
  | nil => trivial
  | cons a as ih => exact ⟨h.1, h.2.1.mono hn, ih h.2.2⟩

/-- The block in execution is sound, and so are its callers. -/
def Context.Sound (n : Nat) (k : Context) : Prop := k.block.Sound ∧ k.resume.Awaited n k.callers

/-- The invariant of a run: the block in execution and its callers can go on. -/
def Run.Sound (r : Run) : Prop := ∃ n k, k.Sound n ∧ r.In k n (· < k.block.code.size)

/-- The heap of the machine has only functions of sound blocks. -/
def Machine.Sound (m : Machine) : Prop := ∃ n, m.heap.Sound n

/-- The step leaves the run sound or ends it; if it fails, it did not reach outside. -/
def Run.StaysInside : EStateM.Result Fault Run (Option Value) → Prop
  | .ok none r => r.Sound
  | .ok (some _) r => r.machine.Sound
  | .error f r => ¬ f.IsOutside ∧ r.machine.Sound

namespace Exec

variable {α : Type} {k : Context} {n : Nat} {φ : Nat → Prop} {x : Exec α} {P : α → Prop} {r : Run}

/-- After an action that keeps the invariant comes the rest of the step. -/
theorem Keeps.andThen {f : α → Exec (Option Value)} (hx : Keeps k n φ x P) (hr : r.In k n φ)
    (hf : ∀ a, P a → ∀ r, r.In k n φ → Run.StaysInside (f a r)) :
    Run.StaysInside ((x >>= f) r) := by
  have h := hx r hr
  cases hres : x r with
  | ok a r' =>
    rw [hres] at h
    rw [Exec.bind_ok hres]
    exact hf a h.1 r' h.2
  | error e r' =>
    rw [hres] at h
    rw [Exec.bind_error hres]
    exact ⟨h.1, n, h.2⟩

/-- An action that keeps the invariant is a step. -/
theorem Keeps.staysInside (hx : Keeps k n (· < k.block.code.size) x P) (hk : k.Sound n)
    (hr : r.In k n (· < k.block.code.size)) :
    Run.StaysInside ((do _ ← x; return none) r) :=
  hx.andThen hr fun _ _ _ hr => ⟨n, k, hk, hr⟩

/-- So is one that only fails. -/
theorem Keeps.fails (hx : Keeps k n φ x fun _ => False) (hr : r.In k n φ) :
    Run.StaysInside ((do _ ← x; return none) r) :=
  hx.andThen hr fun _ h => h.elim

theorem staysInside_throw {f : Fault} (hf : ¬ f.IsOutside) (hr : r.In k n φ) :
    Run.StaysInside ((throw f : Exec (Option Value)) r) := by
  obtain ⟨hheap, -, -, -⟩ := hr
  exact ⟨hf, n, hheap⟩

/-! ## Entering and leaving blocks -/

theorem staysInside_enter {B : Block} {position e : Nat} {args : Array Value} {resume : Resume}
    (hk : k.Sound n) (hr : r.In k n (· < k.block.code.size)) (hB : B.Sound)
    (hposition : position < B.code.size) (hargs : ∀ v ∈ args, v.Below n)
    (hfits : resume.Fits k.block.registerCount.toNat) :
    Run.StaysInside ((do enter (.enter B position e args resume); return none) r) := by
  obtain ⟨hheap, hroom, hvalues, hp⟩ := hr
  have hcaller (e : Nat) : resume.Awaited n (⟨k.block, _, _, e, k.resume⟩ :: k.callers) :=
    ⟨hfits, ⟨hk.1, hp, hroom, hvalues⟩, hk.2⟩
  refine ⟨n, ⟨B, resume, _⟩, ⟨hB, hcaller _⟩, ⟨hheap, ?_, fun v hv => ?_, hposition⟩⟩
  · rw [Array.size_append, Array.size_replicate]
    show B.registerCount.toNat ≤ _
    omega
  · rcases Array.mem_append.mp hv with hv | hv
    · exact hargs v hv
    · rw [(Array.mem_replicate.mp hv).2]
      trivial

theorem staysInside_call {dst callee first : Register} {argc : UInt32} (hk : k.Sound n)
    (hi : k.block.problem? (.call dst callee argc first) = none)
    (hshort : first.index + argc.toNat < 2 ^ 32) (hr : r.In k n (· < k.block.code.size)) :
    Run.StaysInside ((do call dst callee argc first; return none) r) := by
  obtain ⟨hops, hrange, -⟩ := Block.problem?_eq_none_iff.mp hi
  simp only [Instr.operands, Instr.opcode, Opcode.shape, Instr.args, Operands.toList,
    List.forall_mem_cons, Block.operandProblem?_register] at hops
  obtain ⟨hdst, hcallee, -⟩ := hops
  have hrange := (Block.rangeProblem?_eq_none_iff hshort).mp
    (hrange (first, argc) List.mem_cons_self)
  simp only [call, bind_assoc]
  refine (keeps_read hcallee).andThen hr fun v hv r hr => ?_
  refine (keeps_readRange hrange).andThen hr fun args hargs r hr => ?_
  cases v with
  | function c =>
    simp only [bind_assoc]
    refine keeps_heap.andThen hr fun h hh r hr => ?_
    refine (keeps_completeArgs _ hargs).andThen hr fun args hargs r hr => ?_
    refine (keeps_newEnvironment _).andThen hr fun e _ r hr => ?_
    have hblock := hh.closure hv
    exact staysInside_enter hk hr hblock hblock.here.2.1.1 hargs hdst
  | builtin op =>
    refine @Keeps.staysInside _ k n _ (fun _ => True) _ ?_ hk hr
    dsimp only
    split
    · refine keeps_heap.bind fun h _ => ?_
      split
      next v heq => exact keeps_write hdst (Operator.below_of_apply heq n)
      next e heq => exact keeps_throw (Operator.inside_of_apply heq)
    · exact keeps_throw id
  | _ => exact ((keeps_text _).bind fun _ _ => keeps_throw id).fails hr

theorem staysInside_newClosure {dst : Register} {c : Closure} (hk : k.Sound n)
    (hdst : dst.index < k.block.registerCount.toNat) (hc : c.block.Sound)
    (hr : r.In k n (· < k.block.code.size)) :
    Run.StaysInside ((do create dst (·.newClosure c); return none) r) := by
  cases hr with
  | @intro m e p regs hheap hroom hvalues hp =>
    have hle := Nat.le_succ n
    have hr : (k.run (m.withHeap (m.heap.newClosure c).2) e p regs).In k (n + 1)
        (· < k.block.code.size) :=
      ⟨hheap.newClosure hc, hroom, fun v hv => (hvalues v hv).mono hle, hp⟩
    have hv : (Value.function m.heap.closures.size).Below (n + 1) :=
      Nat.lt_succ_of_le (Nat.le_of_eq hheap.size)
    exact (keeps_write hdst hv).staysInside ⟨hk.1, hk.2.mono hle⟩ hr

theorem staysInside_newFunction {dst : Register} {j : UInt32} (hk : k.Sound n)
    (hi : k.block.problem? (.newFunction dst j) = none)
    (hr : r.In k n (· < k.block.code.size)) :
    Run.StaysInside ((do newFunction dst j; return none) r) := by
  obtain ⟨hops, -, -⟩ := Block.problem?_eq_none_iff.mp hi
  simp only [Instr.operands, Instr.opcode, Opcode.shape, Instr.args, Operands.toList,
    List.forall_mem_cons, Block.operandProblem?_register, Block.operandProblem?_function] at hops
  obtain ⟨hdst, hj, -⟩ := hops
  simp only [newFunction, bind_assoc]
  refine (keeps_nested hj).andThen hr fun B hB r hr => ?_
  have hB : B.Sound := hk.1.nested hB
  refine keeps_get.andThen hr fun r' _ r hr => ?_
  split
  · simp only [bind_assoc]
    refine (keeps_freshVars _ _).andThen hr fun params _ r hr => ?_
    refine keeps_freshVar.andThen hr fun result _ r hr => ?_
    exact staysInside_newClosure hk hdst hB hr
  · simp only [bind_assoc]
    refine (keeps_newEnvironment _).andThen hr fun e _ r hr => ?_
    have hposition : 0 < B.code.size := Nat.zero_lt_of_lt hB.here.2.1.1
    exact staysInside_enter hk hr hB hposition (by simp) ⟨hdst, hB⟩

theorem staysInside_jump {t : Int32} (hk : k.Sound n)
    (hi : k.block.problem? (.jump t) = none) (hr : r.In k n φ) :
    Run.StaysInside ((do jump t; return none) r) := by
  obtain ⟨hops, -, -⟩ := Block.problem?_eq_none_iff.mp hi
  simp only [Instr.operands, Instr.opcode, Opcode.shape, Instr.args, Operands.toList,
    List.forall_mem_cons, Block.operandProblem?_target] at hops
  obtain ⟨⟨hlow, hhigh⟩, -⟩ := hops
  obtain ⟨hheap, hroom, hvalues, -⟩ := hr
  rw [Exec.bind_ok (Context.jump_run (Int.toNat_of_nonneg hlow).symm)]
  exact ⟨n, k, hk, ⟨hheap, hroom, hvalues, by omega⟩⟩

theorem staysInside_leave {src : Register} (hk : k.Sound n)
    (hi : k.block.problem? (.leave src) = none) (hr : r.In k n φ) :
    Run.StaysInside (leave src r) := by
  obtain ⟨hops, -, -⟩ := Block.problem?_eq_none_iff.mp hi
  simp only [Instr.operands, Instr.opcode, Opcode.shape, Instr.args, Operands.toList,
    List.forall_mem_cons, Block.operandProblem?_register] at hops
  refine (keeps_read hops.1).andThen hr fun v hv r hr => ?_
  obtain ⟨B, resume, callers⟩ := k
  cases hr with
  | @intro m e p regs hheap hroom hvalues hp =>
  cases callers with
  | nil => exact ⟨n, hheap⟩
  | cons caller callers =>
    have hback : back (Context.run ⟨B, resume, caller :: callers⟩ m e p regs) =
      .ok (some resume) ⟨m, caller, callers⟩ := rfl
    rw [Exec.bind_ok hback]
    obtain ⟨hfits, hcaller, hcallers⟩ := hk.2
    have hin := @Activation.Sound.in_run caller n _ callers hcaller hheap
    cases resume with
    | answer => exact ⟨n, ⟨caller.block, caller.resume, callers⟩, ⟨hcaller.block, hcallers⟩, hin⟩
    | store dst =>
      have hdst : dst.index < caller.block.registerCount.toNat := hfits
      exact Keeps.staysInside (keeps_write hdst hv) ⟨hcaller.block, hcallers⟩ hin
    | signature dst block =>
      cases v with
      | type t =>
        exact staysInside_newClosure ⟨hcaller.block, hcallers⟩ hfits.1 hfits.2 hin
      | _ =>
        refine (keeps_text _).andThen hin fun _ _ r hr => ?_
        exact staysInside_throw id hr

end Exec

/-! ## Steps and runs -/

/-- An instruction after which the code goes on is not the last one. -/
theorem Block.Closed.succ_lt {B : Block} (hB : B.Closed) {p : Nat} {i : Instr}
    (hi : B.code[p]? = some i) (hends : ¬ i.Ends) : p + 1 < B.code.size := by
  obtain ⟨-, j, hj, hjends⟩ := hB
  obtain ⟨hp, -⟩ := Array.getElem?_eq_some_iff.mp hi
  refine Nat.lt_of_le_of_ne hp fun hlast => hends ?_
  rw [Array.back?_eq_getElem?, ← hlast, Nat.add_sub_cancel, hi] at hj
  cases hj
  exact hjends

open Exec in
/-- **A step does not reach outside.** -/
theorem Run.step_sound {r : Run} (hr : r.Sound) : StaysInside (Exec.step r) := by
  obtain ⟨n, k, hk, hr⟩ := hr
  obtain ⟨hclean, hclosed, hshort⟩ := hk.1.here
  cases hr with
  | @intro m e p regs hheap hroom hvalues hp =>
    generalize hcode : k.block.code[p] = i
    have hi : k.block.code[p]? = some i := hcode ▸ Array.getElem?_eq_getElem hp
    have hmem : i ∈ k.block.code := hcode ▸ Array.getElem_mem hp
    rw [Exec.step, Exec.bind_ok (Context.fetch_run hi)]
    have hproblem := hclean i hmem
    have hranges := hshort i hmem
    have hany : (k.run m e (p + 1) regs).In k n fun _ => True :=
      ⟨hheap, hroom, hvalues, trivial⟩
    have hnext (h : ¬ i.Ends) : (k.run m e (p + 1) regs).In k n (· < k.block.code.size) :=
      ⟨hheap, hroom, hvalues, hclosed.succ_lt hi h⟩
    have hinstr (h : ¬ i.Ends) :=
      (keeps_instr hproblem hranges fun p hp => hp).staysInside hk (hnext h)
    cases i with
    | leave src => exact staysInside_leave hk hproblem hany
    | call => exact staysInside_call hk hproblem (hranges _ List.mem_cons_self) (hnext id)
    | newFunction => exact staysInside_newFunction hk hproblem (hnext id)
    | jump t => exact staysInside_jump hk hproblem hany
    | typeError j => exact ((keeps_message j).bind fun _ _ => keeps_throw id).fails hany
    | runtimeError j => exact ((keeps_message j).bind fun _ _ => keeps_throw id).fails hany
    | _ => exact hinstr id

/-- **A run does not reach outside**, however long it is. -/
theorem Run.finish_sound {r : Run} (hr : r.Sound) {steps : Nat} {out : Except Fault Value}
    {m : Machine} (h : r.finish steps = some (out, m)) :
    m.Sound ∧ ∀ f, out = .error f → ¬ f.IsOutside := by
  induction steps generalizing r with
  | zero => cases h
  | succ steps ih =>
    have hstep := step_sound hr
    rw [finish] at h
    split at h
    next r' heq =>
      rw [heq] at hstep
      exact ih hstep h
    next v r' heq =>
      rw [heq] at hstep
      cases h
      exact ⟨hstep, fun _ hf => nomatch hf⟩
    next f r' heq =>
      rw [heq] at hstep
      cases h
      exact ⟨hstep.2, fun _ hf => by cases hf; exact hstep.1⟩

namespace Machine

theorem sound_initial : initial.Sound := by
  have hdefine (e : Nat) (ops : List Operator) (h : Heap) (hh : h.Sound 0) :
      (defineOperators e ops h).Sound 0 := by
    induction ops generalizing h with
    | nil => exact hh
    | cons op ops ih => exact ih _ (hh.define trivial)
  exact ⟨0, hdefine _ _ _ (Heap.Sound.empty.newEnvironment none)⟩

theorem Sound.start {m : Machine} (hm : m.Sound) {B : Block} (hB : B.Sound) :
    (m.start B).Sound := by
  obtain ⟨n, hheap⟩ := hm
  refine ⟨n, ⟨B, .answer, []⟩, ⟨hB, trivial⟩,
    ⟨hheap.newEnvironment (some m.globals), ?_, fun v hv => ?_, hB.here.2.1.1⟩⟩
  · rw [Array.size_append, Array.size_replicate]
    show B.registerCount.toNat ≤ _
    omega
  · rcases Array.mem_append.mp hv with hv | hv
    · cases Array.not_mem_empty _ hv
    · rw [(Array.mem_replicate.mp hv).2]
      trivial

/-- The machine has only run blocks with the property; each run has ended, with a value or with a
failure. -/
inductive Reached (P : Block → Prop) : Machine → Prop
  | initial : Reached P initial
  | run {m m' : Machine} {B : Block} {steps : Nat} {out : Except Fault Value} (hm : Reached P m)
      (hB : P B) (hrun : m.run steps B = some (out, m')) : Reached P m'

theorem Reached.sound {m : Machine} (hm : m.Reached Block.Sound) : m.Sound := by
  induction hm with
  | initial => exact sound_initial
  | run _ hB hrun ih => exact (Run.finish_sound (ih.start hB) hrun).1

theorem Reached.mono {P Q : Block → Prop} {m : Machine} (hm : m.Reached P) (h : ∀ B, P B → Q B) :
    m.Reached Q := by
  induction hm with
  | initial => exact .initial
  | run _ hB hrun ih => exact .run ih (h _ hB) hrun

end Machine

/-- The block passes verification, and it and its nested blocks are closed and short. -/
def Block.Passes (B : Block) : Prop :=
  B.verify = .ok () ∧ B.Everywhere Closed ∧ B.Everywhere Short

theorem Block.Passes.sound {B : Block} (h : B.Passes) : B.Sound :=
  (B.verify_eq_ok_iff.mp h.1).and (h.2.1.and h.2.2)

/-- **Verified blocks do not reach outside.** On a machine that has only run such blocks, a run of a
block that passes verification, is closed and has short runs of registers does not fail for a
register, a constant, an identifier, a nested block or a position in the code that is not there. -/
theorem Machine.run_stays_inside {m m' : Machine} {B : Block} {steps : Nat} {f : Fault}
    (hm : m.Reached Block.Passes) (hB : B.Passes) (hrun : m.run steps B = some (.error f, m')) :
    ¬ f.IsOutside :=
  have hm := (hm.mono fun _ h => h.sound).sound
  (Run.finish_sound (hm.start hB.sound) hrun).2 f rfl

/-- A block that takes the unit value for an array. -/
def Block.notArray : Block :=
  ⟨"b", #[.setArrayIndex ⟨0⟩ 0 ⟨0⟩, .leave ⟨0⟩], #[], #[], #[], 0, 1, 0⟩

/-- A run that fails for another reason. -/
theorem Machine.run_notArray :
    Block.notArray.Passes ∧
      (∃ m, initial.run 1 Block.notArray = some (.error (.notArrayRegister ⟨0⟩), m)) ∧
      ¬ (Fault.notArrayRegister ⟨0⟩).IsOutside := by
  have hnested (P : Block → Prop) : ∀ f ∈ Block.notArray.functions, f.Everywhere P :=
    fun f hf => nomatch Array.not_mem_empty f hf
  have hpasses : Block.notArray.Passes :=
    ⟨rfl, .intro ⟨by decide, _, rfl, trivial⟩ (hnested _),
      .intro (by intro i hi x hx; simp [Block.notArray] at hi; rcases hi with rfl | rfl <;> cases hx)
        (hnested _)⟩
  have hrun : ∃ m, initial.run 1 Block.notArray = some (.error (.notArrayRegister ⟨0⟩), m) :=
    ⟨_, rfl⟩
  exact ⟨hpasses, hrun, hrun.elim fun _ h => run_stays_inside .initial hpasses h⟩

/-- A block with two registers that calls a function with `2 ^ 32 - 1` arguments. -/
def Block.longRange : Block :=
  ⟨"b", #[.call ⟨0⟩ ⟨0⟩ 4294967295 ⟨1⟩, .leave ⟨0⟩], #[], #[], #[], 0, 2, 0⟩

/-- **Verification misses a long run of registers.** The end of the run of registers is `2 ^ 32`, which
comes out as zero; so the block passes, and its run fails for a register that is not there. -/
theorem Machine.run_longRange :
    Block.longRange.verify = .ok () ∧ Block.longRange.Everywhere Block.Closed ∧
      ∃ m, initial.run 1 Block.longRange = some (.error (.registerOutOfRange ⟨2⟩ "b"), m) := by
  have hclosed : Block.longRange.Everywhere Block.Closed :=
    .intro ⟨by decide, _, rfl, trivial⟩ fun f hf => nomatch Array.not_mem_empty f hf
  exact ⟨rfl, hclosed, _, rfl⟩

end Reified
