import Mathlib.Data.Set.Insert
import Reified.Proofs.Block.Verify
import Reified.Proofs.Lowering.Builder

/-!
# Emitting code that is in order

What code generation emits is in order in the finished block: its registers, pool positions and jump
targets are there. Whether an instruction is in order is known only in the end, when the pools and the
register file have their final size and the labels have their positions; so the code emitted by an
action is judged by a later builder, into which everything that the action leaves behind has grown.

A label is handed out before it is bound, and jumps to it are emitted in between. The actions that
follow are therefore described together with the labels that they bind.

The first register of a run of registers that is empty is an exception: it is the next register that is
free, and the register file need not have it.

## Main definitions

* `Block.InOrder` — an instruction has no problem but, perhaps, the first register of an empty run
* `Builder.Allows` — what an instruction needs of the finished block
* `Lower.Emits` — all that an action emits is allowed, and it binds some labels

## Main results

* `Lower.Emits.bind`, `Lower.Emits.newLabel` — one action after the other
-/

namespace Reified

/-! ## Instructions in order -/

namespace Block

/-- Each operand, run of registers and message of the instruction is in order, except that the first
register of an empty run need not be there. -/
structure InOrder (B : Block) (i : Instr) : Prop where
  operands : ∀ x ∈ i.operands, B.operandProblem? x.kind x.value = none ∨
    ∃ r : Register, x = ⟨.register, r⟩ ∧ (r, 0) ∈ i.ranges
  ranges : ∀ x ∈ i.ranges, B.rangeProblem? x.1 x.2 = none
  message : B.messageProblem? i = none

/-- All instructions of the block are in order. -/
def Orderly (B : Block) : Prop := ∀ i ∈ B.code, B.InOrder i

/-- Every empty run of registers starts inside the register file. -/
def EmptyRunsInside (B : Block) : Prop :=
  ∀ i ∈ B.code, ∀ r : Register, (r, 0) ∈ i.ranges → r.index < B.registerCount.toNat

/-- The first register of a run is an operand. -/
theorem mem_operands_of_mem_ranges {i : Instr} {r : Register} {count : UInt32}
    (h : (r, count) ∈ i.ranges) : (⟨.register, r⟩ : Operand) ∈ i.operands := by
  cases i <;> simp only [Instr.ranges, List.not_mem_nil, List.mem_cons, Prod.mk.injEq, or_false] at h
  all_goals
    simp only [Instr.operands, Instr.opcode, Opcode.shape, Instr.args, Operands.toList]
    rcases h with ⟨rfl, -⟩ | ⟨rfl, -⟩ <;> simp

/-- Instructions in order have no problem exactly if the empty runs start inside the register
file. -/
theorem Orderly.clean_iff {B : Block} (h : B.Orderly) : B.Clean ↔ B.EmptyRunsInside := by
  constructor
  · intro hclean i hi r hr
    have hoperands := (problem?_eq_none_iff.mp (hclean i hi)).1
    exact operandProblem?_register.mp (hoperands _ (mem_operands_of_mem_ranges hr))
  · intro hinside i hi
    refine problem?_eq_none_iff.mpr ⟨fun x hx => ?_, (h i hi).ranges, (h i hi).message⟩
    rcases (h i hi).operands x hx with hx | ⟨r, rfl, hr⟩
    · exact hx
    · exact operandProblem?_register.mpr (hinside i hi r hr)

end Block

/-! ## What an instruction needs -/

namespace Builder

/-- The register is in the register file. -/
def Has (F : Builder) (r : Register) : Prop := r.index < F.block.registerCount.toNat

/-- The run of registers is in the register file, and so short that registers can be counted. -/
def HasRun (F : Builder) (first : Register) (count : Nat) : Prop :=
  count ≤ 65535 ∧ (0 < count → first.index + count ≤ F.block.registerCount.toNat ∧
    first.index + count ≤ 65535)

/-- The label has a position at which there is an instruction. -/
def Target (F : Builder) (l : Label) : Prop :=
  ∃ p, F.position? l = some p ∧ p < F.items.size

/-- The position is one of an instruction. -/
def HasTarget (F : Builder) (t : Int32) : Prop := 0 ≤ t.toInt ∧ t.toInt < F.items.size

/-- What an instruction needs of the finished block. -/
def Allows (F : Builder) : Instr → Prop
  | .pushScope | .popScope | .pushFrame | .popFrame => True
  | .leave a | .newArray a _ | .newTuple a _ | .newObject a _ => F.Has a
  | .move a b | .setArrayIndex a _ b | .setTupleIndex a _ b | .getTupleIndex a b _ | .unify a b
  | .resolveType a b | .checkType a b _ | .checkTypeOf a b _ | .newArrayType a b | .newValue a b
  | .getTypeForValue a b | .isCell a b _ => F.Has a ∧ F.Has b
  | .getArrayIndex a b c | .isEqual a b c | .newUnionType a b c | .newSubscriptHole a b c =>
    F.Has a ∧ F.Has b ∧ F.Has c
  | .loadConstant a j => F.Has a ∧ j.toNat < F.block.constants.size
  | .getLocal a j | .setLocal j a | .newVarType a j _ _ | .newNameType a j =>
    F.Has a ∧ j.toNat < F.block.identifiers.size
  | .setField a j b | .getField a b j | .newBindingType a j b | .newMemberHole a b j =>
    F.Has a ∧ F.Has b ∧ j.toNat < F.block.identifiers.size
  | .tryGetField a b j t =>
    F.Has a ∧ F.Has b ∧ j.toNat < F.block.identifiers.size ∧ F.HasTarget t
  | .newFunction a j => F.Has a ∧ j.toNat < F.block.functions.size
  | .call a b n first | .newCallHole a b n first => F.Has a ∧ F.Has b ∧ F.HasRun first n.toNat
  | .inferImplicit a n first | .newTupleType a n first => F.Has a ∧ F.HasRun first n.toNat
  | .newRecordType a n first first' => F.Has a ∧ F.HasRun first n.toNat ∧ F.HasRun first' n.toNat
  | .newFunctionType a n first b _ => F.Has a ∧ F.Has b ∧ F.HasRun first n.toNat
  | .jump t => F.HasTarget t
  | .jumpIfFalse a t => F.Has a ∧ F.HasTarget t
  | .typeError j | .runtimeError j => ∃ m, F.finish.constant? j = some (.string m)

variable {F : Builder} {i : Instr}

theorem HasRun.rangeProblem? {first : Register} {n : UInt32} (h : F.HasRun first n.toNat) :
    F.finish.rangeProblem? first n = none := by
  have hlt := first.number.toNat_lt
  have hle := h.1
  have hindex : first.index = first.number.toNat := rfl
  exact (Block.rangeProblem?_eq_none_iff (by omega)).mpr fun hn => (h.2 hn).1

/-- The first register of a run is in order, or the run is empty. -/
theorem HasRun.operand {first : Register} {n : UInt32} (h : F.HasRun first n.toNat)
    (hi : (first, n) ∈ i.ranges) : F.finish.operandProblem? .register first = none ∨
      ∃ r : Register, (⟨.register, first⟩ : Operand) = ⟨.register, r⟩ ∧ (r, 0) ∈ i.ranges := by
  rcases Nat.eq_zero_or_pos n.toNat with hn | hn
  · have hn : n = 0 := UInt32.toNat_inj.mp hn
    exact .inr ⟨first, rfl, hn ▸ hi⟩
  · have hle := (h.2 hn).1
    have hlt : first.index < F.block.registerCount.toNat := by omega
    exact .inl (Block.operandProblem?_register.mpr hlt)

theorem Allows.operands (h : F.Allows i) :
    ∀ x ∈ i.operands, F.finish.operandProblem? x.kind x.value = none ∨
      ∃ r : Register, x = ⟨.register, r⟩ ∧ (r, 0) ∈ i.ranges := by
  have hregister {r : Register} (hr : F.Has r) : F.finish.operandProblem? .register r = none :=
    Block.operandProblem?_register.mpr hr
  have hconstant {j : UInt32} (hj : j.toNat < F.block.constants.size) :
      F.finish.operandProblem? .constant j = none := Block.operandProblem?_constant.mpr hj
  have hmessage {j : UInt32} (hj : ∃ m, F.finish.constant? j = some (.string m)) :
      F.finish.operandProblem? .constant j = none := by
    obtain ⟨m, hm⟩ := hj
    exact Block.operandProblem?_constant.mpr (Array.getElem?_eq_some_iff.mp hm).1
  have hidentifier {j : UInt32} (hj : j.toNat < F.block.identifiers.size) :
      F.finish.operandProblem? .identifier j = none := Block.operandProblem?_identifier.mpr hj
  have hfunction {j : UInt32} (hj : j.toNat < F.block.functions.size) :
      F.finish.operandProblem? .function j = none := Block.operandProblem?_function.mpr hj
  have htarget {t : Int32} (ht : F.HasTarget t) : F.finish.operandProblem? .target t = none :=
    Block.operandProblem?_target.mpr ⟨ht.1, by rw [size_code_finish]; exact ht.2⟩
  cases i <;>
    simp only [Instr.operands, Instr.opcode, Opcode.shape, Instr.args, Operands.toList,
      List.forall_mem_cons, List.not_mem_nil, false_imp_iff, implies_true, and_true]
  case call | newCallHole =>
    exact ⟨.inl (hregister h.1), .inl (hregister h.2.1), .inl rfl,
      h.2.2.operand (by simp [Instr.ranges])⟩
  case inferImplicit | newTupleType =>
    exact ⟨.inl (hregister h.1), .inl rfl, h.2.operand (by simp [Instr.ranges])⟩
  case newRecordType =>
    exact ⟨.inl (hregister h.1), .inl rfl, h.2.1.operand (by simp [Instr.ranges]),
      h.2.2.operand (by simp [Instr.ranges])⟩
  case newFunctionType =>
    exact ⟨.inl (hregister h.1), .inl rfl, h.2.2.operand (by simp [Instr.ranges]),
      .inl (hregister h.2.1), .inl rfl⟩
  case leave => exact .inl (hregister h)
  case newArray | newTuple | newObject => exact ⟨.inl (hregister h), .inl rfl⟩
  case move | unify | resolveType | newArrayType | newValue | getTypeForValue =>
    exact ⟨.inl (hregister h.1), .inl (hregister h.2)⟩
  case checkType | checkTypeOf | isCell | getTupleIndex =>
    exact ⟨.inl (hregister h.1), .inl (hregister h.2), .inl rfl⟩
  case setArrayIndex | setTupleIndex =>
    exact ⟨.inl (hregister h.1), .inl rfl, .inl (hregister h.2)⟩
  case getArrayIndex | isEqual | newUnionType | newSubscriptHole =>
    exact ⟨.inl (hregister h.1), .inl (hregister h.2.1), .inl (hregister h.2.2)⟩
  case loadConstant => exact ⟨.inl (hregister h.1), .inl (hconstant h.2)⟩
  case getLocal | newNameType => exact ⟨.inl (hregister h.1), .inl (hidentifier h.2)⟩
  case setLocal => exact ⟨.inl (hidentifier h.2), .inl (hregister h.1)⟩
  case newVarType =>
    exact ⟨.inl (hregister h.1), .inl (hidentifier h.2), .inl rfl, .inl rfl⟩
  case setField | newBindingType =>
    exact ⟨.inl (hregister h.1), .inl (hidentifier h.2.2), .inl (hregister h.2.1)⟩
  case getField | newMemberHole =>
    exact ⟨.inl (hregister h.1), .inl (hregister h.2.1), .inl (hidentifier h.2.2)⟩
  case tryGetField =>
    exact ⟨.inl (hregister h.1), .inl (hregister h.2.1), .inl (hidentifier h.2.2.1),
      .inl (htarget h.2.2.2)⟩
  case newFunction => exact ⟨.inl (hregister h.1), .inl (hfunction h.2)⟩
  case jump => exact .inl (htarget h)
  case jumpIfFalse => exact ⟨.inl (hregister h.1), .inl (htarget h.2)⟩
  case typeError | runtimeError => exact .inl (hmessage h)

theorem Allows.inOrder (h : F.Allows i) : F.finish.InOrder i := by
  refine ⟨h.operands, ?_, ?_⟩
  · cases i <;> simp only [Instr.ranges, List.forall_mem_cons, List.not_mem_nil, false_imp_iff,
      implies_true, and_true]
    case call | newCallHole => exact h.2.2.rangeProblem?
    case inferImplicit | newTupleType => exact h.2.rangeProblem?
    case newRecordType => exact ⟨h.2.1.rangeProblem?, h.2.2.rangeProblem?⟩
    case newFunctionType => exact h.2.2.rangeProblem?
  · cases i with
    | typeError | runtimeError =>
      obtain ⟨m, hm⟩ := h
      simp only [Block.messageProblem?, hm]
    | _ => rfl

/-! ## Builders inside a later one -/

/-- The label has a position, with the code that follows it still to come. -/
def Bound (b : Builder) (l : Label) : Prop := ∃ p, b.position? l = some p ∧ p ≤ b.items.size

/-- A later builder: its pools and its register file have grown, and labels are still bound. -/
structure Within (b b' : Builder) : Prop where
  block : b.block.Grows b'.block
  labels : b.labels.size ≤ b'.labels.size
  bound : ∀ {l : Label}, b.Bound l → b'.Bound l

/-- The last builder of a block: nothing comes after it, so labels that were bound before its last
instruction have an instruction at their position. -/
structure Inside (b F : Builder) : Prop where
  fits : F.finish.Fits
  block : b.block.Grows F.block
  bound : ∀ {l : Label}, b.Bound l → F.Target l

/-- All that has been emitted is in order in the finished block, and so are the nested blocks. -/
structure Tidy (b F : Builder) : Prop where
  items : ∀ x ∈ b.items, F.finish.InOrder (F.resolve x)
  functions : ∀ f ∈ b.block.functions, f.Everywhere Block.Orderly

variable {b b₁ b' : Builder} {l : Label}

theorem Within.refl (b : Builder) : b.Within b := ⟨.refl _, Nat.le_refl _, id⟩

theorem Within.trans (h : b.Within b₁) (h' : b₁.Within b') : b.Within b' :=
  ⟨h.block.trans h'.block, Nat.le_trans h.labels h'.labels, h'.bound ∘ h.bound⟩

theorem Within.inside (h : b.Within b') (hF : b'.Inside F) : b.Inside F :=
  ⟨hF.fits, h.block.trans hF.block, fun hl => hF.bound (h.bound hl)⟩

/-- A change of the pools and the register file only. -/
theorem Within.of_grows {B : Block} {next : UInt16} (h : b.block.Grows B) :
    b.Within ⟨B, b.items, b.labels, next⟩ := ⟨h, Nat.le_refl _, id⟩

theorem Tidy.of_functions {B : Block} {next : UInt16} (h : b.Tidy F)
    (hB : B.functions = b.block.functions) : Tidy ⟨B, b.items, b.labels, next⟩ F :=
  ⟨h.items, fun f hf => h.functions f (by rw [← hB]; exact hf)⟩

theorem Target.hasTarget (h : F.Target l) (hfits : F.finish.Fits) :
    ∃ t, F.HasTarget t ∧ ∀ i : Instr, F.resolve ⟨i, some l⟩ = i.withTarget t := by
  obtain ⟨p, hp, hlt⟩ := h
  have hsize := hfits.code_lt
  rw [size_code_finish] at hsize
  have ht : (Int32.ofNat p).toInt = p := Int32.toInt_ofNat_of_lt (by omega)
  refine ⟨.ofNat p, ⟨by omega, by omega⟩, fun i => ?_⟩
  simp only [resolve, Option.bind_some, hp]

/-- Nothing follows the last instruction, which does not jump. -/
theorem Inside.of_emit {u : Unit} (h : Lower.emit i b = .ok u F) (hfits : F.finish.Fits) :
    b.Inside F := by
  cases h
  refine ⟨hfits, .refl _, fun {l} ⟨p, hp, hle⟩ => ⟨p, hp, ?_⟩⟩
  show p < (b.items.push _).size
  rw [Array.size_push]
  exact Nat.lt_succ_of_le hle

/-- The last instruction completes the block. -/
theorem Tidy.finish {u : Unit} (h : b.Tidy F) (hemit : Lower.emit i b = .ok u F) (hi : F.Allows i) :
    F.finish.Everywhere Block.Orderly := by
  refine .intro (fun x hx => ?_) fun f hf => ?_
  · obtain ⟨y, hy, rfl⟩ := Array.mem_map.mp (show x ∈ F.items.map F.resolve from hx)
    cases hemit
    rcases Array.mem_push.mp hy with hy | rfl
    · exact h.items y hy
    · exact hi.inOrder
  · cases hemit
    exact h.functions f hf

theorem HasRun.mono {first : Register} {m n : Nat} (h : F.HasRun first n) (hle : m ≤ n) :
    F.HasRun first m := by
  refine ⟨Nat.le_trans hle h.1, fun hm => ?_⟩
  have hn := h.2 (by omega)
  omega

/-- The number of registers of a run can be an operand. -/
theorem HasRun.ofNat {first : Register} {n : Nat} (h : F.HasRun first n) :
    F.HasRun first (UInt32.ofNat n).toNat := by
  have hle := h.1
  rwa [UInt32.toNat_ofNat_of_lt' (by simp only [UInt32.size]; omega)]

theorem Has.first {first : Register} {n : Nat} (h : F.HasRun first n) (hn : 0 < n) : F.Has first := by
  have hle := h.2 hn
  show first.index < _
  omega

theorem Has.of_run {first : Register} {n index : Nat} (h : F.HasRun first n) (hlt : index < n) :
    F.Has (first.offset index) := by
  have hle := h.2 (by omega)
  show (UInt16.ofNat (min (first.index + index) 65535)).toNat < _
  rw [UInt16.toNat_ofNat_of_lt' (by simp only [UInt16.size]; omega)]
  omega

end Builder

/-! ## Actions -/

namespace Lower

open Builder

variable {F : Builder} {α β : Type} {C : Prop} {L : List Label} {P : α → Prop} {Q : β → Prop}

/-- The action binds the labels. In a last builder of which `C` is known, its answer has the property
and all that it emits is in order. -/
def Gives (F : Builder) (C : Prop) (L : List Label) (x : Lower α) (P : α → Prop) : Prop :=
  ∀ ⦃b b' : Builder⦄ ⦃a : α⦄, x b = .ok a b' → b.Within b' ∧
    (∀ l ∈ L, l.number < b.labels.size → b'.Bound l) ∧
    (C → b'.Inside F → P a ∧ (b.Tidy F → b'.Tidy F))

/-- All that the action emits is in order in a last builder of which `C` is known, and it binds the
labels. -/
def Emits (F : Builder) (C : Prop) (L : List Label) (x : Lower Unit) : Prop :=
  Gives F C L x fun _ => True

namespace Gives

variable {x : Lower α} {f : α → Lower β}

/-- **One action after the other.** What is known about the answer of the first one is known when
the second one is judged. -/
theorem bind (hx : Gives F C [] x P) (hf : ∀ a, Gives F (C ∧ P a) L (f a) Q) :
    Gives F C L (x >>= f) Q := by
  intro b b' c h
  obtain ⟨a, b₁, hxb, hfb⟩ := bind_eq_ok h
  obtain ⟨hwithin, -, hx⟩ := hx hxb
  obtain ⟨hwithin', hbound, hf⟩ := hf a hfb
  refine ⟨hwithin.trans hwithin', fun l hl hlt => hbound l hl (Nat.lt_of_lt_of_le hlt hwithin.labels),
    fun hC hF => ?_⟩
  obtain ⟨ha, htidy⟩ := hx hC (hwithin'.inside hF)
  obtain ⟨hc, htidy'⟩ := hf ⟨hC, ha⟩ hF
  exact ⟨hc, htidy' ∘ htidy⟩

/-- One action after another one whose answer says nothing. -/
theorem seq {x : Lower Unit} {f : Unit → Lower β} (hx : Emits F C [] x)
    (hf : Gives F C L (f ()) Q) : Gives F C L (x >>= f) Q :=
  hx.bind fun _ _ _ _ h =>
    have ⟨hwithin, hbound, hf⟩ := hf h
    ⟨hwithin, hbound, fun hC => hf hC.1⟩

theorem pure {a : α} (ha : C → P a) : Gives F C [] (Pure.pure a) P := by
  intro b b' c h
  obtain ⟨rfl, rfl⟩ := pure_eq_ok h
  exact ⟨.refl b, fun _ hl => absurd hl List.not_mem_nil, fun hC _ => ⟨ha hC, id⟩⟩

theorem weaken {D : Prop} (hx : Gives F C L x P) (h : D → C) : Gives F D L x P :=
  fun _ _ _ hxb =>
    have ⟨hwithin, hbound, hx⟩ := hx hxb
    ⟨hwithin, hbound, hx ∘ h⟩

theorem throw (e : LowerError) : Gives F C L (throw e) P := by
  intro b b' c h
  cases h

theorem ite {c : Prop} [Decidable c] {x y : Lower α} (hx : c → Gives F C L x P)
    (hy : ¬c → Gives F C L y P) : Gives F C L (if c then x else y) P := by
  split
  next hc => exact hx hc
  next hc => exact hy hc

/-- A change of the pools and the register file only. -/
theorem of_grows (h : ∀ ⦃b b' : Builder⦄ ⦃a : α⦄, x b = .ok a b' →
    (∃ B next, b' = ⟨B, b.items, b.labels, next⟩ ∧ b.block.Grows B ∧
      B.functions = b.block.functions) ∧ (C → b'.Inside F → P a)) : Gives F C [] x P := by
  intro b b' a hx
  obtain ⟨⟨B, next, rfl, hgrows, hfunctions⟩, ha⟩ := h hx
  exact ⟨.of_grows hgrows, fun _ hl => absurd hl List.not_mem_nil,
    fun hC hF => ⟨ha hC hF, fun hb => hb.of_functions hfunctions⟩⟩

/-! ### Code -/

theorem emitItem {y : Item} (hy : C → F.finish.Fits → F.finish.InOrder (F.resolve y)) :
    Emits F C [] (Lower.emitItem y) := by
  intro b b' u h
  cases h
  have hbound {l : Label} : b.Bound l → Bound ⟨b.block, b.items.push y, b.labels, b.next⟩ l := by
    rintro ⟨p, hp, hle⟩
    refine ⟨p, hp, ?_⟩
    show p ≤ (b.items.push y).size
    rw [Array.size_push]
    exact Nat.le_succ_of_le hle
  refine ⟨⟨.refl _, Nat.le_refl _, hbound⟩, fun _ hl => absurd hl List.not_mem_nil,
    fun hC hF => ⟨trivial, fun hb => ⟨fun z hz => ?_, hb.functions⟩⟩⟩
  rcases Array.mem_push.mp hz with hz | rfl
  · exact hb.items z hz
  · exact hy hC hF.fits

theorem emit {i : Instr} (hi : C → F.Allows i) : Emits F C [] (Lower.emit i) :=
  emitItem fun hC _ => (hi hC).inOrder

theorem emitJump {i : Instr} {l : Label}
    (hi : C → F.Target l ∧ ∀ t, F.HasTarget t → F.Allows (i.withTarget t)) :
    Emits F C [] (Lower.emitJump i l) :=
  emitItem fun hC hfits => by
    obtain ⟨t, ht, hresolve⟩ := (hi hC).1.hasTarget hfits
    rw [hresolve]
    exact ((hi hC).2 t ht).inOrder

theorem jump {l : Label} (hl : C → F.Target l) : Emits F C [] (Lower.jump l) :=
  emitJump fun hC => ⟨hl hC, fun _ ht => ht⟩

theorem jumpIfFalse {r : Register} {l : Label} (h : C → F.Has r ∧ F.Target l) :
    Emits F C [] (Lower.jumpIfFalse r l) :=
  emitJump fun hC => ⟨(h hC).2, fun _ ht => ⟨(h hC).1, ht⟩⟩

/-- **A new label** has a position in the end if the actions that follow bind it. -/
theorem newLabel {f : Label → Lower α} (hf : ∀ l, Gives F (C ∧ F.Target l) (L ++ [l]) (f l) P) :
    Gives F C L (Lower.newLabel >>= f) P := by
  intro b b' a h
  obtain ⟨l, b₁, hl, hfb⟩ := bind_eq_ok h
  cases hl
  have hpush : (b.labels.push none).size = b.labels.size + 1 := Array.size_push _
  have hwithin : b.Within ⟨b.block, b.items, b.labels.push none, b.next⟩ := by
    refine ⟨.refl _, Nat.le_of_lt (hpush ▸ Nat.lt_succ_self _), fun {l} ⟨p, hp, hle⟩ =>
      ⟨p, ?_, hle⟩⟩
    rw [← hp]
    simp only [position?]
    rw [Array.getElem?_push_lt (lt_of_position? hp), Array.getElem?_eq_getElem (lt_of_position? hp)]
  obtain ⟨hwithin', hbound, hf⟩ := hf _ hfb
  have hnew : b'.Bound ⟨b.labels.size⟩ :=
    hbound _ (List.mem_append_right _ List.mem_cons_self) (hpush ▸ Nat.lt_succ_self _)
  refine ⟨hwithin.trans hwithin', fun l hl hlt => ?_, fun hC hF => ?_⟩
  · exact hbound l (List.mem_append_left _ hl) (Nat.lt_of_lt_of_le hlt hwithin.labels)
  · obtain ⟨ha, htidy⟩ := hf ⟨hC, hF.bound hnew⟩ hF
    exact ⟨ha, fun hb => htidy ⟨hb.items, hb.functions⟩⟩

theorem bindLabel (l : Label) : Emits F C [l] (Lower.bind l) := by
  intro b b' u h
  cases h
  have hbound {l' : Label} (hl' : b.Bound l') :
      Bound ⟨b.block, b.items, b.labels.setIfInBounds l.number (some b.items.size), b.next⟩ l' := by
    obtain ⟨p, hp, hle⟩ := hl'
    rw [Bound, position?_bind]
    split
    · exact ⟨_, rfl, Nat.le_refl _⟩
    · exact ⟨p, hp, hle⟩
  refine ⟨⟨.refl _, ?_, hbound⟩, fun l' hl' hlt => ?_, fun _ _ => ⟨trivial, fun hb =>
    ⟨hb.items, hb.functions⟩⟩⟩
  · exact Nat.le_of_eq Array.size_setIfInBounds.symm
  · obtain rfl := List.mem_singleton.mp hl'
    rw [Bound, position?_bind, if_pos ⟨rfl, hlt⟩]
    exact ⟨_, rfl, Nat.le_refl _⟩

/-- The label to be bound first is bound. -/
theorem bindLabel_seq {l : Label} {x : Unit → Lower α} (hx : Gives F C L (x ()) P) :
    Gives F C (l :: L) (Lower.bind l >>= x) P := by
  intro b b' c h
  obtain ⟨_, b₁, hb₁, hxb⟩ := bind_eq_ok h
  obtain ⟨hwithin, hl, hbind⟩ := Gives.bindLabel (F := F) (C := True) l hb₁
  obtain ⟨hwithin', hbound, hx⟩ := hx hxb
  refine ⟨hwithin.trans hwithin', fun l' hl' hlt => ?_, fun hC hF => ?_⟩
  · rcases List.mem_cons.mp hl' with rfl | hl'
    · exact hwithin'.bound (hl _ List.mem_cons_self hlt)
    · exact hbound l' hl' (Nat.lt_of_lt_of_le hlt hwithin.labels)
  · obtain ⟨hc, htidy⟩ := hx hC hF
    exact ⟨hc, fun hb => htidy ((hbind trivial (hwithin'.inside hF)).2 hb)⟩

/-! ### Pools -/

theorem identifier (name : String) :
    Gives F C [] (Lower.identifier name) fun j => j.toNat < F.block.identifiers.size :=
  of_grows fun b b' j h => by
    cases h
    refine ⟨⟨_, _, rfl, b.block.grows_addIdentifier name, ?_⟩, fun _ hF => ?_⟩
    · split <;> rfl
    · have hj := Block.identifier?_addIdentifier (grows_finish hF.block) hF.fits.identifiers_le
      exact (Array.getElem?_eq_some_iff.mp hj).1

theorem constant (c : Constant) :
    Gives F C [] (Lower.constant c) fun j => F.finish.constant? j = some c :=
  of_grows fun b b' j h => by
    cases h
    refine ⟨⟨_, _, rfl, b.block.grows_addConstant c, ?_⟩, fun _ hF => ?_⟩
    · split <;> rfl
    · exact Block.constant?_addConstant (grows_finish hF.block) hF.fits.constants_le

theorem function {f : Block} (hf : C → f.Fits → f.Everywhere Block.Orderly) :
    Gives F C [] (Lower.function f) fun j => j.toNat < F.block.functions.size := by
  intro b b' j h
  cases h
  refine ⟨.of_grows (b.block.grows_addFunction f), fun _ hl => absurd hl List.not_mem_nil,
    fun hC hF => ?_⟩
  have hj := Block.function?_addFunction (grows_finish hF.block) hF.fits.functions_le
  refine ⟨(Array.getElem?_eq_some_iff.mp hj).1, fun hb => ⟨hb.items, fun g hg => ?_⟩⟩
  rcases Array.mem_push.mp (show g ∈ b.block.functions.push f from hg) with hg | rfl
  · exact hb.functions g hg
  · exact hf hC (hF.fits.of_mem (Array.mem_of_getElem? hj))

theorem load {dst : Register} {c : Constant} (h : C → F.Has dst) :
    Emits F C [] (Lower.load dst c) :=
  (constant c).bind fun _ => emit fun hC =>
    ⟨h hC.1, (Array.getElem?_eq_some_iff.mp hC.2).1⟩

theorem loadUnit {dst : Register} (h : C → F.Has dst) : Emits F C [] (Lower.loadUnit dst) := load h

theorem blockName : Gives F C [] Lower.blockName fun _ => True :=
  fun b b' _ h => by
    cases h
    exact ⟨.refl b, fun _ hl => absurd hl List.not_mem_nil, fun _ _ => ⟨trivial, id⟩⟩

/-! ### Registers -/

theorem allocateRange_eq_ok {count : Nat} {b b' : Builder} {r : Register}
    (h : Lower.allocateRange count b = .ok r b') :
    b' = ⟨{ b.block with registerCount := max b.block.registerCount (.ofNat (b.next.toNat + count)) },
      b.items, b.labels, .ofNat (b.next.toNat + count)⟩ := by
  unfold Lower.allocateRange at h
  dsimp only at h
  split at h
  next =>
    cases h
    rfl
  next => cases h

theorem allocateRange (count : Nat) :
    Gives F C [] (Lower.allocateRange count) fun r => F.HasRun r count :=
  of_grows fun b b' r h => by
    obtain ⟨hbefore, hindex, -, hle, hregisters, -⟩ := allocateRange_spec h (.refl b')
    refine ⟨⟨b'.block, b'.next, ?_, hbefore.block, ?_⟩, fun _ hF => ⟨by omega, fun _ => ?_⟩⟩
    · rw [allocateRange_eq_ok h]
    · rw [allocateRange_eq_ok h]
    · have := UInt32.le_iff_toNat_le.mp hF.block.registers
      omega

theorem allocate : Gives F C [] Lower.allocate F.Has := fun b b' r h =>
  have ⟨hwithin, hbound, hx⟩ := allocateRange 1 h
  ⟨hwithin, hbound, fun hC hF => ⟨(hx hC hF).1.2 (by omega) |>.1, (hx hC hF).2⟩⟩

theorem mark {f : UInt16 → Lower α} (hf : ∀ m, Gives F C L (f m) P) :
    Gives F C L (Lower.mark >>= f) P := by
  intro b b' a h
  obtain ⟨m, b₁, hm, hfb⟩ := bind_eq_ok h
  cases hm
  exact hf _ hfb

theorem release (m : UInt16) : Emits F C [] (Lower.release m) :=
  of_grows fun b b' _ h => by
    cases h
    exact ⟨⟨_, _, rfl, .refl _, rfl⟩, fun _ _ => trivial⟩

end Gives

end Lower

end Reified
