import Mathlib.Algebra.Group.Nat.Defs
import Reified.Lowering.Stmt

/-!
# Builders that grow

Emitting code only ever adds to a builder: items, the entries of pools, and the positions of labels
stay as they are. So whatever is known about a builder at some time is still known about the
finished block. Only the labels that exist already, and the registers that are already handed out,
are of any concern to code that is emitted later.

## Main definitions

* `Builder.Before` — what a builder has, a later one has, too
* `Builder.Extends` — the earlier labels and registers are left alone
* `Lower.Safe`, `Lower.Tame` — actions that only extend a builder
* `Block.Fits` — all positions of a block can be operands

## Main results

* `Lower.Safe.bind` — one action after the other
* `Lower.emit_spec`, `Lower.emitJump_spec`, `Lower.bind_spec`, … — what is known in the end
-/

namespace Reified

/-! ## Blocks of 32 bits -/

namespace Block

mutual

/-- The positions of a block and of the blocks nested in it can be operands of instructions: targets
have 31 bits, positions in pools have 32. -/
def fits : Block → Bool
  | ⟨_, code, constants, identifiers, ⟨functions⟩, _, _, _⟩ =>
    code.size < 2 ^ 31 && constants.size ≤ 2 ^ 32 && identifiers.size ≤ 2 ^ 32 &&
      functions.length ≤ 2 ^ 32 && fitsList functions

/-- `fits` for each block of a list. -/
def fitsList : List Block → Bool
  | [] => true
  | B :: Bs => B.fits && fitsList Bs

end

/-- All positions in a block fit into the operands of its instructions. Code generation converts them
without a check. -/
def Fits (B : Block) : Prop := B.fits = true

end Block

namespace Block.Fits

variable {B f : Block}

theorem of_mem_list {Bs : List Block} (h : fitsList Bs = true) (hf : f ∈ Bs) : f.Fits := by
  induction Bs with
  | nil => cases hf
  | cons B Bs ih =>
    rw [fitsList, Bool.and_eq_true] at h
    rcases List.mem_cons.mp hf with rfl | hf
    · exact h.1
    · exact ih h.2 hf

theorem sizes (h : B.Fits) : B.code.size < 2 ^ 31 ∧ B.constants.size ≤ 2 ^ 32 ∧
    B.identifiers.size ≤ 2 ^ 32 ∧ B.functions.size ≤ 2 ^ 32 ∧ ∀ f ∈ B.functions, f.Fits := by
  obtain ⟨name, code, constants, identifiers, ⟨functions⟩, parameters, registers, start⟩ := B
  simp only [Fits, fits, Bool.and_eq_true, decide_eq_true_eq] at h
  obtain ⟨⟨⟨⟨hcode, hconstants⟩, hidentifiers⟩, hfunctions⟩, hnested⟩ := h
  exact ⟨hcode, hconstants, hidentifiers, hfunctions, fun f hf =>
    of_mem_list hnested (Array.mem_toList_iff.mpr hf)⟩

theorem code_lt (h : B.Fits) : B.code.size < 2 ^ 31 := h.sizes.1

theorem constants_le (h : B.Fits) : B.constants.size ≤ 2 ^ 32 := h.sizes.2.1

theorem identifiers_le (h : B.Fits) : B.identifiers.size ≤ 2 ^ 32 := h.sizes.2.2.1

theorem functions_le (h : B.Fits) : B.functions.size ≤ 2 ^ 32 := h.sizes.2.2.2.1

theorem of_mem (h : B.Fits) (hf : f ∈ B.functions) : f.Fits := h.sizes.2.2.2.2 f hf

end Block.Fits

/-! ## Growing -/

/-- The pools and the register file of a block have grown. -/
structure Block.Grows (B B' : Block) : Prop where
  constants : ∀ {i : Nat} {c : Constant}, B.constants[i]? = some c → B'.constants[i]? = some c
  identifiers : ∀ {i : Nat} {x : String}, B.identifiers[i]? = some x → B'.identifiers[i]? = some x
  functions : ∀ {i : Nat} {f : Block}, B.functions[i]? = some f → B'.functions[i]? = some f
  registers : B.registerCount ≤ B'.registerCount

namespace Block

variable {B B₁ B' : Block}

theorem Grows.refl (B : Block) : B.Grows B := ⟨id, id, id, Nat.le_refl _⟩

theorem Grows.trans (h : B.Grows B₁) (h' : B₁.Grows B') : B.Grows B' :=
  ⟨h'.constants ∘ h.constants, h'.identifiers ∘ h.identifiers, h'.functions ∘ h.functions,
    Nat.le_trans h.registers h'.registers⟩

theorem getElem?_push_of_eq_some {γ : Type} {xs : Array γ} {x y : γ} {i : Nat}
    (h : xs[i]? = some y) : (xs.push x)[i]? = some y := by
  have hlt := (Array.getElem?_eq_some_iff.1 h).1
  rw [Array.getElem?_push_lt hlt, ← h, Array.getElem?_eq_getElem hlt]

/-! ## Pools -/

theorem getElem?_idxOf? {γ : Type} [DecidableEq γ] {xs : Array γ} {x : γ} {n : Nat}
    (h : xs.idxOf? x = some n) : xs[n]? = some x := by
  rw [Array.idxOf?_eq_map_finIdxOf?_val, Option.map_eq_some_iff] at h
  obtain ⟨i, hi, rfl⟩ := h
  obtain ⟨hx, -⟩ := Array.finIdxOf?_eq_some_iff.1 hi
  rw [Array.getElem?_eq_getElem i.isLt]
  exact congrArg some hx

/-- A position in a pool with at most 2 ^ 32 entries is an operand. -/
theorem getElem?_ofNat {γ : Type} {xs : Array γ} {x : γ} {n : Nat}
    (hsize : xs.size ≤ 2 ^ 32) (h : xs[n]? = some x) : xs[(UInt32.ofNat n).toNat]? = some x := by
  have hlt := (Array.getElem?_eq_some_iff.1 h).1
  rw [UInt32.toNat_ofNat_of_lt' (by simp only [UInt32.size]; omega), h]

theorem size_le_of_getElem? {γ : Type} {xs ys : Array γ}
    (h : ∀ {i : Nat} {x : γ}, xs[i]? = some x → ys[i]? = some x) : xs.size ≤ ys.size := by
  rcases Nat.lt_or_ge ys.size xs.size with hlt | hle
  · have hx := h (Array.getElem?_eq_getElem hlt)
    rw [Array.getElem?_eq_none (Nat.le_refl _)] at hx
    cases hx
  · exact hle

theorem constant?_addConstant {c : Constant} (h : (B.addConstant c).2.Grows B')
    (hsize : B'.constants.size ≤ 2 ^ 32) : B'.constant? (B.addConstant c).1 = some c := by
  have hle := Nat.le_trans (size_le_of_getElem? h.constants) hsize
  refine h.constants ?_
  rw [addConstant] at hle ⊢
  split at hle
  next hn => exact getElem?_ofNat hle (getElem?_idxOf? hn)
  next => exact getElem?_ofNat hle Array.getElem?_push_size

theorem identifier?_addIdentifier {x : String} (h : (B.addIdentifier x).2.Grows B')
    (hsize : B'.identifiers.size ≤ 2 ^ 32) :
    B'.identifier? (B.addIdentifier x).1 = some x := by
  have hle := Nat.le_trans (size_le_of_getElem? h.identifiers) hsize
  refine h.identifiers ?_
  rw [addIdentifier] at hle ⊢
  split at hle
  next hn => exact getElem?_ofNat hle (getElem?_idxOf? hn)
  next => exact getElem?_ofNat hle Array.getElem?_push_size

theorem function?_addFunction {f : Block} (h : (B.addFunction f).2.Grows B')
    (hsize : B'.functions.size ≤ 2 ^ 32) : B'.function? (B.addFunction f).1 = some f := by
  have hle := Nat.le_trans (size_le_of_getElem? h.functions) hsize
  exact h.functions (getElem?_ofNat hle Array.getElem?_push_size)

theorem grows_addConstant (B : Block) (c : Constant) : B.Grows (B.addConstant c).2 := by
  rw [addConstant]
  split
  · exact .refl B
  · exact ⟨getElem?_push_of_eq_some, id, id, Nat.le_refl _⟩

theorem grows_addIdentifier (B : Block) (x : String) : B.Grows (B.addIdentifier x).2 := by
  rw [addIdentifier]
  split
  · exact .refl B
  · exact ⟨id, getElem?_push_of_eq_some, id, Nat.le_refl _⟩

theorem grows_addFunction (B f : Block) : B.Grows (B.addFunction f).2 :=
  ⟨id, id, getElem?_push_of_eq_some, Nat.le_refl _⟩

/-- The pools of a block leave alone what a call of it looks at. -/
structure SameHead (B B' : Block) : Prop where
  name : B'.name = B.name
  parameterCount : B'.parameterCount = B.parameterCount
  codeStart : B'.codeStart = B.codeStart

theorem SameHead.refl (B : Block) : B.SameHead B := ⟨rfl, rfl, rfl⟩

theorem SameHead.trans (h : B.SameHead B₁) (h' : B₁.SameHead B') : B.SameHead B' :=
  ⟨h'.name.trans h.name, h'.parameterCount.trans h.parameterCount,
    h'.codeStart.trans h.codeStart⟩

theorem sameHead_addConstant (B : Block) (c : Constant) : B.SameHead (B.addConstant c).2 := by
  rw [addConstant]
  split <;> exact ⟨rfl, rfl, rfl⟩

theorem sameHead_addIdentifier (B : Block) (x : String) :
    B.SameHead (B.addIdentifier x).2 := by
  rw [addIdentifier]
  split <;> exact ⟨rfl, rfl, rfl⟩

end Block

namespace Builder

/-- Everything that a builder has is also in a later one. -/
structure Before (b F : Builder) : Prop where
  block : b.block.Grows F.block
  items : ∀ {i : Nat} {x : Item}, b.items[i]? = some x → F.items[i]? = some x
  labels : ∀ {l : Label} {p : Nat}, b.position? l = some p → F.position? l = some p

/-- A later builder in which the labels below `n` are where they were, and the registers below `u`
are still handed out. -/
structure Extends (n u : Nat) (b b' : Builder) : Prop where
  block : b.block.Grows b'.block
  head : b.block.SameHead b'.block
  items : ∀ {i : Nat} {x : Item}, b.items[i]? = some x → b'.items[i]? = some x
  size : b.labels.size ≤ b'.labels.size
  labels : ∀ {l : Label}, l.number < n → b'.position? l = b.position? l
  next : u ≤ b'.next.toNat

/-- The label exists and is not bound yet. -/
structure Unbound (b : Builder) (l : Label) : Prop where
  lt : l.number < b.labels.size
  position : b.position? l = none

variable {b b₁ b' F : Builder} {l l' : Label} {n n' u u' p : Nat}

theorem Before.refl (b : Builder) : b.Before b := ⟨.refl _, id, id⟩

theorem Before.trans (h : b.Before b₁) (h' : b₁.Before b') : b.Before b' :=
  ⟨h.block.trans h'.block, h'.items ∘ h.items, h'.labels ∘ h.labels⟩

theorem lt_of_position? (h : b.position? l = some p) : l.number < b.labels.size := by
  rw [position?, Option.join_eq_some_iff] at h
  exact (Array.getElem?_eq_some_iff.1 h).1

/-- A further label has no position. -/
theorem position?_push (B : Block) (next : UInt16) :
    position? ⟨B, b.items, b.labels.push none, next⟩ l = b.position? l := by
  simp only [position?, Array.getElem?_push]
  split
  next heq => rw [heq, Array.getElem?_eq_none (Nat.le_refl _)]; rfl
  next => rfl

theorem position?_bind (B : Block) (next : UInt16) :
    position? ⟨B, b.items, b.labels.setIfInBounds l.number (some p), next⟩ l' =
      if l.number = l'.number ∧ l.number < b.labels.size then some p else b.position? l' := by
  simp only [position?, Array.getElem?_setIfInBounds]
  grind

namespace Extends

theorem refl (hu : u ≤ b.next.toNat) : Extends n u b b :=
  ⟨.refl _, .refl _, id, Nat.le_refl _, fun _ => rfl, hu⟩

theorem trans (h : Extends n u b b₁) (h' : Extends n u b₁ b') : Extends n u b b' :=
  ⟨h.block.trans h'.block, h.head.trans h'.head, h'.items ∘ h.items, Nat.le_trans h.size h'.size,
    fun hl => (h'.labels hl).trans (h.labels hl), h'.next⟩

theorem before (h : Extends b.labels.size u b b') : b.Before b' :=
  ⟨h.block, h.items, fun hp => (h.labels (lt_of_position? hp)).trans hp⟩

theorem unbound (h : Extends b.labels.size u b b') (hl : b.Unbound l) : b'.Unbound l :=
  ⟨Nat.lt_of_lt_of_le hl.lt h.size, (h.labels hl.lt).trans hl.position⟩

end Extends

/-! ## The finished block -/

/-- The label has a position, which can be the target of a jump. -/
def At (F : Builder) (l : Label) (p : Nat) : Prop :=
  F.position? l = some p ∧ p < 2 ^ 31

theorem Before.size_le (h : b.Before F) : b.items.size ≤ F.items.size :=
  Block.size_le_of_getElem? h.items

/-- The finished block has the pools of the builder. -/
theorem grows_finish {B : Block} (h : B.Grows F.block) : B.Grows F.finish :=
  ⟨h.constants, h.identifiers, h.functions, h.registers⟩

theorem code_finish (F : Builder) (i : Nat) :
    F.finish.code[i]? = (F.items[i]?).map F.resolve := by
  simp only [finish, Array.getElem?_map]

theorem size_code_finish (F : Builder) : F.finish.code.size = F.items.size := by
  simp only [finish, Array.size_map]

theorem Before.code_of_item {i : Nat} {x : Instr} (h : b.Before F) (hx : b.items[i]? = some ⟨x, none⟩) :
    F.finish.code[i]? = some x := by
  rw [code_finish, h.items hx]
  rfl

theorem Before.code_of_jump {i : Nat} {x : Instr} (h : b.Before F) (hx : b.items[i]? = some ⟨x, some l⟩)
    (hl : F.At l p) : ∃ t : Int32, t.toInt = p ∧ F.finish.code[i]? = some (x.withTarget t) := by
  refine ⟨.ofNat p, Int32.toInt_ofNat_of_lt hl.2, ?_⟩
  rw [code_finish, h.items hx]
  simp only [Option.map_some, resolve, Option.bind_some, hl.1]

end Builder

/-! ## Actions that extend a builder -/

namespace Lower

open Builder

variable {α β : Type} {n n' u u' : Nat} {b b₁ b' F : Builder}

theorem bind_eq_ok {x : Lower α} {f : α → Lower β} {c : β} (h : (x >>= f) b = .ok c b') :
    ∃ a b₁, x b = .ok a b₁ ∧ f a b₁ = .ok c b' := by
  change EStateM.bind x f b = _ at h
  unfold EStateM.bind at h
  split at h
  next a b₁ hx => exact ⟨a, b₁, hx, h⟩
  next => cases h

theorem pure_eq_ok {a c : α} (h : (pure a : Lower α) b = .ok c b') : a = c ∧ b = b' := by
  cases h
  exact ⟨rfl, rfl⟩

/-- The action leaves alone the labels below `n` and the registers below `u`. -/
def Safe (n u : Nat) (x : Lower α) : Prop :=
  ∀ ⦃b b' : Builder⦄ ⦃a : α⦄, n ≤ b.labels.size → u ≤ b.next.toNat → x b = .ok a b' →
    b.Extends n u b'

/-- The action leaves alone all labels and registers that there are. -/
def Tame (x : Lower α) : Prop :=
  ∀ n u : Nat, Safe n u x

theorem Tame.extends {x : Lower α} {a : α} (hx : Tame x) (h : x b = .ok a b') :
    b.Extends b.labels.size b.next.toNat b' :=
  hx _ _ (Nat.le_refl _) (Nat.le_refl _) h

theorem Tame.before {x : Lower α} {a : α} (hx : Tame x) (h : x b = .ok a b') (hF : b'.Before F) :
    b.Before F :=
  (hx.extends h).before.trans hF

theorem Tame.next_le {x : Lower α} {a : α} (hx : Tame x) (h : x b = .ok a b') :
    b.next.toNat ≤ b'.next.toNat :=
  (hx.extends h).next

theorem Tame.items_le {x : Lower α} {a : α} (hx : Tame x) (h : x b = .ok a b') : b.items.size ≤ b'.items.size :=
  (hx.extends h).before.size_le

namespace Safe

theorem pure (a : α) : Safe n u (Pure.pure a : Lower α) := by
  intro b b' c _ hu h
  obtain ⟨_, rfl⟩ := pure_eq_ok h
  exact .refl hu

/-- **One action after the other.** -/
theorem bind {x : Lower α} {f : α → Lower β} (hx : Safe n u x) (hf : ∀ a, Safe n u (f a)) :
    Safe n u (x >>= f) := by
  intro b b' c hn hu h
  obtain ⟨a, b₁, hxb, hfb⟩ := bind_eq_ok h
  have h₁ := hx hn hu hxb
  exact h₁.trans (hf a (Nat.le_trans hn h₁.size) h₁.next hfb)

theorem throw (e : LowerError) : Safe n u (throw e : Lower α) := by
  intro b b' c _ _ h
  cases h

theorem emitItem (x : Item) : Safe n u (Lower.emitItem x) := by
  intro b b' c _ hu h
  cases h
  refine ⟨.refl _, .refl _, fun hx => ?_, Nat.le_refl _, fun _ => rfl, hu⟩
  have hlt := (Array.getElem?_eq_some_iff.1 hx).1
  show (b.items.push x)[_]? = _
  rw [Array.getElem?_push_lt hlt, ← hx, Array.getElem?_eq_getElem hlt]

theorem emit (i : Instr) : Safe n u (Lower.emit i) := emitItem _

theorem emitJump (i : Instr) (l : Label) : Safe n u (Lower.emitJump i l) := emitItem _

theorem jump (l : Label) : Safe n u (Lower.jump l) := emitItem _

theorem jumpIfFalse (r : Register) (l : Label) : Safe n u (Lower.jumpIfFalse r l) := emitItem _

theorem constant (c : Constant) : Safe n u (Lower.constant c) := by
  intro b b' i _ hu h
  cases h
  exact ⟨b.block.grows_addConstant c, b.block.sameHead_addConstant c, id, Nat.le_refl _,
    fun _ => rfl, hu⟩

theorem identifier (name : String) : Safe n u (Lower.identifier name) := by
  intro b b' i _ hu h
  cases h
  exact ⟨b.block.grows_addIdentifier name, b.block.sameHead_addIdentifier name, id,
    Nat.le_refl _, fun _ => rfl, hu⟩

theorem function (f : Block) : Safe n u (Lower.function f) := by
  intro b b' i _ hu h
  cases h
  exact ⟨b.block.grows_addFunction f, ⟨rfl, rfl, rfl⟩, id, Nat.le_refl _, fun _ => rfl, hu⟩

theorem load (dst : Register) (c : Constant) : Safe n u (Lower.load dst c) :=
  (constant c).bind fun _ => emit _

theorem loadUnit (dst : Register) : Safe n u (Lower.loadUnit dst) := load dst .unit

theorem blockName : Safe n u Lower.blockName := by
  intro b b' c _ hu h
  cases h
  exact .refl hu

theorem position : Safe n u Lower.position := by
  intro b b' c _ hu h
  cases h
  exact .refl hu

theorem allocateRange (count : Nat) : Safe n u (Lower.allocateRange count) := by
  intro b b' r _ hu h
  unfold Lower.allocateRange at h
  dsimp only at h
  split at h
  next hle =>
    cases h
    have hstop : (UInt16.ofNat (b.next.toNat + count)).toNat = b.next.toNat + count :=
      UInt16.toNat_ofNat_of_lt' (by simp only [UInt16.size]; omega)
    refine ⟨⟨id, id, id, ?_⟩, ⟨rfl, rfl, rfl⟩, id, Nat.le_refl _, fun _ => rfl, ?_⟩
    · show _ ≤ if _ then _ else _
      split
      next hle => exact hle
      next => exact Nat.le_refl _
    · show u ≤ (UInt16.ofNat _).toNat
      omega
  next => cases h

theorem allocate : Safe n u Lower.allocate := allocateRange 1

/-- A new label is none of the earlier ones. -/
theorem newLabel {f : Label → Lower α} (hf : ∀ l : Label, n ≤ l.number → Safe n u (f l)) :
    Safe n u (Lower.newLabel >>= f) := by
  intro b b' c hn hu h
  obtain ⟨l, b₁, hl, hfb⟩ := bind_eq_ok h
  cases hl
  have hsize : b.labels.size ≤ (b.labels.push none).size := by
    rw [Array.size_push]
    omega
  have hpush : Extends n u b ⟨b.block, b.items, b.labels.push none, b.next⟩ := by
    refine ⟨.refl _, .refl _, id, hsize, fun hl => ?_, hu⟩
    simp only [position?]
    rw [Array.getElem?_push_lt (Nat.lt_of_lt_of_le hl hn),
      Array.getElem?_eq_getElem (Nat.lt_of_lt_of_le hl hn)]
  exact hpush.trans (hf _ hn (Nat.le_trans hn hsize) hu hfb)

theorem bindLabel {l : Label} (hl : n ≤ l.number) : Safe n u (Lower.bind l) := by
  intro b b' c _ hu h
  cases h
  refine ⟨.refl _, .refl _, id, ?_, fun hl' => ?_, hu⟩
  · show _ ≤ (b.labels.setIfInBounds _ _).size
    exact Nat.le_of_eq Array.size_setIfInBounds.symm
  · simp only [position?]
    rw [Array.getElem?_setIfInBounds_ne (by omega)]

/-- The registers handed out since a mark are given back. -/
theorem mark {f : UInt16 → Lower α} (hf : ∀ m : UInt16, u ≤ m.toNat → Safe n u (f m)) :
    Safe n u (Lower.mark >>= f) := by
  intro b b' c hn hu h
  obtain ⟨m, b₁, hm, hfb⟩ := bind_eq_ok h
  cases hm
  exact hf _ hu hn hu hfb

theorem release {m : UInt16} (hm : u ≤ m.toNat) : Safe n u (Lower.release m) := by
  intro b b' c _ _ h
  cases h
  exact ⟨.refl _, .refl _, id, Nat.le_refl _, fun _ => rfl, hm⟩

theorem ite {c : Prop} [Decidable c] {x y : Lower α} (hx : Safe n u x) (hy : Safe n u y) :
    Safe n u (if c then x else y) := by
  split
  · exact hx
  · exact hy

end Safe

/-! ## What is known in the end -/

variable {a : Unit} {i : Instr} {j : UInt32} {l : Label} {p : Nat} {dst r : Register}
  {m : UInt16} {c : Constant} {name : String} {f : Block}

theorem emit_spec (h : emit i b = .ok a b') (hF : b'.Before F) :
    b.Before F ∧ F.finish.code[b.items.size]? = some i ∧ b'.items.size = b.items.size + 1 ∧
      b'.next.toNat = b.next.toNat := by
  have hb := Tame.before (fun _ _ => Safe.emit i) h hF
  cases h
  exact ⟨hb, hF.code_of_item Array.getElem?_push_size, Array.size_push _, rfl⟩

theorem emitJump_spec (h : emitJump i l b = .ok a b') (hF : b'.Before F) (hl : F.At l p) :
    b.Before F ∧
      (∃ t : Int32, t.toInt = p ∧ F.finish.code[b.items.size]? = some (i.withTarget t)) ∧
      b'.items.size = b.items.size + 1 ∧ b'.next.toNat = b.next.toNat := by
  have hb := Tame.before (fun _ _ => Safe.emitJump i l) h hF
  cases h
  exact ⟨hb, hF.code_of_jump Array.getElem?_push_size hl, Array.size_push _, rfl⟩

theorem jump_spec (h : jump l b = .ok a b') (hF : b'.Before F) (hl : F.At l p) :
    b.Before F ∧ (∃ t : Int32, t.toInt = p ∧ F.finish.code[b.items.size]? = some (.jump t)) ∧
      b'.items.size = b.items.size + 1 ∧ b'.next.toNat = b.next.toNat :=
  emitJump_spec h hF hl

theorem jumpIfFalse_spec (h : jumpIfFalse r l b = .ok a b') (hF : b'.Before F) (hl : F.At l p) :
    b.Before F ∧
      (∃ t : Int32, t.toInt = p ∧ F.finish.code[b.items.size]? = some (.jumpIfFalse r t)) ∧
      b'.items.size = b.items.size + 1 ∧ b'.next.toNat = b.next.toNat :=
  emitJump_spec h hF hl

theorem newLabel_unbound (h : newLabel b = .ok l b') :
    b'.Unbound l ∧ l.number = b.labels.size := by
  cases h
  refine ⟨⟨?_, ?_⟩, rfl⟩
  · show b.labels.size < (b.labels.push none).size
    rw [Array.size_push]
    exact Nat.lt_succ_self _
  · simp only [position?, Array.getElem?_push_size, Option.join_some]

theorem newLabel_extends (h : newLabel b = .ok l b') :
    b.Extends b.labels.size b.next.toNat b' := by
  have hx : Tame (newLabel >>= Pure.pure) := fun _ _ => Safe.newLabel fun _ _ => Safe.pure _
  rw [bind_pure] at hx
  exact hx.extends h

theorem newLabel_spec (h : newLabel b = .ok l b') (hF : b'.Before F) :
    b.Before F ∧ b'.items = b.items ∧ b'.next.toNat = b.next.toNat := by
  have hb := (newLabel_extends h).before.trans hF
  cases h
  exact ⟨hb, rfl, rfl⟩

theorem bind_spec (h : Lower.bind l b = .ok a b') (hl : b.Unbound l) (hF : b'.Before F)
    (hfits : F.finish.Fits) :
    b.Before F ∧ F.At l b.items.size ∧ b'.items = b.items ∧ b'.next.toNat = b.next.toNat := by
  cases h
  refine ⟨⟨hF.block, hF.items, fun {l' p} hp => hF.labels ?_⟩, ⟨hF.labels ?_, ?_⟩, rfl, rfl⟩
  · rw [position?_bind, if_neg ?_]
    · exact hp
    · rintro ⟨heq, -⟩
      have : l = l' := by
        cases l
        cases l'
        exact congrArg _ heq
      rw [← this, hl.position] at hp
      cases hp
  · rw [position?_bind, if_pos ⟨rfl, hl.lt⟩]
  · have hle := hF.size_le
    have hlt := hfits.code_lt
    rw [size_code_finish] at hlt
    exact Nat.lt_of_le_of_lt hle hlt

/-- Binding a label does not bind another one. -/
theorem bind_unbound {l' : Label} (h : Lower.bind l b = .ok a b') (hl : b.Unbound l')
    (hne : l.number ≠ l'.number) : b'.Unbound l' := by
  cases h
  refine ⟨?_, ?_⟩
  · show _ < (b.labels.setIfInBounds _ _).size
    rw [Array.size_setIfInBounds]
    exact hl.lt
  · simp only [position?]
    rw [Array.getElem?_setIfInBounds_ne hne]
    exact hl.position

theorem allocateRange_spec {count : Nat} (h : allocateRange count b = .ok r b')
    (hF : b'.Before F) :
    b.Before F ∧ r.index = b.next.toNat ∧ b'.next.toNat = b.next.toNat + count ∧
      b.next.toNat + count ≤ 65535 ∧ b.next.toNat + count ≤ F.block.registerCount.toNat ∧
      b'.items = b.items := by
  have hb := Tame.before (fun _ _ => Safe.allocateRange count) h hF
  have hregisters := UInt32.le_iff_toNat_le.1 hF.block.registers
  unfold allocateRange at h
  dsimp only at h
  split at h
  next hle =>
    cases h
    have hstop : (UInt16.ofNat (b.next.toNat + count)).toNat = b.next.toNat + count :=
      UInt16.toNat_ofNat_of_lt' (by simp only [UInt16.size]; omega)
    have hstop' : (UInt32.ofNat (b.next.toNat + count)).toNat = b.next.toNat + count :=
      UInt32.toNat_ofNat_of_lt' (by simp only [UInt32.size]; omega)
    have hmax : (UInt32.ofNat (b.next.toNat + count)).toNat ≤
        (max b.block.registerCount (.ofNat (b.next.toNat + count)) : UInt32).toNat := by
      show _ ≤ (if _ then _ else _ : UInt32).toNat
      split
      next => exact Nat.le_refl _
      next hlt =>
        rw [UInt32.le_iff_toNat_le] at hlt
        omega
    refine ⟨hb, rfl, hstop, hle, ?_, rfl⟩
    rw [← hstop']
    exact Nat.le_trans hmax hregisters
  next => cases h

theorem allocate_spec (h : allocate b = .ok r b') (hF : b'.Before F) :
    b.Before F ∧ r.index = b.next.toNat ∧ b'.next.toNat = b.next.toNat + 1 ∧
      b.next.toNat + 1 ≤ 65535 ∧ b.next.toNat < F.block.registerCount.toNat ∧
      b'.items = b.items :=
  allocateRange_spec h hF

theorem mark_spec (h : mark b = .ok m b') : b' = b ∧ m = b.next := by
  cases h
  exact ⟨rfl, rfl⟩

theorem release_spec (h : release m b = .ok a b') (hF : b'.Before F) :
    b.Before F ∧ b'.items = b.items ∧ b'.next = m := by
  cases h
  exact ⟨⟨hF.block, hF.items, hF.labels⟩, rfl, rfl⟩

theorem constant_spec (h : constant c b = .ok j b') (hF : b'.Before F) (hfits : F.finish.Fits) :
    b.Before F ∧ F.finish.constant? j = some c ∧ b'.items = b.items ∧ b'.next.toNat = b.next.toNat := by
  have hb := Tame.before (fun _ _ => Safe.constant c) h hF
  cases h
  have hpool : (b.block.addConstant c).2.Grows F.finish := grows_finish hF.block
  exact ⟨hb, Block.constant?_addConstant hpool hfits.constants_le, rfl, rfl⟩

theorem identifier_spec (h : identifier name b = .ok j b') (hF : b'.Before F)
    (hfits : F.finish.Fits) :
    b.Before F ∧ F.finish.identifier? j = some name ∧ b'.items = b.items ∧ b'.next.toNat = b.next.toNat := by
  have hb := Tame.before (fun _ _ => Safe.identifier name) h hF
  cases h
  have hpool : (b.block.addIdentifier name).2.Grows F.finish := grows_finish hF.block
  exact ⟨hb, Block.identifier?_addIdentifier hpool hfits.identifiers_le, rfl, rfl⟩

theorem function_spec (h : function f b = .ok j b') (hF : b'.Before F) (hfits : F.finish.Fits) :
    b.Before F ∧ F.finish.function? j = some f ∧ b'.items = b.items ∧ b'.next.toNat = b.next.toNat := by
  have hb := Tame.before (fun _ _ => Safe.function f) h hF
  cases h
  have hpool : (b.block.addFunction f).2.Grows F.finish := grows_finish hF.block
  exact ⟨hb, Block.function?_addFunction hpool hfits.functions_le, rfl, rfl⟩

theorem load_spec (h : load dst c b = .ok a b') (hF : b'.Before F) (hfits : F.finish.Fits) :
    b.Before F ∧
      (∃ j, F.finish.constant? j = some c ∧
        F.finish.code[b.items.size]? = some (.loadConstant dst j)) ∧
      b'.items.size = b.items.size + 1 ∧ b'.next.toNat = b.next.toNat := by
  obtain ⟨j, b₁, hj, h⟩ := bind_eq_ok h
  obtain ⟨hb₁, hcode, hsize, hnext⟩ := emit_spec h hF
  obtain ⟨hb, hc, hitems, hnext'⟩ := constant_spec hj hb₁ hfits
  rw [hitems] at hcode hsize
  exact ⟨hb, ⟨j, hc, hcode⟩, hsize, hnext.trans hnext'⟩

/-! ### Functions among declarations -/

theorem functions_letDecl (p : Place) (d : LetDecl) (ds : List Decl) :
    functions p (.letDecl d :: ds) = functions p ds := by
  rw [functions]
  rintro _ _ ⟨⟩

theorem functions_stmt (p : Place) (s : Stmt) (ds : List Decl) : functions p (.stmt s :: ds) = functions p ds := by
  rw [functions]
  rintro _ _ ⟨⟩

end Lower

end Reified
