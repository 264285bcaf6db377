import Mathlib.Order.Nat
import Reified.Proofs.Scopes.Depths

/-!
# Cells under construction

An array, a tuple or an object that is written in a program is created first and filled afterwards, part by
part, and between two parts any code may be executed. Until the cell is complete, the register that holds it is
used for nothing but to fill it: all other registers that the code names come after it.

So there is a list of registers with cells under construction for every position of a block, and one for every
label while code is emitted. At the end of an expression its own cells are complete; so the code for statements
and calls never has any.

## Main definitions

* `Instr.registers`, `Instr.Fills` — the registers under construction before and behind an instruction
* `Block.Fills` — the positions of a block have registers under construction
* `Builder.Filled`, `Lower.Fills` — and so has what has been emitted

## Main results

* `Lower.fills_expr`, `Lower.fills_stmt`
* `Program.fills_of_lower` — **generated code** fills cells before anything else is done with them
-/

namespace Reified

/-! ## Instructions and blocks -/

/-- The register that an operand names. -/
def Operand.register? : Operand → Option Register
  | ⟨.register, r⟩ => some r
  | _ => none

namespace Instr

/-- The registers that an instruction names. -/
def registers (i : Instr) : List Register := i.operands.filterMap Operand.register?

/-- The instruction creates cells that can be filled, or fills one. -/
def Builds : Instr → Prop
  | .newArray .. | .newTuple .. | .newObject .. | .setArrayIndex .. | .setTupleIndex .. | .setField ..
  | .newValue .. => True
  | _ => False

end Instr

/-- The register comes after all those of a list. -/
def Register.Above (S : List Nat) (r : Register) : Prop := ∀ s ∈ S, s < r.index

theorem Register.above_nil (r : Register) : r.Above [] := List.forall_mem_nil _

/-- The registers of the first list hold cells under construction before the instruction, those of the second
one behind it. The zero value of a type is complete at once, but no code asks for it. -/
inductive Instr.Fills : Instr → List Nat → List Nat → Prop
  | newArray {dst : Register} {n : UInt32} {S : List Nat} (h : dst.Above S) :
      Fills (.newArray dst n) S (dst.index :: S)
  | newTuple {dst : Register} {n : UInt32} {S : List Nat} (h : dst.Above S) :
      Fills (.newTuple dst n) S (dst.index :: S)
  | newObject {dst : Register} {n : UInt32} {S : List Nat} (h : dst.Above S) :
      Fills (.newObject dst n) S (dst.index :: S)
  | setArrayIndex {array value : Register} {i : UInt32} {S : List Nat} (h : array.index ∈ S)
      (hv : value.Above S) : Fills (.setArrayIndex array i value) S S
  | setTupleIndex {tuple value : Register} {i : UInt32} {S : List Nat} (h : tuple.index ∈ S)
      (hv : value.Above S) : Fills (.setTupleIndex tuple i value) S S
  | setField {object value : Register} {f : UInt32} {S : List Nat} (h : object.index ∈ S)
      (hv : value.Above S) : Fills (.setField object f value) S S
  | other {i : Instr} {S : List Nat} (hi : ¬i.Builds) (h : ∀ r ∈ i.registers, r.Above S) : Fills i S S

namespace Block

/-- The positions of a block have registers with cells under construction: none where its code starts, nor where
its signature is evaluated, and each instruction leads only to positions with some of those that it leaves
behind. -/
structure Fills (B : Block) (pending : Nat → List Nat) : Prop where
  signature : pending 0 = []
  code : pending B.codeStart.toNat = []
  step : ∀ {p : Nat} {i : Instr}, B.code[p]? = some i →
    ∃ S, i.Fills (pending p) S ∧ ∀ q, i.Leads p q → pending q ⊆ S

/-- The block fills its cells before anything else is done with them. -/
def IsFilling (B : Block) : Prop := ∃ pending, B.Fills pending

end Block

/-! ## Surveys -/

/-- The registers with cells under construction at positions and labels. -/
structure Pending where
  position : Nat → List Nat
  label : Label → List Nat

/-- An item at a position leads to positions and labels with some of the registers that it leaves behind. -/
def Item.Filled (σ : Pending) (p : Nat) (x : Item) : Prop :=
  ∃ S, x.instr.Fills (σ.position p) S ∧ (¬x.instr.Ends → σ.position (p + 1) ⊆ S) ∧
    match x.label with
    | some l => x.instr.Jumps ∧ σ.label l ⊆ S
    | none => x.instr.target? = none

/-- Only the target of a jump matters for where it leads. -/
theorem Instr.Jumps.fills_withTarget {i : Instr} {S S' : List Nat} {t : Int32} (hi : i.Jumps)
    (h : i.Fills S S') : (i.withTarget t).Fills S S' := by
  cases hi <;> cases h with
  | other hbuilds h => exact .other hbuilds h

namespace Builder

/-- What has been emitted leads from registers under construction to others. -/
structure Filled (b : Builder) (σ : Pending) : Prop where
  items : ∀ {p : Nat} {x : Item}, b.items[p]? = some x → x.Filled σ p
  known : ∀ x ∈ b.items, ∀ l, x.label = some l → l.number < b.labels.size
  labels : ∀ {l : Label} {p : Nat}, b.position? l = some p →
    p ≤ b.items.size ∧ σ.position p ⊆ σ.label l
  functions : ∀ f ∈ b.block.functions, f.Fits → f.Everywhere Block.IsFilling

/-- A later builder, with no more registers under construction where there are positions before. -/
structure Proceeds (b : Builder) (σ : Pending) (b' : Builder) (σ' : Pending) : Prop where
  items : b.items.size ≤ b'.items.size
  labels : b.labels.size ≤ b'.labels.size
  position : ∀ p ≤ b.items.size, σ'.position p ⊆ σ.position p
  label : ∀ l : Label, l.number < b.labels.size → σ'.label l = σ.label l

/-- The labels are there, with these registers under construction. -/
def Expects (b : Builder) (σ : Pending) (L : List (Label × List Nat)) : Prop :=
  ∀ e ∈ L, e.1.number < b.labels.size ∧ σ.label e.1 = e.2

variable {b b₁ b' : Builder} {σ σ₁ σ' : Pending} {L : List (Label × List Nat)}

theorem Proceeds.refl (b : Builder) (σ : Pending) : b.Proceeds σ b σ :=
  ⟨Nat.le_refl _, Nat.le_refl _, fun _ _ => List.Subset.refl _, fun _ _ => rfl⟩

theorem Proceeds.trans (h : b.Proceeds σ b₁ σ₁) (h' : b₁.Proceeds σ₁ b' σ') : b.Proceeds σ b' σ' :=
  ⟨h.items.trans h'.items, h.labels.trans h'.labels,
    fun p hp => List.Subset.trans (h'.position p (hp.trans h.items)) (h.position p hp),
    fun l hl => (h'.label l (hl.trans_le h.labels)).trans (h.label l hl)⟩

theorem Expects.mono (h : b.Expects σ L) (hp : b.Proceeds σ b' σ') : b'.Expects σ' L := fun e he =>
  have ⟨hlt, hlabel⟩ := h e he
  ⟨hlt.trans_le hp.labels, (hp.label e.1 hlt).trans hlabel⟩

theorem expects_nil (b : Builder) (σ : Pending) : b.Expects σ [] := fun _ he => absurd he List.not_mem_nil

theorem filled_new (name : String) (count : UInt32) (σ : Pending) : (new name count).Filled σ := by
  refine ⟨fun h => ?_, fun x hx => absurd hx (Array.not_mem_empty x), fun {l p} h => ?_,
    fun f hf => absurd hf (Array.not_mem_empty f)⟩
  · simp [new] at h
  · simp [new, position?] at h

/-- **The finished block fills its cells** if none is under construction where it is entered. -/
theorem Filled.finish (h : b.Filled σ) (hfits : b.finish.Fits) (hsignature : σ.position 0 = [])
    (hcode : σ.position b.block.codeStart.toNat = []) : b.finish.Everywhere Block.IsFilling := by
  refine .intro ⟨σ.position, hsignature, hcode, fun {p i} hi => ?_⟩ fun f hf =>
    h.functions f hf (hfits.of_mem hf)
  rw [code_finish, Option.map_eq_some_iff] at hi
  obtain ⟨⟨i, label⟩, hx, rfl⟩ := hi
  obtain ⟨S, hS, hnext, hlabel⟩ := h.items hx
  have hlabels {l : Label} {p : Nat} := @Filled.labels b σ h l p
  have hsize := hfits.code_lt
  rw [size_code_finish] at hsize
  cases label with
  | none =>
    refine ⟨S, hS, fun q hq => ?_⟩
    cases hq with
    | next hends => exact hnext hends
    | target ht => exact absurd (hlabel.symm.trans ht) nofun
  | some l =>
    obtain ⟨hjumps, hl⟩ := hlabel
    cases hp : b.position? l with
    | none =>
      -- As long as the label has no position, the jump has no target.
      have hresolve : b.resolve ⟨i, some l⟩ = i := by simp only [resolve, Option.bind_some, hp]
      rw [hresolve]
      refine ⟨S, hS, fun q hq => ?_⟩
      cases hq with
      | next hends => exact hnext hends
      | target ht hnonneg => cases hjumps <;> cases ht <;> exact absurd hnonneg (by decide)
    | some q =>
      obtain ⟨hq, hat⟩ := hlabels hp
      have hresolve : b.resolve ⟨i, some l⟩ = i.withTarget (.ofNat q) := by
        simp only [resolve, Option.bind_some, hp]
      have hto : (Int32.ofNat q).toInt = q := Int32.toInt_ofNat_of_lt (by omega)
      rw [hresolve]
      refine ⟨S, hjumps.fills_withTarget hS, fun q' hq' => ?_⟩
      cases hq' with
      | next hends => exact hnext (by cases hjumps <;> exact hends)
      | @target t ht hnonneg =>
        obtain rfl : t = .ofNat q := by cases hjumps <;> cases ht <;> rfl
        rw [hto, Int.toNat_natCast]
        exact List.Subset.trans hat hl

end Builder

/-! ## Actions -/

namespace Lower

open Builder

variable {α β : Type} {n n' : Nat} {S S₁ S' : List Nat} {L L' : List (Label × List Nat)} {x : Lower α}
  {r r' r'' dst : Register} {i : Instr}

/-- What the action emits leads from registers under construction to others, and jumps to labels with theirs.
Registers from `n` on are free before and behind it. -/
def Fills (n : Nat) (S S' : List Nat) (L : List (Label × List Nat)) {α : Type} (x : Lower α) : Prop :=
  ∀ (b b' : Builder) (a : α) (σ : Pending), x b = .ok a b' → b.Filled σ →
    σ.position b.items.size = S → b.Expects σ L → n ≤ b.next.toNat →
    ∃ σ', b'.Filled σ' ∧ σ'.position b'.items.size = S' ∧ b.Proceeds σ b' σ' ∧ n ≤ b'.next.toNat

namespace Fills

theorem pure (a : α) : Fills n S S L (Pure.pure a : Lower α) := by
  intro b b' c σ h hb hS _ hn
  obtain ⟨_, rfl⟩ := pure_eq_ok h
  exact ⟨σ, hb, hS, .refl b σ, hn⟩

/-- **One action after the other.** -/
theorem bind {g : α → Lower β} (hx : Fills n S S₁ L x) (hg : ∀ a, Fills n S₁ S' L (g a)) :
    Fills n S S' L (x >>= g) := by
  intro b b' c σ h hb hS hL hn
  obtain ⟨a, b₁, hxb, hgb⟩ := bind_eq_ok h
  obtain ⟨σ₁, hb₁, hS₁, hp₁, hn₁⟩ := hx _ _ _ _ hxb hb hS hL hn
  obtain ⟨σ', hb', hS', hp', hn'⟩ := hg a _ _ _ _ hgb hb₁ hS₁ (hL.mono hp₁) hn₁
  exact ⟨σ', hb', hS', hp₁.trans hp', hn'⟩

theorem seq {x : Lower Unit} {g : Unit → Lower β} (hx : Fills n S S₁ L x) (hg : Fills n S₁ S' L (g ())) :
    Fills n S S' L (x >>= g) :=
  hx.bind fun _ => hg

theorem weaken (hx : Fills n S S' L x) (h : ∀ e ∈ L, e ∈ L') : Fills n S S' L' x :=
  fun _ _ _ _ hxb hb hS hL => hx _ _ _ _ hxb hb hS fun e he => hL e (h e he)

theorem throw (err : LowerError) : Fills n S S' L (throw err : Lower α) := by
  intro b b' c σ h
  cases h

theorem ite {c : Prop} [Decidable c] {x y : Lower α} (hx : c → Fills n S S' L x)
    (hy : ¬c → Fills n S S' L y) : Fills n S S' L (if c then x else y) := by
  split
  next hc => exact hx hc
  next hc => exact hy hc

/-- **Some cells are complete.** Nothing has been emitted yet for the position that comes next. -/
theorem complete (hx : Fills n S S₁ L x) (hS : S' ⊆ S₁) : Fills n S S' L x := by
  intro b b' a σ h hb hS₀ hL hn
  obtain ⟨σ₁, hb₁, hS₁, hp, hn'⟩ := hx _ _ _ _ h hb hS₀ hL hn
  let size := b'.items.size
  let σ' : Pending := ⟨fun p => if p = size then S' else σ₁.position p, σ₁.label⟩
  have hlast : σ'.position size = S' := if_pos rfl
  have hold {p : Nat} (hp : p ≠ size) : σ'.position p = σ₁.position p := if_neg hp
  have hsub (p : Nat) : σ'.position p ⊆ σ₁.position p := by
    by_cases hp : p = size
    · rw [hp, hlast, hS₁]
      exact hS
    · rw [hold hp]
      exact List.Subset.refl _
  refine ⟨σ', ⟨fun {p y} hy => ?_, hb₁.known, fun {l p} hl => ?_, hb₁.functions⟩, hlast,
    hp.trans ⟨Nat.le_refl _, Nat.le_refl _, fun p _ => hsub p, fun _ _ => rfl⟩, hn'⟩
  · obtain ⟨T, hT, hnext, hlabel⟩ := hb₁.items hy
    have hlt : p < size := (Array.getElem?_eq_some_iff.mp hy).1
    exact ⟨T, by rwa [hold hlt.ne], fun hends => List.Subset.trans (hsub _) (hnext hends), hlabel⟩
  · obtain ⟨hle, hl⟩ := hb₁.labels hl
    exact ⟨hle, List.Subset.trans (hsub p) hl⟩

/-! ### Pools and registers -/

/-- A change of the pools and the register file only. -/
theorem of_eq (h : ∀ b a b', x b = .ok a b' → ∃ B next, b' = ⟨B, b.items, b.labels, next⟩ ∧
    (n ≤ b.next.toNat → n ≤ next.toNat) ∧
    ∀ f ∈ B.functions, f ∈ b.block.functions ∨ (f.Fits → f.Everywhere Block.IsFilling)) :
    Fills n S S L x := by
  intro b b' a σ hx hb hS _ hn
  obtain ⟨B, next, rfl, hnext, hB⟩ := h b a b' hx
  have hfunctions (f : Block) (hf : f ∈ B.functions) (hfits : f.Fits) : f.Everywhere Block.IsFilling :=
    (hB f hf).elim (fun hf => hb.functions f hf hfits) fun h => h hfits
  exact ⟨σ, ⟨hb.items, hb.known, hb.labels, hfunctions⟩, hS, ⟨Nat.le_refl _, Nat.le_refl _,
    fun _ _ => List.Subset.refl _, fun _ _ => rfl⟩, hnext hn⟩

theorem identifier (name : String) : Fills n S S L (Lower.identifier name) :=
  of_eq fun b a b' h => by
    cases h
    refine ⟨(b.block.addIdentifier _).2, b.next, rfl, id, fun f hf => .inl ?_⟩
    rw [Block.addIdentifier] at hf
    split at hf <;> exact hf

theorem constant (c : Constant) : Fills n S S L (Lower.constant c) :=
  of_eq fun b a b' h => by
    cases h
    refine ⟨(b.block.addConstant _).2, b.next, rfl, id, fun f hf => .inl ?_⟩
    rw [Block.addConstant] at hf
    split at hf <;> exact hf

theorem function {f : Block} (hf : f.Fits → f.Everywhere Block.IsFilling) :
    Fills n S S L (Lower.function f) :=
  of_eq fun b a b' h => by
    cases h
    refine ⟨_, _, rfl, id, fun g hg => ?_⟩
    rcases Array.mem_push.mp hg with hg | rfl
    · exact .inl hg
    · exact .inr hf

theorem blockName : Fills n S S L Lower.blockName :=
  of_eq fun b a b' h => by
    cases h
    exact ⟨_, _, rfl, id, fun f hf => .inl hf⟩

theorem release {m : UInt16} (hm : n ≤ m.toNat) : Fills n S S L (Lower.release m) :=
  of_eq fun b a b' h => by
    cases h
    exact ⟨_, _, rfl, fun _ => hm, fun f hf => .inl hf⟩

theorem mark {g : UInt16 → Lower α} (hg : ∀ m : UInt16, n ≤ m.toNat → Fills n S S' L (g m)) :
    Fills n S S' L (Lower.mark >>= g) := by
  intro b b' a σ h hb hS hL hn
  exact hg b.next hn _ _ _ _ h hb hS hL hn

/-- **Registers are handed out** from the first free one on. -/
theorem allocateRange {count : Nat} {g : Register → Lower α}
    (hg : ∀ r : Register, n ≤ r.index → Fills (r.index + count) S S' L (g r)) :
    Fills n S S' L (Lower.allocateRange count >>= g) := by
  intro b b' a σ h hb hS hL hn
  obtain ⟨r, b₁, hr, hgb⟩ := bind_eq_ok h
  unfold Lower.allocateRange at hr
  dsimp only at hr
  split at hr
  next hstop =>
    cases hr
    have hnext : (UInt16.ofNat (b.next.toNat + count)).toNat = b.next.toNat + count :=
      UInt16.toNat_ofNat_of_lt' (by simp only [UInt16.size]; omega)
    have hnext' : b.next.toNat + count ≤ (UInt16.ofNat (b.next.toNat + count)).toNat := hnext.ge
    obtain ⟨σ', hb', hS', hp, hn'⟩ := hg ⟨b.next⟩ hn _ _ _ _ hgb
      ⟨hb.items, hb.known, hb.labels, hb.functions⟩ hS hL hnext'
    exact ⟨σ', hb', hS', ⟨hp.items, hp.labels, hp.position, hp.label⟩,
      hn.trans ((Nat.le_add_right _ _).trans hn')⟩
  next => cases hr

theorem allocate {g : Register → Lower α}
    (hg : ∀ r : Register, n ≤ r.index → Fills (r.index + 1) S S' L (g r)) :
    Fills n S S' L (Lower.allocate >>= g) :=
  allocateRange hg

/-- A register that is not used as a destination of an expression. -/
theorem allocated {g : Register → Lower α} (hg : ∀ r, Fills n S S' L (g r)) :
    Fills n S S' L (Lower.allocate >>= g) :=
  bind (of_eq fun b a b' h => by
    unfold Lower.allocate Lower.allocateRange at h
    dsimp only at h
    split at h
    next hstop =>
      cases h
      refine ⟨_, _, rfl, fun hn => ?_, fun f hf => .inl hf⟩
      rw [UInt16.toNat_ofNat_of_lt' (by simp only [UInt16.size]; omega)]
      exact Nat.le_succ_of_le hn
    next => cases h) hg

/-! ### Instructions -/

/-- **An item.** The next position gets the registers that the item leaves behind, or any if the code does not go
on there. -/
theorem emitItem {y : Item} (hy : y.instr.Fills S S₁) (hnext : ¬y.instr.Ends → S' ⊆ S₁)
    (hlabel : match y.label with
      | some l => y.instr.Jumps ∧ ∃ T, (l, T) ∈ L ∧ T ⊆ S₁
      | none => y.instr.target? = none) : Fills n S S' L (Lower.emitItem y) := by
  intro b b' a σ h hb hS hL hn
  cases h
  let size := b.items.size
  have hsize : (b.items.push y).size = size + 1 := Array.size_push _
  let σ' : Pending := ⟨fun p => if p = size + 1 then S' else σ.position p, σ.label⟩
  have hlast : σ'.position (size + 1) = S' := if_pos rfl
  have hold {p : Nat} (hp : p ≤ size) : σ'.position p = σ.position p := if_neg (by omega)
  refine ⟨σ', ⟨fun {p z} hz => ?_, fun z hz l hl => ?_, fun {l p} hp => ?_, hb.functions⟩, ?_,
    ⟨?_, Nat.le_refl _, fun p hp => ?_, fun _ _ => rfl⟩, hn⟩
  · rw [Array.getElem?_push] at hz
    split at hz
    next heq =>
      cases hz
      subst heq
      refine ⟨S₁, ?_, fun hends => ?_, ?_⟩
      · rw [hold (Nat.le_refl _), show σ.position size = S from hS]
        exact hy
      · rw [hlast]
        exact hnext hends
      · revert hlabel
        split
        next l _ =>
          rintro ⟨hjumps, T, hT, hsub⟩
          exact ⟨hjumps, (hL _ hT).2.symm ▸ hsub⟩
        next => exact id
    next =>
      have hlt : p < size := (Array.getElem?_eq_some_iff.mp hz).1
      obtain ⟨T, hT, hnext, hl⟩ := hb.items hz
      refine ⟨T, ?_, ?_, hl⟩
      · rw [hold hlt.le]
        exact hT
      · rw [hold hlt]
        exact hnext
  · rcases Array.mem_push.mp hz with hz | rfl
    · exact hb.known z hz l hl
    · rw [hl] at hlabel
      obtain ⟨-, T, hT, -⟩ := hlabel
      exact (hL _ hT).1
  · obtain ⟨hle, hl⟩ := hb.labels hp
    refine ⟨?_, ?_⟩
    · rw [hsize]
      exact Nat.le_succ_of_le hle
    · rw [hold hle]
      exact hl
  · rw [hsize]
    exact hlast
  · rw [hsize]
    exact Nat.le_succ size
  · rw [hold hp]
    exact List.Subset.refl _

/-- An instruction behind which the code goes on. -/
theorem emit (hi : i.Fills S S') (htarget : i.target? = none) : Fills n S S' L (Lower.emit i) :=
  emitItem hi (fun _ => List.Subset.refl _) htarget

/-- An instruction that has nothing to do with cells under construction. -/
theorem other (hi : ¬i.Builds ∧ i.target? = none) (h : ∀ r ∈ i.registers, r.Above S) :
    Fills n S S L (Lower.emit i) :=
  emit (.other hi.1 h) hi.2

/-- An instruction where no cell is under construction. -/
theorem plain (hi : ¬i.Builds ∧ i.target? = none) : Fills n [] [] L (Lower.emit i) :=
  other hi fun r _ => r.above_nil

theorem emitJump {l : Label} (hi : i.Jumps) (h : ∀ r ∈ i.registers, r.Above S) (hl : (l, S) ∈ L) :
    Fills n S S L (Lower.emitJump i l) :=
  emitItem (.other (by cases hi <;> exact id) h) (fun _ => List.Subset.refl _)
    ⟨hi, S, hl, List.Subset.refl _⟩

theorem jumpIfFalse {l : Label} (hr : r.Above S) (hl : (l, S) ∈ L) :
    Fills n S S L (Lower.jumpIfFalse r l) :=
  emitJump (.ifFalse r) (List.forall_mem_singleton.mpr hr) hl

theorem jumpOr {l : Label} (hl : (l, []) ∈ L) : Fills n [] [] L (Lower.jumpIfFalse r l) :=
  jumpIfFalse r.above_nil hl

/-- Behind a jump the code goes on with any registers under construction. -/
theorem jump {l : Label} (hl : (l, S) ∈ L) : Fills n S S' L (Lower.jump l) :=
  emitItem (.other id fun _ hr => absurd hr List.not_mem_nil) (fun h => (h trivial).elim)
    ⟨.always, S, hl, List.Subset.refl _⟩

theorem leave (hr : r.Above S) : Fills n S S' L (Lower.emit (.leave r)) :=
  emitItem (.other id (List.forall_mem_singleton.mpr hr)) (fun h => (h trivial).elim) rfl

/-- **A new label** gets its registers at once. -/
theorem newLabel {g : Label → Lower α} (T : List Nat) (hg : ∀ l, Fills n S S' ((l, T) :: L) (g l)) :
    Fills n S S' L (Lower.newLabel >>= g) := by
  intro b b' a σ h hb hS hL hn
  let l₀ : Label := ⟨b.labels.size⟩
  let b₁ : Builder := ⟨b.block, b.items, b.labels.push none, b.next⟩
  let σ₁ : Pending := ⟨σ.position, fun l => if l = l₀ then T else σ.label l⟩
  have hgb : g l₀ b₁ = .ok a b' := h
  have hsize : b₁.labels.size = b.labels.size + 1 := Array.size_push _
  have hold {l : Label} (hl : l.number < b.labels.size) : σ₁.label l = σ.label l :=
    if_neg fun h => absurd hl (by rw [h]; exact Nat.lt_irrefl _)
  have hp : b.Proceeds σ b₁ σ₁ :=
    ⟨Nat.le_refl _, hsize ▸ Nat.le_succ _, fun _ _ => List.Subset.refl _, fun l hl => hold hl⟩
  have hb₁ : b₁.Filled σ₁ := by
    refine ⟨fun {p y} hy => ?_, fun y hy l hl => ?_, fun {l p} hp => ?_, hb.functions⟩
    · obtain ⟨T', hT', hnext, hlabel⟩ := hb.items hy
      refine ⟨T', hT', hnext, ?_⟩
      have hknown := hb.known y (Array.mem_of_getElem? hy)
      revert hlabel
      split
      next l hl => exact fun hlabel => ⟨hlabel.1, (hold (hknown l hl)).symm ▸ hlabel.2⟩
      next => exact id
    · exact hsize ▸ Nat.lt_succ_of_lt (hb.known y hy l hl)
    · rw [position?_push] at hp
      obtain ⟨hle, hl⟩ := hb.labels hp
      exact ⟨hle, (hold (lt_of_position? hp)).symm ▸ hl⟩
  have hL₁ : b₁.Expects σ₁ ((l₀, T) :: L) := by
    refine List.forall_mem_cons.mpr ⟨⟨?_, if_pos rfl⟩, hL.mono hp⟩
    rw [hsize]
    exact Nat.lt_succ_self _
  obtain ⟨σ', hb', hS', hp', hn'⟩ := hg l₀ _ _ _ _ hgb hb₁ hS hL₁ hn
  exact ⟨σ', hb', hS', hp.trans hp', hn'⟩

/-- The label is bound at a position with its registers. -/
theorem bindLabel {l : Label} (hl : (l, S) ∈ L) : Fills n S S L (Lower.bind l) := by
  intro b b' a σ h hb hS hL hn
  cases h
  refine ⟨σ, ⟨hb.items, fun y hy l' hl' => ?_, fun {l' p} hp => ?_, hb.functions⟩, hS, ⟨Nat.le_refl _,
    Nat.le_of_eq Array.size_setIfInBounds.symm, fun _ _ => List.Subset.refl _, fun _ _ => rfl⟩, hn⟩
  · show l'.number < (b.labels.setIfInBounds _ _).size
    rw [Array.size_setIfInBounds]
    exact hb.known y hy l' hl'
  · rw [position?_bind] at hp
    split at hp
    next heq =>
      cases hp
      have heq : l' = l := congrArg Label.mk heq.1.symm
      exact ⟨Nat.le_refl _, by rw [heq, (hL _ hl).2, hS]; exact List.Subset.refl _⟩
    next => exact hb.labels hp

theorem load (hr : r.Above S) (c : Constant) : Fills n S S L (Lower.load r c) :=
  .bind (.constant c) fun _ => .other ⟨id, rfl⟩ (List.forall_mem_singleton.mpr hr)

theorem loadUnit (hr : r.Above S) : Fills n S S L (Lower.loadUnit r) := load hr .unit

end Fills

end Lower

end Reified
