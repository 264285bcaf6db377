import Reified.Lowering.Program
import Reified.Proofs.Block.Verify
import Reified.Proofs.Lowering.Function
import Reified.Proofs.Lowering.Local

/-!
# Balanced code

Every position of a block is reached with one number of open scopes and one number of open frames, from
wherever it is reached. This is so at all positions, also at those behind a jump that are not reached at
all: there the code goes on with the numbers with which the label after it was handed out.

While code is emitted the numbers are known for all positions up to the next one, and for all labels
there are. A label gets its numbers when it is handed out, not when it is bound; so a jump forward can be
judged at once, and a loop needs no second look.

A jump out of a loop closes the scopes opened inside it. How many these are is computed from the place of
the jump, so what carries the whole argument is that the depth of a place is the number of open scopes.

## Main definitions

* `Depths`, `Instr.depths?`, `Instr.Leads` — open scopes and frames, and where the code goes on
* `Block.Balanced` — the positions of a block have depths
* `Builder.Surveyed`, `Lower.Walks` — what has been emitted has depths

## Main results

* `Lower.walks_local`, `Lower.walks_stmt`, `Lower.walks_functions`
* `Program.balanced_of_lower` — **generated code is balanced**
-/

namespace Reified

/-- The numbers of open scopes and of open frames. -/
@[ext]
structure Depths where
  scopes : Nat
  frames : Nat

/-- The depths behind an instruction; there are none if it closes what is not open. -/
def Instr.depths? : Instr → Depths → Option Depths
  | .pushScope, d => some ⟨d.scopes + 1, d.frames⟩
  | .popScope, ⟨s + 1, f⟩ => some ⟨s, f⟩
  | .popScope, ⟨0, _⟩ => none
  | .pushFrame, d => some ⟨d.scopes, d.frames + 1⟩
  | .popFrame, ⟨s, f + 1⟩ => some ⟨s, f⟩
  | .popFrame, ⟨_, 0⟩ => none
  | _, d => some d

/-- The code may go on at this position behind an instruction at position `p`. -/
inductive Instr.Leads (i : Instr) (p : Nat) : Nat → Prop
  | next (h : ¬i.Ends) : Leads i p (p + 1)
  | target {t : Int32} (ht : i.target? = some t) (h : 0 ≤ t.toInt) : Leads i p t.toInt.toNat

namespace Block

/-- The positions of a block have depths: nothing is open where its code starts, nor where its signature
is evaluated, no instruction closes what is not open, and each one leads only to positions with the
depths that it leaves behind. -/
structure Balanced (B : Block) (depths : Nat → Depths) : Prop where
  signature : depths 0 = ⟨0, 0⟩
  code : depths B.codeStart.toNat = ⟨0, 0⟩
  step : ∀ {p : Nat} {i : Instr}, B.code[p]? = some i →
    ∃ d, i.depths? (depths p) = some d ∧ ∀ q, i.Leads p q → depths q = d

/-- The block is balanced. -/
def IsBalanced (B : Block) : Prop := ∃ depths, B.Balanced depths

end Block

/-! ## Surveys -/

/-- The depths of positions and of labels. -/
structure Survey where
  position : Nat → Depths
  label : Label → Depths

/-- An item at a position has the depths. An item that can jump does so to a label. -/
def Item.Surveyed (σ : Survey) (p : Nat) (x : Item) : Prop :=
  ∃ d, x.instr.depths? (σ.position p) = some d ∧ (¬x.instr.Ends → σ.position (p + 1) = d) ∧
    match x.label with
    | some l => x.instr.Jumps ∧ σ.label l = d
    | none => x.instr.target? = none

namespace Builder

/-- What has been emitted has the depths, and so has the position that comes next. -/
structure Surveyed (b : Builder) (σ : Survey) : Prop where
  items : ∀ {p : Nat} {x : Item}, b.items[p]? = some x → x.Surveyed σ p
  known : ∀ x ∈ b.items, ∀ l, x.label = some l → l.number < b.labels.size
  labels : ∀ {l : Label} {p : Nat}, b.position? l = some p →
    p ≤ b.items.size ∧ σ.label l = σ.position p
  functions : ∀ f ∈ b.block.functions, f.Fits → f.Everywhere Block.IsBalanced

/-- A later builder with a survey that is the same for what there was before. -/
structure Continues (b : Builder) (σ : Survey) (b' : Builder) (σ' : Survey) : Prop where
  items : b.items.size ≤ b'.items.size
  labels : b.labels.size ≤ b'.labels.size
  position : ∀ p ≤ b.items.size, σ'.position p = σ.position p
  label : ∀ l : Label, l.number < b.labels.size → σ'.label l = σ.label l

/-- The labels are there, with these depths. -/
def Offers (b : Builder) (σ : Survey) (S : List (Label × Depths)) : Prop :=
  ∀ e ∈ S, e.1.number < b.labels.size ∧ σ.label e.1 = e.2

variable {b b₁ b' : Builder} {σ σ₁ σ' : Survey} {S : List (Label × Depths)}

theorem Continues.refl (b : Builder) (σ : Survey) : b.Continues σ b σ :=
  ⟨Nat.le_refl _, Nat.le_refl _, fun _ _ => rfl, fun _ _ => rfl⟩

theorem Continues.trans (h : b.Continues σ b₁ σ₁) (h' : b₁.Continues σ₁ b' σ') : b.Continues σ b' σ' :=
  ⟨Nat.le_trans h.items h'.items, Nat.le_trans h.labels h'.labels,
    fun p hp => (h'.position p (Nat.le_trans hp h.items)).trans (h.position p hp),
    fun l hl => (h'.label l (Nat.lt_of_lt_of_le hl h.labels)).trans (h.label l hl)⟩

theorem Offers.mono (h : b.Offers σ S) (hc : b.Continues σ b' σ') : b'.Offers σ' S := fun e he =>
  have ⟨hlt, hlabel⟩ := h e he
  ⟨Nat.lt_of_lt_of_le hlt hc.labels, (hc.label e.1 hlt).trans hlabel⟩

theorem surveyed_new (name : String) (count : UInt32) (σ : Survey) : (new name count).Surveyed σ := by
  refine ⟨fun h => ?_, fun x hx => absurd hx (Array.not_mem_empty x), fun {l p} h => ?_,
    fun f hf => absurd hf (Array.not_mem_empty f)⟩
  · simp [new] at h
  · simp [new, position?] at h

/-- **The finished block is balanced** if nothing is open where it is entered. -/
theorem Surveyed.finish (h : b.Surveyed σ) (hfits : b.finish.Fits) (hsignature : σ.position 0 = ⟨0, 0⟩)
    (hcode : σ.position b.block.codeStart.toNat = ⟨0, 0⟩) : b.finish.Everywhere Block.IsBalanced := by
  refine .intro ⟨σ.position, hsignature, hcode, fun {p i} hi => ?_⟩ fun f hf =>
    h.functions f hf (hfits.of_mem hf)
  rw [code_finish, Option.map_eq_some_iff] at hi
  obtain ⟨x, hx, rfl⟩ := hi
  obtain ⟨d, hd, hnext, hlabel⟩ := h.items hx
  have hlabels {l : Label} {p : Nat} := @Surveyed.labels b σ h l p
  have hsize := hfits.code_lt
  rw [size_code_finish] at hsize
  obtain ⟨i, label⟩ := x
  cases label with
  | none =>
    refine ⟨d, hd, fun q hq => ?_⟩
    cases hq with
    | next hends => exact hnext hends
    | target ht => exact absurd (hlabel.symm.trans ht) nofun
  | some l =>
    obtain ⟨hjumps, hl⟩ := hlabel
    -- The target is the position of the label, or none at all as long as the label has no position.
    have htarget {t : Int32} (ht : 0 ≤ t.toInt) (h : (b.resolve ⟨i, some l⟩).target? = some t) :
        σ.position t.toInt.toNat = d := by
      cases hp : b.position? l with
      | none =>
        simp only [resolve, Option.bind_some, hp] at h
        cases hjumps <;> cases h <;> exact absurd ht (by decide)
      | some q =>
        obtain ⟨hq, hat⟩ := hlabels hp
        have hto : (Int32.ofNat q).toInt = q := Int32.toInt_ofNat_of_lt (by omega)
        simp only [resolve, Option.bind_some, hp] at h
        have ht : t = .ofNat q := by cases hjumps <;> cases h <;> rfl
        rw [ht, hto, Int.toNat_natCast, ← hat, hl]
    have hsame : (b.resolve ⟨i, some l⟩).depths? (σ.position p) = some d ∧
        ((b.resolve ⟨i, some l⟩).Ends → i.Ends) ∧ (i.Ends → (b.resolve ⟨i, some l⟩).Ends) := by
      simp only [resolve]
      split
      · cases hjumps <;> exact ⟨hd, id, id⟩
      · exact ⟨hd, id, id⟩
    refine ⟨d, hsame.1, fun q hq => ?_⟩
    cases hq with
    | next hends => exact hnext fun h => hends (hsame.2.2 h)
    | target ht hnonneg => exact htarget hnonneg ht

end Builder

/-! ## Actions -/

namespace Lower

open Builder

variable {α β : Type} {d d₁ d' e : Depths} {S S' : List (Label × Depths)} {x : Lower α}

/-- What the action emits leads from depths `d` to depths `d'`, and jumps to labels with their depths. -/
def Walks (d d' : Depths) (S : List (Label × Depths)) {α : Type} (x : Lower α) : Prop :=
  ∀ (b b' : Builder) (a : α) (σ : Survey), x b = .ok a b' → b.Surveyed σ →
    σ.position b.items.size = d → b.Offers σ S →
    ∃ σ', b'.Surveyed σ' ∧ σ'.position b'.items.size = d' ∧ b.Continues σ b' σ'

namespace Walks

theorem pure (a : α) : Walks d d S (Pure.pure a : Lower α) := by
  intro b b' c σ h hb hd _
  obtain ⟨_, rfl⟩ := pure_eq_ok h
  exact ⟨σ, hb, hd, .refl b σ⟩

/-- **One action after the other.** -/
theorem bind {g : α → Lower β} (hx : Walks d d₁ S x) (hg : ∀ a, Walks d₁ d' S (g a)) :
    Walks d d' S (x >>= g) := by
  intro b b' c σ h hb hd hS
  obtain ⟨a, b₁, hxb, hgb⟩ := bind_eq_ok h
  obtain ⟨σ₁, hb₁, hd₁, hc₁⟩ := hx _ _ _ _ hxb hb hd hS
  obtain ⟨σ', hb', hd', hc'⟩ := hg a _ _ _ _ hgb hb₁ hd₁ (hS.mono hc₁)
  exact ⟨σ', hb', hd', hc₁.trans hc'⟩

theorem seq {x : Lower Unit} {g : Unit → Lower β} (hx : Walks d d₁ S x) (hg : Walks d₁ d' S (g ())) :
    Walks d d' S (x >>= g) :=
  hx.bind fun _ => hg

theorem weaken (hx : Walks d d' S x) (h : ∀ e ∈ S, e ∈ S') : Walks d d' S' x :=
  fun _ _ _ _ hxb hb hd hS => hx _ _ _ _ hxb hb hd fun e he => hS e (h e he)

theorem throw (err : LowerError) : Walks d d' S (throw err : Lower α) := by
  intro b b' c σ h
  cases h

/-- A change of the pools and the register file only. -/
theorem of_eq (h : ∀ b a b', x b = .ok a b' → ∃ B next, b' = ⟨B, b.items, b.labels, next⟩ ∧
    ∀ f ∈ B.functions, f ∈ b.block.functions ∨ (f.Fits → f.Everywhere Block.IsBalanced)) :
    Walks d d S x := by
  intro b b' a σ hx hb hd _
  obtain ⟨B, next, rfl, hB⟩ := h b a b' hx
  have hfunctions (f : Block) (hf : f ∈ B.functions) (hfits : f.Fits) : f.Everywhere Block.IsBalanced :=
    (hB f hf).elim (fun hf => hb.functions f hf hfits) fun h => h hfits
  exact ⟨σ, ⟨hb.items, hb.known, hb.labels, hfunctions⟩, hd, Nat.le_refl _, Nat.le_refl _, fun _ _ => rfl, fun _ _ => rfl⟩

theorem identifier (name : String) : Walks d d S (Lower.identifier name) :=
  of_eq fun b a b' h => by
    cases h
    refine ⟨(b.block.addIdentifier _).2, b.next, rfl, fun f hf => .inl ?_⟩
    rw [Block.addIdentifier] at hf
    split at hf <;> exact hf

theorem constant (c : Constant) : Walks d d S (Lower.constant c) :=
  of_eq fun b a b' h => by
    cases h
    refine ⟨(b.block.addConstant _).2, b.next, rfl, fun f hf => .inl ?_⟩
    rw [Block.addConstant] at hf
    split at hf <;> exact hf

theorem function {f : Block} (hf : f.Fits → f.Everywhere Block.IsBalanced) :
    Walks d d S (Lower.function f) :=
  of_eq fun b a b' h => by
    cases h
    refine ⟨_, _, rfl, fun g hg => ?_⟩
    rcases Array.mem_push.mp hg with hg | rfl
    · exact .inl hg
    · exact .inr hf

theorem blockName : Walks d d S Lower.blockName :=
  of_eq fun b a b' h => by
    cases h
    exact ⟨_, _, rfl, fun f hf => .inl hf⟩

theorem allocateRange (count : Nat) : Walks d d S (Lower.allocateRange count) :=
  of_eq fun b a b' h => by
    unfold Lower.allocateRange at h
    dsimp only at h
    split at h
    · cases h
      exact ⟨_, _, rfl, fun f hf => .inl hf⟩
    · cases h

theorem mark : Walks d d S Lower.mark :=
  of_eq fun b a b' h => by
    cases h
    exact ⟨_, _, rfl, fun f hf => .inl hf⟩

theorem release (m : UInt16) : Walks d d S (Lower.release m) :=
  of_eq fun b a b' h => by
    cases h
    exact ⟨_, _, rfl, fun f hf => .inl hf⟩

/-- **An item.** The next position gets the depths that the item leaves behind, or any if the code does
not go on there. -/
theorem emitItem {y : Item} (hdepths : y.instr.depths? d = some e) (hnext : ¬y.instr.Ends → d' = e)
    (hlabel : match y.label with
      | some l => y.instr.Jumps ∧ (l, e) ∈ S
      | none => y.instr.target? = none) : Walks d d' S (Lower.emitItem y) := by
  intro b b' a σ h hb hd hS
  cases h
  let n := b.items.size
  have hsize : (b.items.push y).size = n + 1 := Array.size_push _
  let σ' : Survey := ⟨fun p => if p = n + 1 then d' else σ.position p, σ.label⟩
  have hlast : σ'.position (n + 1) = d' := if_pos rfl
  have hold {p : Nat} (hp : p ≤ n) : σ'.position p = σ.position p := if_neg (by omega)
  refine ⟨σ', ⟨fun {p z} hz => ?_, fun z hz l hl => ?_, fun {l p} hp => ?_, hb.functions⟩, ?_, ?_,
    Nat.le_refl _, fun p hp => hold hp, fun _ _ => rfl⟩
  · rw [Array.getElem?_push] at hz
    split at hz
    next heq =>
      cases hz
      subst heq
      refine ⟨e, ?_, fun hends => hlast.trans (hnext hends), ?_⟩
      · rw [hold (Nat.le_refl _), show σ.position n = d from hd]
        exact hdepths
      · revert hlabel
        split
        next l _ => exact fun hlabel => ⟨hlabel.1, (hS _ hlabel.2).2⟩
        next => exact id
    next =>
      have hlt : p < n := (Array.getElem?_eq_some_iff.mp hz).1
      obtain ⟨e, he, hnext, hl⟩ := hb.items hz
      refine ⟨e, ?_, ?_, hl⟩
      · rw [hold (Nat.le_of_lt hlt)]
        exact he
      · rw [hold hlt]
        exact hnext
  · rcases Array.mem_push.mp hz with hz | rfl
    · exact hb.known z hz l hl
    · rw [hl] at hlabel
      exact (hS _ hlabel.2).1
  · obtain ⟨hle, hl⟩ := hb.labels hp
    refine ⟨?_, ?_⟩
    · rw [hsize]
      exact Nat.le_succ_of_le hle
    · rw [hold hle]
      exact hl
  · rw [hsize]
    exact hlast
  · rw [hsize]
    exact Nat.le_succ n

/-- An instruction behind which the code goes on. -/
theorem emit {i : Instr} (hdepths : i.depths? d = some d') (htarget : i.target? = none) :
    Walks d d' S (Lower.emit i) :=
  emitItem hdepths (fun _ => rfl) htarget

theorem leave (r : Register) : Walks d d' S (Lower.emit (.leave r)) :=
  emitItem (e := d) rfl (fun h => (h trivial).elim) rfl

theorem pushScope {s f : Nat} : Walks ⟨s, f⟩ ⟨s + 1, f⟩ S (Lower.emit .pushScope) := emit rfl rfl

theorem popScope {s f : Nat} : Walks ⟨s + 1, f⟩ ⟨s, f⟩ S (Lower.emit .popScope) := emit rfl rfl

theorem pushFrame {s f : Nat} : Walks ⟨s, f⟩ ⟨s, f + 1⟩ S (Lower.emit .pushFrame) := emit rfl rfl

theorem popFrame {s f : Nat} : Walks ⟨s, f + 1⟩ ⟨s, f⟩ S (Lower.emit .popFrame) := emit rfl rfl

/-- An instruction inside a scope. -/
theorem inside {i : Instr} (hi : i.Local) : Walks d d S (Lower.emit i) := by
  have h : i.depths? d = some d ∧ i.target? = none := by
    cases i <;> first | exact hi.elim | exact ⟨rfl, rfl⟩
  exact emit h.1 h.2

theorem emitJump {i : Instr} {l : Label} (hi : i.Jumps) (hl : (l, d) ∈ S) :
    Walks d d S (Lower.emitJump i l) :=
  emitItem (e := d) (by cases hi <;> rfl) (fun _ => rfl) ⟨hi, hl⟩

/-- Behind a jump the code goes on with any depths. -/
theorem jump {l : Label} (hl : (l, d) ∈ S) : Walks d d' S (Lower.jump l) :=
  emitItem (e := d) rfl (fun h => (h trivial).elim) ⟨.always, hl⟩

theorem jump_seq {l : Label} {g : Unit → Lower β} (hl : (l, d) ∈ S) (hg : Walks d₁ d' S (g ())) :
    Walks d d' S (Lower.jump l >>= g) :=
  seq (jump hl) hg

/-- **A new label** gets its depths at once. -/
theorem newLabel {g : Label → Lower α} (e : Depths) (hg : ∀ l, Walks d d' ((l, e) :: S) (g l)) :
    Walks d d' S (Lower.newLabel >>= g) := by
  intro b b' a σ h hb hd hS
  let n : Label := ⟨b.labels.size⟩
  let b₁ : Builder := ⟨b.block, b.items, b.labels.push none, b.next⟩
  let σ₁ : Survey := ⟨σ.position, fun l => if l = n then e else σ.label l⟩
  have hgb : g n b₁ = .ok a b' := h
  have hsize : b₁.labels.size = b.labels.size + 1 := Array.size_push _
  have hold {l : Label} (hl : l.number < b.labels.size) : σ₁.label l = σ.label l :=
    if_neg fun h => absurd hl (by rw [h]; exact Nat.lt_irrefl _)
  have hc : b.Continues σ b₁ σ₁ :=
    ⟨Nat.le_refl _, Nat.le_of_lt (hsize ▸ Nat.lt_succ_self _), fun _ _ => rfl, fun l hl => hold hl⟩
  have hb₁ : b₁.Surveyed σ₁ := by
    refine ⟨fun {p y} hy => ?_, fun y hy l hl => ?_, fun {l p} hp => ?_, hb.functions⟩
    · obtain ⟨c, hdepths, hnext, hlabel⟩ := hb.items hy
      refine ⟨c, hdepths, hnext, ?_⟩
      have hknown := hb.known y (Array.mem_of_getElem? hy)
      revert hlabel
      split
      next l hl => exact fun hlabel => ⟨hlabel.1, (hold (hknown l hl)).trans hlabel.2⟩
      next => exact id
    · exact hsize ▸ Nat.lt_succ_of_lt (hb.known y hy l hl)
    · rw [position?_push] at hp
      obtain ⟨hle, hl⟩ := hb.labels hp
      exact ⟨hle, (hold (lt_of_position? hp)).trans hl⟩
  have hS₁ : b₁.Offers σ₁ ((n, e) :: S) := by
    refine List.forall_mem_cons.mpr ⟨⟨?_, if_pos rfl⟩, hS.mono hc⟩
    rw [hsize]
    exact Nat.lt_succ_self _
  obtain ⟨σ', hb', hd', hc'⟩ := hg n _ _ _ _ hgb hb₁ hd hS₁
  exact ⟨σ', hb', hd', hc.trans hc'⟩

/-- The label is bound at a position with its depths. -/
theorem bindLabel {l : Label} (hl : (l, d) ∈ S) : Walks d d S (Lower.bind l) := by
  intro b b' a σ h hb hd hS
  cases h
  refine ⟨σ, ⟨hb.items, fun y hy l' hl' => ?_, fun {l' p} hp => ?_, hb.functions⟩, hd, Nat.le_refl _,
    Nat.le_of_eq Array.size_setIfInBounds.symm, fun _ _ => rfl, fun _ _ => rfl⟩
  · show l'.number < (b.labels.setIfInBounds _ _).size
    rw [Array.size_setIfInBounds]
    exact hb.known y hy l' hl'
  · rw [position?_bind] at hp
    split at hp
    next heq =>
      cases hp
      have heq : l' = l := congrArg Label.mk heq.1.symm
      exact ⟨Nat.le_refl _, heq ▸ (hS _ hl).2.trans hd.symm⟩
    next => exact hb.labels hp

end Walks

/-- **Code inside a scope** keeps the depths. -/
theorem walks_local (d : Depths) (S₀ : List (Label × Depths)) :
    Local (fun _ => True) fun S _ _ x => Walks d d (S.map (·, d) ++ S₀) x where
  pure a := .pure a
  bind hx hg := hx.bind hg
  emit hi := .inside hi
  define _ _ := .bind (.identifier _) fun _ => .emit rfl rfl
  infer _ _ _ := .seq .pushFrame <| .seq (.inside trivial) .popFrame
  emitJump hi hl := .emitJump hi (List.mem_append_left _ (List.mem_map_of_mem hl))
  newLabel hg := .newLabel d hg
  bindLabel hl := .bindLabel (List.mem_append_left _ (List.mem_map_of_mem hl))
  bindLabel_seq hl hx := .seq (.bindLabel (List.mem_append_left _ (List.mem_map_of_mem hl))) hx
  identifier := .identifier
  constant := .constant
  allocateRange := .allocateRange
  giveBack hx := .bind Walks.mark fun _ => .seq hx <| .release _

theorem Walks.stays (h : ∀ {K : List Label → List Label → {α : Type} → Lower α → Prop},
    Local (fun _ => True) K → K [] [] x) : Walks d d S x :=
  h (walks_local d S)

/-- Code inside a scope that may go to a label with the same depths. -/
theorem Walks.staysOr {l : Label} (hl : (l, d) ∈ S)
    (h : ∀ {K : List Label → List Label → {α : Type} → Lower α → Prop}, Local (fun _ => True) K → K [l] [] x) :
    Walks d d S x :=
  Walks.weaken (S := [(l, d)]) (h (walks_local d [])) fun _ he => List.mem_singleton.mp he ▸ hl

/-! ## Functions -/

section

variable {d : Depths} {S : List (Label × Depths)}

theorem walks_declaredVar (registers : List (Nat × Register)) (v : TyVar) (dst : Register) :
    Walks d d S (declaredVar registers v dst) := by
  rw [declaredVar]
  split
  next => exact .inside trivial
  next => exact .throw _

theorem walks_signature (t : Ty) : Walks ⟨0, 0⟩ ⟨0, 0⟩ S (signature t) := by
  have hty (registers : List (Nat × Register)) (dst : Register) :
      Walks ⟨1, 1⟩ ⟨1, 1⟩ S (ty (declaredVar registers) t dst) :=
    (walks_local ⟨1, 1⟩ S).ty (S := []) t (fun v _ r => walks_declaredVar registers v r) dst
  exact .bind (.allocateRange 1) fun dst => .seq .pushScope <| .seq .pushFrame <|
    .bind (.stays fun hK => hK.declareVars t.distinctVars []) fun registers =>
    .seq (hty registers dst) <| .seq (.inside trivial) <| .seq .popFrame <| .seq .popScope <|
    .leave dst

/-- The block of a function of which the body is walked through. -/
theorem balanced_functionBlock {checks : Bool} {head : FnHead} {body : List Decl} {b b' : Builder}
    {B : Block} (hbody : ∀ (place : Place) (r : Register), place.scopeDepth = 0 → place.loop = none →
      Walks ⟨0, 0⟩ ⟨0, 0⟩ [] (fnBody body place r))
    (h : functionBlock checks head (fnBody body) b = .ok B b') (hfits : B.Fits) :
    B.Everywhere Block.IsBalanced := by
  obtain ⟨types, result, implicit, c, -, hc, rfl⟩ := functionBlock_spec h
  obtain ⟨-, -, b₁, h₁, hstart, hbefore⟩ := functionCode_head (fun r => safe_fnBody body _ r) hc
  have hrest : Walks ⟨0, 0⟩ ⟨0, 0⟩ [] (do
      Lower.params 0 head.params
      let value ← allocate
      fnBody body ⟨checks, implicitParams [] (types.take implicit), 0, none⟩ value
      emit (.leave value)) :=
    .seq (.stays fun hK => hK.allParams head.params (fun _ _ => trivial) 0) <| .bind (.allocateRange 1) fun value =>
      .seq (hbody _ value rfl rfl) <| .leave value
  obtain ⟨_, b₁', h₁', hc⟩ := bind_eq_ok hc
  obtain rfl : b₁ = b₁' := by rw [h₁] at h₁'; cases h₁'; rfl
  let σ : Survey := ⟨fun _ => ⟨0, 0⟩, fun _ => ⟨0, 0⟩⟩
  have hnone (b : Builder) (σ : Survey) : b.Offers σ [] := fun _ he => absurd he List.not_mem_nil
  obtain ⟨σ₁, hσ₁, hd₁, hc₁⟩ := walks_signature _ _ _ _ _ h₁ (surveyed_new _ _ σ) rfl (hnone _ _)
  obtain ⟨_, b₂, h₂, hc⟩ := bind_eq_ok hc
  obtain ⟨_, b₃, h₃, hc⟩ := bind_eq_ok hc
  cases h₂
  cases h₃
  obtain ⟨σ', hσ', -, hc'⟩ := hrest _ _ _ _ hc ⟨hσ₁.items, hσ₁.known, hσ₁.labels, hσ₁.functions⟩ hd₁
    (hnone _ _)
  refine hσ'.finish hfits ?_ ?_
  · rw [hc'.position 0 (Nat.zero_le _), hc₁.position 0 (Nat.zero_le _)]
  · have hsize := hfits.code_lt
    rw [size_code_finish] at hsize
    have hle := hbefore.size_le
    rw [hstart, UInt32.toNat_ofNat_of_lt' (by simp only [UInt32.size]; omega),
      hc'.position _ (Nat.le_refl _)]
    exact hd₁

/-- Creating a function does not change the depths. -/
theorem walks_createFunction (name : String) {B : Block}
    (hB : B.Fits → B.Everywhere Block.IsBalanced) : Walks d d S (createFunction name B) :=
  .bind (.function hB) fun _ => .bind Walks.mark fun m => .bind (.allocateRange 1) fun _ =>
    .seq (.emit rfl rfl) <| .bind (.identifier name) fun _ => .seq (.emit rfl rfl) <| .release m

end

/-! ## Statements -/

end Lower

/-- The depths where the code for the place is: it has opened the scopes of its function only. -/
def Place.depths (p : Place) : Depths := ⟨p.scopeDepth, 0⟩

/-- The code for the place may go to the labels of the loop around it, with the depths of the loop. -/
def Place.Loops (p : Place) (S : List (Label × Depths)) : Prop :=
  ∀ l ∈ p.loop, l.scopeDepth ≤ p.scopeDepth ∧ (l.breakLabel, ⟨l.scopeDepth, 0⟩) ∈ S ∧
    (l.continueLabel, ⟨l.scopeDepth, 0⟩) ∈ S

namespace Place.Loops

variable {p : Place} {S : List (Label × Depths)}

theorem cons (h : p.Loops S) (e : Label × Depths) : p.Loops (e :: S) := fun l hl =>
  have ⟨hle, hbreak, hcontinue⟩ := h l hl
  ⟨hle, .tail _ hbreak, .tail _ hcontinue⟩

theorem deeper (h : p.Loops S) : p.deeper.Loops S := fun l hl =>
  have ⟨hle, hlabels⟩ := h l hl
  ⟨Nat.le_succ_of_le hle, hlabels⟩

theorem inLoop {exit next : Label} (hexit : (exit, p.depths) ∈ S) (hnext : (next, p.depths) ∈ S) :
    (p.inLoop exit next).Loops S := by
  rintro _ ⟨⟩
  exact ⟨Nat.le_refl _, hexit, hnext⟩

theorem none (h : p.loop = none) : p.Loops S := by
  rw [Loops, h]
  nofun

end Place.Loops

namespace Lower

open Builder

variable {d : Depths} {S : List (Label × Depths)}

theorem walks_sequence {functions declarations : Lower Unit} {isEmpty : Bool} {dst : Register}
    (hf : Walks d d S functions) (hd : Walks d d S declarations) :
    Walks d d S (sequence isEmpty functions declarations dst) := by
  refine .seq hf ?_
  split
  · exact .stays fun hK => hK.loadUnit dst
  · exact hd

theorem walks_closeScopes {f : Nat} : (count s : Nat) → Walks ⟨s + count, f⟩ ⟨s, f⟩ S (closeScopes count)
  | 0, _ => .pure ()
  | count + 1, s => .seq .popScope <| walks_closeScopes count s

theorem walks_enter (p : Place) : Walks p.depths p.deeper.depths S (emit .pushScope) := .pushScope

theorem walks_exit (p : Place) : Walks p.deeper.depths p.depths S (emit .popScope) := .popScope

/-- A jump out of a loop closes the scopes that were opened inside the loop. -/
theorem walks_leaveScopes {p : Place} {choose : LoopLabels → Label}
    (h : ∀ l ∈ p.loop, l.scopeDepth ≤ p.scopeDepth ∧ (choose l, ⟨l.scopeDepth, 0⟩) ∈ S) :
    Walks p.depths d S (leaveScopes p choose) := by
  rw [leaveScopes]
  split
  next => exact .bind Walks.blockName fun _ => .throw _
  next l hl =>
    obtain ⟨hle, hlabel⟩ := h l hl
    have hclose : Walks ⟨p.scopeDepth, 0⟩ ⟨l.scopeDepth, 0⟩ S
        (closeScopes (p.scopeDepth - l.scopeDepth)) := by
      have := walks_closeScopes (S := S) (f := 0) (p.scopeDepth - l.scopeDepth) l.scopeDepth
      rwa [Nat.add_sub_cancel' hle] at this
    exact .seq hclose <| .jump hlabel

theorem walks_loopBody {body : Register → Lower Unit} (hbody : ∀ r, Walks d d S (body r)) :
    Walks d d S (loopBody body) :=
  .bind Walks.mark fun m => .bind (.allocateRange 1) fun r => .seq (hbody r) <| .release m

mutual

/-- **The code for a statement** ends with the depths with which it starts, and jumps out of loops with
the depths of the loops. -/
theorem walks_stmt : (s : Stmt) → ∀ {S : List (Label × Depths)} {p : Place} {dst : Register},
    p.Loops S → Walks p.depths p.depths S (stmt p s dst)
  | .empty _, _, _, dst, _ => by
    rw [stmt]
    exact .stays fun hK => hK.loadUnit dst
  | .block body _, _, p, _, hp => by
    rw [stmt]
    exact .seq (walks_enter p) <| .seq (walks_sequence (walks_functions body)
      (walks_decls body hp.deeper)) (walks_exit p)
  | .ret value _, _, _, _, _ => by
    rw [stmt]
    exact .bind (.allocateRange 1) fun r => .seq (.stays fun hK => hK.exprOrUnit r value) <| .leave r
  | .cond c s none _, _, p, dst, hp => by
    rw [stmt]
    exact .bind (.allocateRange 1) fun r => .seq (.stays fun hK => hK.expr c r) <|
      .newLabel p.depths fun _ => .newLabel p.depths fun _ =>
      .seq (.staysOr (.tail _ (.head _)) fun hK => hK.jumpIfFalse r (.head _)) <|
      .seq (walks_stmt s ((hp.cons _).cons _)) <| .jump_seq (.head _) <|
      .seq (.bindLabel (.tail _ (.head _))) <| .seq (.stays fun hK => hK.loadUnit dst) <|
      .bindLabel (.head _)
  | .cond c s (some t) _, _, p, dst, hp => by
    rw [stmt]
    exact .bind (.allocateRange 1) fun r => .seq (.stays fun hK => hK.expr c r) <|
      .newLabel p.depths fun _ => .newLabel p.depths fun _ =>
      .seq (.staysOr (.tail _ (.head _)) fun hK => hK.jumpIfFalse r (.head _)) <|
      .seq (walks_stmt s ((hp.cons _).cons _)) <| .jump_seq (.head _) <|
      .seq (.bindLabel (.tail _ (.head _))) <| .seq (walks_stmt t ((hp.cons _).cons _)) <|
      .bindLabel (.head _)
  | .whileLoop c body _, _, p, dst, _ => by
    rw [stmt]
    exact .newLabel p.depths fun _ => .newLabel p.depths fun _ => .seq (.bindLabel (.tail _ (.head _))) <|
      .bind (.allocateRange 1) fun r => .seq (.stays fun hK => hK.expr c r) <|
      .seq (.staysOr (.head _) fun hK => hK.jumpIfFalse r (.head _)) <|
      .seq (walks_loopBody fun _ => walks_stmt body (.inLoop (.head _) (.tail _ (.head _)))) <|
      .jump_seq (.tail _ (.head _)) <| .seq (.bindLabel (.head _)) <|
      .stays fun hK => hK.loadUnit dst
  | .forLoop init c increment body _, _, p, dst, _ => by
    rw [stmt]
    exact .seq (walks_enter p) <| .bind (.allocateRange 1) fun r =>
      .seq (.stays fun hK => hK.forInit p.deeper r init fun _ _ => trivial) <| .newLabel p.deeper.depths fun _ =>
      .newLabel p.deeper.depths fun _ => .newLabel p.deeper.depths fun _ =>
      .seq (.bindLabel (.tail _ (.tail _ (.head _)))) <|
      .seq (.staysOr (.head _) fun hK => hK.loopTest (.head _) r c) <|
      .seq (walks_loopBody fun _ => walks_stmt body (.inLoop (.head _) (.tail _ (.head _)))) <|
      .seq (.bindLabel (.tail _ (.head _))) <| .seq (.stays fun hK => hK.forNext r increment) <|
      .jump_seq (.tail _ (.tail _ (.head _))) <|
      .seq (.bindLabel (.head _)) <| .seq (walks_exit p) <| .stays fun hK => hK.loadUnit dst
  | .breakLoop _, _, _, _, hp => by
    rw [stmt]
    exact walks_leaveScopes fun l hl => ⟨(hp l hl).1, (hp l hl).2.1⟩
  | .continueLoop _, _, _, _, hp => by
    rw [stmt]
    exact walks_leaveScopes fun l hl => ⟨(hp l hl).1, (hp l hl).2.2⟩
  | .cases scrutinee cs none _, _, p, _, hp => by
    rw [stmt]
    exact .bind (.allocateRange 1) fun r => .seq (.stays fun hK => hK.expr scrutinee r) <|
      .newLabel p.depths fun _ => .seq (walks_matchCases cs (hp.cons _) (.head _)) <|
      .seq (.stays fun hK => hK.noMatch) <| .bindLabel (.head _)
  | .cases scrutinee cs (some s) _, _, p, _, hp => by
    rw [stmt]
    exact .bind (.allocateRange 1) fun r => .seq (.stays fun hK => hK.expr scrutinee r) <|
      .newLabel p.depths fun _ => .seq (walks_matchCases cs (hp.cons _) (.head _)) <|
      .seq (walks_stmt s (hp.cons _)) <| .bindLabel (.head _)
  | .expr e, _, _, dst, _ => by
    rw [stmt]
    exact .stays fun hK => hK.expr e dst

/-- A case is left with its scope open, both when it matches and when it does not. -/
theorem walks_matchCases : (cs : List (Pattern × Stmt)) → ∀ {S : List (Label × Depths)} {p : Place}
    {scrutinee dst : Register} {done : Label}, p.Loops S → (done, p.depths) ∈ S →
    Walks p.depths p.depths S (matchCases p scrutinee done cs dst)
  | [], _, _, _, _, _, _, _ => by
    rw [matchCases]
    exact .pure ()
  | (pat, s) :: cs, _, p, scrutinee, _, _, hp, hdone => by
    rw [matchCases]
    exact .bind Walks.mark fun m => .newLabel p.deeper.depths fun _ => .seq (walks_enter p) <|
      .seq (.staysOr (.head _) fun hK => hK.pattern pat (fun _ _ => trivial) scrutinee (.head _)) <|
      .seq (walks_stmt s (hp.cons _).deeper) <| .seq (walks_exit p) <|
      .jump_seq (.tail _ hdone) <| .seq (.bindLabel (.head _)) <|
      .seq (walks_exit p) <| .seq (.release m) <|
      walks_matchCases cs (hp.cons _) (.tail _ hdone)

/-- The functions of a block are blocks of their own. -/
theorem walks_functions : (ds : List Decl) → ∀ {S : List (Label × Depths)} {p : Place} {d : Depths},
    Walks d d S (functions p ds)
  | [], _, _, _ => by
    rw [functions]
    exact .pure ()
  | .fn head body :: ds, _, p, _ => by
    have hbody (place : Place) (r : Register) (hdepth : place.scopeDepth = 0)
        (hloop : place.loop = none) : Walks ⟨0, 0⟩ ⟨0, 0⟩ [] (fnBody body place r) := by
      have hdepths : place.deeper.depths = ⟨1, 0⟩ := by rw [Place.depths, Place.deeper, hdepth]
      have hsequence : Walks ⟨1, 0⟩ ⟨1, 0⟩ [] (sequence body.isEmpty (functions place.deeper body)
          (decls place.deeper body r) r) :=
        walks_sequence (walks_functions body) (hdepths ▸ walks_decls body (Place.Loops.none hloop).deeper)
      exact .seq .pushScope <| .seq hsequence .popScope
    rw [functions]
    intro b b' a σ h hb hd hS
    obtain ⟨B, b₁, hB, hrest⟩ := bind_eq_ok h
    obtain rfl := functionBlock_eq_ok hB
    exact (Walks.seq (walks_createFunction head.name (balanced_functionBlock hbody hB)) <|
      walks_functions ds) _ _ _ _ hrest hb hd hS
  | .letDecl _ :: ds, _, _, _ => by
    rw [functions_letDecl]
    exact walks_functions ds
  | .stmt _ :: ds, _, _, _ => by
    rw [functions_stmt]
    exact walks_functions ds

theorem walks_decls : (ds : List Decl) → ∀ {S : List (Label × Depths)} {p : Place} {dst : Register},
    p.Loops S → Walks p.depths p.depths S (decls p ds dst)
  | [], _, _, _, _ => by
    rw [decls]
    exact .pure ()
  | d :: ds, _, _, _, hp => by
    rw [decls]
    exact .bind Walks.mark fun m => .seq (walks_decl d hp) <| .seq (.release m) <| walks_decls ds hp

theorem walks_decl : (d : Decl) → ∀ {S : List (Label × Depths)} {p : Place} {dst : Register},
    p.Loops S → Walks p.depths p.depths S (decl p d dst)
  | .letDecl d, _, p, dst, _ => by
    rw [decl]
    exact .stays fun hK => hK.letDecl p trivial dst
  | .fn .., _, _, dst, _ => by
    rw [decl]
    exact .stays fun hK => hK.loadUnit dst
  | .stmt s, _, _, _, hp => by
    rw [decl]
    exact walks_stmt s hp

end

end Lower

/-! ## Programs -/

/-- **Generated code is balanced**, in the block of a program and in all blocks nested in it. Whatever
the tree is: jumps that stand in no loop and functions without signatures have no code at all.

`Block.Fits` bounds the sizes of the block by what operands of 32 bits can address: the generator
converts positions without a check. -/
theorem Program.balanced_of_lower {checks : Bool} {rejected : List Nat} {ds : Program} {B : Block}
    (h : ds.lower checks rejected = .ok B) (hfits : B.Fits) : B.Everywhere Block.IsBalanced := by
  let act : Lower Unit := do
    let value ← Lower.allocate
    Lower.body ⟨checks, [], 0, none⟩ (ds.accepted rejected) value
    Lower.emit (.leave value)
  have htame : Lower.Tame act := fun _ _ =>
    .bind .allocate fun value => .bind (Lower.safe_sequence (Lower.safe_functions _ _)
      (Lower.safe_decls _ _ value) _ value) fun _ => .emit _
  have hwalks : Lower.Walks ⟨0, 0⟩ ⟨0, 0⟩ [] act :=
    .bind (.allocateRange 1) fun value => .seq (Lower.walks_sequence (Lower.walks_functions _)
      (Lower.walks_decls _ (p := ⟨checks, [], 0, none⟩) (.none rfl))) <| .leave value
  unfold Program.lower at h
  dsimp only at h
  split at h
  next c hc =>
    cases h
    let σ : Survey := ⟨fun _ => ⟨0, 0⟩, fun _ => ⟨0, 0⟩⟩
    obtain ⟨σ', hσ', -, hcontinues⟩ := hwalks _ _ _ _ hc (Builder.surveyed_new _ _ σ) rfl
      fun _ he => absurd he List.not_mem_nil
    have hstart : c.block.codeStart = 0 := (htame.extends hc).head.codeStart
    have hzero : σ'.position 0 = ⟨0, 0⟩ := hcontinues.position 0 (Nat.zero_le _)
    exact hσ'.finish hfits hzero (by rw [hstart]; exact hzero)
  next => cases h

end Reified
