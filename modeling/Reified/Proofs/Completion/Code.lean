import Reified.Proofs.Lowering.Function
import Reified.Proofs.Lowering.Local
import Reified.Proofs.Scopes.Depths

/-!
# Code that completes with the unit value

The completion value of a statement is left in a register that is handed on through blocks, branches and
cases. A statement without a value of its own ends by loading the unit value there; a block completes as
its last declaration does, and a branch as what is taken. Whether the register holds the unit value at a
position is not a matter of that position alone, since loops go back to where nothing is known. So the
positions at which it is known are chosen while the code is emitted, and so is what is known where a label
is gone to: enough to know it at the end, and no more than the code bears out.

Only a few instructions matter: to load the unit value makes it known, and to close a scope or to jump does
not change it. Behind all others nothing is known any more.

Jumps go to labels that the code binds itself, or to those of the loop around a statement.

## Main definitions

* `Stmt.Voids`, `Decl.Voids` — the form of what completes with the unit value
* `Knowledge`, `Instr.Yields` — where a register is known to hold the unit value
* `Builder.Ready`, `Lower.Knows` — what has been emitted bears out what is known

## Main results

* `Lower.knows_stmt`, `Lower.knows_decl` — what is known behind a statement
* `Builder.Ready.edge` — what is known in the finished block
-/

namespace Reified

/-! ## Completions -/

mutual

/-- If the statement completes, it does so with the unit value, as its form tells: it has no value of its
own, or it completes only as such statements do. -/
def Stmt.Voids : Stmt → Prop
  | .empty _ | .whileLoop .. | .forLoop .. => True
  | .ret .. | .breakLoop _ | .continueLoop _ => True
  | .block body _ => Decl.VoidsLast body
  | .cond _ s none _ => s.Voids
  | .cond _ s (some t) _ => s.Voids ∧ t.Voids
  | .cases _ cs none _ => Stmt.VoidsCases cs
  | .cases _ cs (some s) _ => Stmt.VoidsCases cs ∧ s.Voids
  | .expr _ => False

/-- `Voids` for each case of a match. -/
def Stmt.VoidsCases : List (Pattern × Stmt) → Prop
  | [] => True
  | (_, s) :: cs => s.Voids ∧ Stmt.VoidsCases cs

/-- `Voids` for the last declaration of a block, if there is one. -/
def Decl.VoidsLast : List Decl → Prop
  | [] => True
  | [d] => d.Voids
  | _ :: d :: ds => Decl.VoidsLast (d :: ds)

/-- If the declaration completes, it does so with the unit value, as its form tells. -/
def Decl.Voids : Decl → Prop
  | .letDecl _ | .fn .. => True
  | .stmt s => s.Voids

end

/-- The declaration has no value of its own: its code ends by loading the unit value. -/
def Decl.Valueless : Decl → Prop
  | .letDecl _ | .fn .. => True
  | .stmt (.empty _) | .stmt (.whileLoop ..) | .stmt (.forLoop ..) => True
  | .stmt _ => False

theorem Decl.Valueless.voids : {d : Decl} → d.Valueless → d.Voids
  | .letDecl _, _ | .fn .., _ => trivial
  | .stmt (.empty _), _ | .stmt (.whileLoop ..), _ | .stmt (.forLoop ..), _ => trivial

/-! ## Knowledge -/

/-- Where a register is known to hold the unit value: at positions, and where the code goes to labels. -/
structure Knowledge where
  position : Nat → Prop
  label : Label → Prop

/-- Nothing is known. -/
def Knowledge.none : Knowledge := ⟨fun _ => False, fun _ => False⟩

/-- Behind the instruction it is known that the register holds the unit value; `known` says that it is known
before. -/
def Instr.Yields (B : Block) (v : Register) (known : Prop) : Instr → Prop
  | .loadConstant dst c => dst = v ∧ B.constant? c = some .unit
  | .popScope | .jump _ => known
  | _ => False

theorem Instr.Yields.mono {B : Block} {v : Register} {known known' : Prop} {i : Instr}
    (h : i.Yields B v known) (hk : known → known') : i.Yields B v known' := by
  cases i <;> first | exact h | exact hk h

theorem Instr.yields_withTarget {B : Block} {v : Register} {known : Prop} {i : Instr} {t : Int32} :
    (i.withTarget t).Yields B v known ↔ i.Yields B v known := by
  cases i <;> exact Iff.rfl

theorem Instr.ends_withTarget {i : Instr} {t : Int32} : (i.withTarget t).Ends ↔ i.Ends := by
  cases i <;> exact Iff.rfl

theorem Instr.target?_withTarget {i : Instr} {t u : Int32} (h : (i.withTarget t).target? = some u) :
    u = t := by
  cases i <;> cases h <;> rfl

/-- A part of the code of a block: the last builder of the block, the register that is looked at, and how
many items and labels there were before. If the look is `quiet`, something is to be known only where the code
goes on. -/
structure Part where
  final : Builder
  register : Register
  items : Nat
  labels : Nat
  quiet : Prop

namespace Builder

/-- What has been emitted for a part bears out what is known, and the next position is known if `j` holds.
Jumps go to the labels of `S`, where it is known what they say, and to labels bound since. -/
structure Ready (b : Builder) (C : Part) (S : List (Label × Prop)) (j : Prop) (κ : Knowledge) : Prop where
  items : C.items ≤ b.items.size
  labels : C.labels ≤ b.labels.size
  next : ∀ {p : Nat} {x : Item}, C.items ≤ p → b.items[p]? = some x → ¬x.instr.Ends →
    κ.position (p + 1) → x.instr.Yields C.final.finish C.register (κ.position p)
  jump : ∀ {p : Nat} {x : Item} {l : Label}, C.items ≤ p → b.items[p]? = some x → x.label = some l →
    κ.label l → x.instr.Yields C.final.finish C.register (κ.position p)
  plain : ∀ {p : Nat} {x : Item}, C.items ≤ p → b.items[p]? = some x → x.label = none →
    x.instr.target? = none
  waits : ∀ {p : Nat} {x : Item} {l : Label}, C.items ≤ p → b.items[p]? = some x → x.label = some l →
    l ∈ S.map Prod.fst ∨ C.labels ≤ l.number ∧ ∃ q, b.position? l = some q
  bound : ∀ {l : Label} {q : Nat}, C.labels ≤ l.number → b.position? l = some q →
    C.items ≤ q ∧ q ≤ b.items.size ∧ (κ.position q → κ.label l)
  start : ¬κ.position C.items
  quiet : C.quiet → (∀ p, κ.position p → p = b.items.size) ∧ ∀ l, ¬κ.label l
  current : j → κ.position b.items.size
  offers : ∀ e ∈ S, e.1.number < b.labels.size ∧ κ.label e.1 = e.2

/-- A later builder, in which the labels of `L` are bound. -/
structure Binding (L : List Label) (b b' : Builder) : Prop where
  block : b.block.Grows b'.block
  items : b.items.size ≤ b'.items.size
  labels : b.labels.size ≤ b'.labels.size
  still : ∀ {l : Label} {p : Nat}, b.position? l = some p → ∃ q, b'.position? l = some q
  bound : ∀ l ∈ L, l.number < b.labels.size → ∃ q, b'.position? l = some q

variable {b b₁ b' F : Builder} {C : Part} {S S' : List (Label × Prop)} {L L' : List Label} {j j' : Prop}
  {κ : Knowledge}

theorem Binding.trans (h : Binding L b b₁) (h' : Binding L' b₁ b') : Binding (L ++ L') b b' where
  block := h.block.trans h'.block
  items := Nat.le_trans h.items h'.items
  labels := Nat.le_trans h.labels h'.labels
  still hp := (h.still hp).elim fun _ hq => h'.still hq
  bound l hl hlt := by
    rcases List.mem_append.mp hl with hl | hl
    · obtain ⟨q, hq⟩ := h.bound l hl hlt
      exact h'.still hq
    · exact h'.bound l hl (Nat.lt_of_lt_of_le hlt h.labels)

theorem Ready.imp (h : b.Ready C S j κ) (hj : j' → j) : b.Ready C S j' κ :=
  { h with current := h.current ∘ hj }

/-- Nothing is known where a part begins. -/
theorem ready_none (hb : b.items.size = C.items) (hl : b.labels.size = C.labels)
    (hS : ∀ e ∈ S, e.1.number < b.labels.size ∧ ¬e.2) : b.Ready C S False .none where
  items := Nat.le_of_eq hb.symm
  labels := Nat.le_of_eq hl.symm
  next hp hx := absurd (Array.getElem?_eq_some_iff.mp hx).1 (by omega)
  jump hp hx := absurd (Array.getElem?_eq_some_iff.mp hx).1 (by omega)
  plain hp hx := absurd (Array.getElem?_eq_some_iff.mp hx).1 (by omega)
  waits hp hx := absurd (Array.getElem?_eq_some_iff.mp hx).1 (by omega)
  bound hlow hq := absurd (lt_of_position? hq) (by omega)
  start := id
  quiet _ := ⟨nofun, fun _ => id⟩
  current := False.elim
  offers e he := ⟨(hS e he).1, (eq_false (hS e he).2).symm⟩

/-- **What is known in the finished block**: but for jumps out of the part, an instruction leads to a position
of the part or to its end, and to one where something is known only if it makes it known. -/
theorem Ready.edge (h : b.Ready C S j κ) (hF : b.Before C.final) (hfits : C.final.finish.Fits) {p q : Nat}
    {i : Instr} (hp : C.items ≤ p) (hlt : p < b.items.size) (hi : C.final.finish.code[p]? = some i)
    (hout : ∀ x l, C.final.items[p]? = some x → x.label = some l → l ∉ S.map Prod.fst)
    (hleads : i.Leads p q) :
    C.items ≤ q ∧ q ≤ b.items.size ∧
      (κ.position q → i.Yields C.final.finish C.register (κ.position p)) := by
  have hx : b.items[p]? = some b.items[p] := Array.getElem?_eq_getElem hlt
  have hxF := hF.items hx
  generalize b.items[p] = x at hx hxF
  rw [code_finish, hxF, Option.map_some, Option.some.injEq] at hi
  subst hi
  have hyields : (C.final.resolve x).Yields C.final.finish C.register (κ.position p) ↔
      x.instr.Yields C.final.finish C.register (κ.position p) := by
    unfold resolve
    split
    · exact Instr.yields_withTarget
    · exact Iff.rfl
  have hends : (C.final.resolve x).Ends ↔ x.instr.Ends := by
    unfold resolve
    split
    · exact Instr.ends_withTarget
    · exact Iff.rfl
  rw [hyields]
  cases hleads with
  | next hnot => exact ⟨Nat.le_succ_of_le hp, hlt, h.next hp hx (fun he => hnot (hends.mpr he))⟩
  | target ht hnonneg =>
    cases hl : x.label with
    | none =>
      rw [resolve, hl, Option.bind_none, h.plain hp hx hl] at ht
      cases ht
    | some l =>
      obtain ⟨hlow, q, hq⟩ := (h.waits hp hx hl).resolve_left (hout x l hxF hl)
      obtain ⟨hlow', hle, hknown⟩ := h.bound hlow hq
      simp only [resolve, hl, Option.bind_some, hF.labels hq] at ht
      have hsize := hfits.code_lt
      have hbefore := hF.size_le
      rw [size_code_finish] at hsize
      rw [Instr.target?_withTarget ht, Int32.toInt_ofNat_of_lt (by omega), Int.toNat_natCast]
      exact ⟨hlow', hle, fun hκ => h.jump hp hx hl (hknown hκ)⟩

end Builder

/-! ## Actions -/

namespace Lower

open Builder

variable {α β : Type} {C : Part} {S S' : List (Label × Prop)} {L L' : List Label} {j j' k k₁ e : Prop}
  {x : Lower α}

/-- What the action emits leads from where the register is known to hold the unit value if `j` holds to
where this is known if `k` holds, and binds the labels of `L`. -/
def Knows (C : Part) (S : List (Label × Prop)) (L : List Label) (j k : Prop) (x : Lower α) : Prop :=
  ∀ ⦃b b' : Builder⦄ ⦃a : α⦄, x b = .ok a b' → Binding L b b' ∧
    (b'.block.Grows C.final.block → C.final.finish.Fits →
      ∀ κ, b.Ready C S j κ → ∃ κ', b'.Ready C S k κ')

namespace Knows

/-- One action after the other, both of which may bind labels. -/
theorem append {g : α → Lower β} (hx : Knows C S L j k₁ x) (hg : ∀ a, Knows C S L' k₁ k (g a)) :
    Knows C S (L ++ L') j k (x >>= g) := by
  intro b b' c h
  obtain ⟨a, b₁, hxb, hgb⟩ := bind_eq_ok h
  obtain ⟨hbinding, hx⟩ := hx hxb
  obtain ⟨hbinding', hg⟩ := hg a hgb
  refine ⟨hbinding.trans hbinding', fun hF hfits κ hκ => ?_⟩
  obtain ⟨κ₁, hκ₁⟩ := hx (hbinding'.block.trans hF) hfits κ hκ
  exact hg hF hfits κ₁ hκ₁

/-- **One action after the other.** -/
theorem bind {g : α → Lower β} (hx : Knows C S [] j k₁ x) (hg : ∀ a, Knows C S L k₁ k (g a)) :
    Knows C S L j k (x >>= g) :=
  hx.append hg

theorem seq {x : Lower Unit} {g : Unit → Lower β} (hx : Knows C S [] j k₁ x)
    (hg : Knows C S L k₁ k (g ())) : Knows C S L j k (x >>= g) :=
  hx.append fun _ => hg

/-- Less may be known behind the action, and more before it. -/
theorem imp (hx : Knows C S L j k x) (hj : j → j') (hk : k₁ → k) : Knows C S L j' k₁ x := fun _ _ _ h =>
  have ⟨hbinding, hx⟩ := hx h
  ⟨hbinding, fun hF hfits κ hκ => (hx hF hfits κ (hκ.imp hj)).imp fun _ hκ' => hκ'.imp hk⟩

/-- Nothing is to be known behind the action. -/
theorem forget (hx : Knows C S L False False x) (hk : ¬k) : Knows C S L j k x :=
  hx.imp False.elim hk

/-- The labels may be listed otherwise. -/
theorem congr (hx : Knows C S' L j k x) (h : ∀ e, e ∈ S' ↔ e ∈ S) : Knows C S L j k x := by
  have hready {b : Builder} {j : Prop} {κ : Knowledge} {S S' : List (Label × Prop)}
      (h : ∀ e, e ∈ S' ↔ e ∈ S) (hκ : b.Ready C S j κ) : b.Ready C S' j κ :=
    { hκ with
      waits := fun hp hy hl => (hκ.waits hp hy hl).imp_left fun hmem => by
        obtain ⟨e, he, rfl⟩ := List.mem_map.mp hmem
        exact List.mem_map_of_mem ((h e).mpr he)
      offers := fun e he => hκ.offers e ((h e).mp he) }
  intro b b' a hxb
  obtain ⟨hbinding, hx⟩ := hx hxb
  exact ⟨hbinding, fun hF hfits κ hκ =>
    (hx hF hfits κ (hready h hκ)).imp fun _ => hready fun e => (h e).symm⟩

theorem throw (err : LowerError) : Knows C S L j k (throw err : Lower α) := by
  intro b b' a h
  cases h

/-- A change of the pools and the register file only. -/
theorem of_eq (h : ∀ b a b', x b = .ok a b' → ∃ B next, b' = ⟨B, b.items, b.labels, next⟩ ∧
    b.block.Grows B) : Knows C S [] j j x := by
  intro b b' a hx
  obtain ⟨B, next, rfl, hgrows⟩ := h b a b' hx
  exact ⟨⟨hgrows, Nat.le_refl _, Nat.le_refl _, fun hp => ⟨_, hp⟩, nofun⟩, fun _ _ κ hκ =>
    ⟨κ, hκ.items, hκ.labels, hκ.next, hκ.jump, hκ.plain, hκ.waits, hκ.bound, hκ.start, hκ.quiet,
      hκ.current, hκ.offers⟩⟩

theorem pure (a : α) : Knows C S [] j j (Pure.pure a : Lower α) :=
  of_eq fun b a b' h => by
    cases h
    exact ⟨_, _, rfl, .refl _⟩

theorem identifier (name : String) : Knows C S [] j j (Lower.identifier name) :=
  of_eq fun b a b' h => by
    cases h
    exact ⟨_, _, rfl, b.block.grows_addIdentifier name⟩

theorem constant (c : Constant) : Knows C S [] j j (Lower.constant c) :=
  of_eq fun b a b' h => by
    cases h
    exact ⟨_, _, rfl, b.block.grows_addConstant c⟩

theorem function (f : Block) : Knows C S [] j j (Lower.function f) :=
  of_eq fun b a b' h => by
    cases h
    exact ⟨_, _, rfl, b.block.grows_addFunction f⟩

theorem blockName : Knows C S [] j j Lower.blockName :=
  of_eq fun b a b' h => by
    cases h
    exact ⟨_, _, rfl, .refl _⟩

theorem mark : Knows C S [] j j Lower.mark :=
  of_eq fun b a b' h => by
    cases h
    exact ⟨_, _, rfl, .refl _⟩

theorem release (m : UInt16) : Knows C S [] j j (Lower.release m) :=
  of_eq fun b a b' h => by
    cases h
    exact ⟨_, _, rfl, .refl _⟩

theorem allocateRange (count : Nat) : Knows C S [] j j (Lower.allocateRange count) :=
  of_eq fun b a b' h => by
    have hgrows := (Safe.allocateRange (n := 0) (u := 0) count (Nat.zero_le _) (Nat.zero_le _) h).block
    unfold Lower.allocateRange at h
    dsimp only at h
    split at h
    · cases h
      exact ⟨_, _, rfl, hgrows⟩
    · cases h

/-- **An item.** It may go to a label only with what is known there. Under a quiet look nothing is known
any more about the position of the item. -/
theorem emitItem {y : Item}
    (hnext : ¬y.instr.Ends → k → y.instr.Yields C.final.finish C.register (j ∧ ¬C.quiet))
    (hlabel : match y.label with
      | some l => ∃ e, (l, e) ∈ S ∧ (e → y.instr.Yields C.final.finish C.register (j ∧ ¬C.quiet))
      | none => y.instr.target? = none) : Knows C S [] j k (Lower.emitItem y) := by
  intro b b' a h
  cases h
  have hsize : (b.items.push y).size = b.items.size + 1 := Array.size_push _
  refine ⟨⟨.refl _, ?_, Nat.le_refl _, fun hp => ⟨_, hp⟩, nofun⟩, fun _ _ κ hκ => ?_⟩
  · show b.items.size ≤ (b.items.push y).size
    omega
  let κ' : Knowledge :=
    ⟨fun p => if p = b.items.size + 1 then k else κ.position p ∧ ¬C.quiet, κ.label⟩
  have hlast : κ'.position (b.items.size + 1) = k := if_pos rfl
  have hold {p : Nat} (hp : p ≤ b.items.size) : κ'.position p = (κ.position p ∧ ¬C.quiet) :=
    if_neg (by omega)
  have hhere : j ∧ ¬C.quiet → κ'.position b.items.size := fun h => by
    rw [hold (Nat.le_refl _)]
    exact ⟨hκ.current h.1, h.2⟩
  have hitem {p : Nat} {z : Item} (hz : (b.items.push y)[p]? = some z) :
      p = b.items.size ∧ z = y ∨ p < b.items.size ∧ b.items[p]? = some z := by
    rw [Array.getElem?_push] at hz
    split at hz
    next heq =>
      cases hz
      exact .inl ⟨heq, rfl⟩
    next => exact .inr ⟨(Array.getElem?_eq_some_iff.mp hz).1, hz⟩
  refine ⟨κ', ⟨?_, hκ.labels, fun {p z} hp hz hends hk => ?_, fun {p z l} hp hz hl hknown => ?_,
    fun {p z} hp hz hl => ?_, fun {p z l} hp hz hl => ?_, fun {l q} hlow hq => ?_, ?_,
    fun hq => ⟨fun p hp => ?_, (hκ.quiet hq).2⟩, ?_, hκ.offers⟩⟩
  · show C.items ≤ (b.items.push y).size
    have := hκ.items
    omega
  · rcases hitem hz with ⟨rfl, rfl⟩ | ⟨hlt, hz⟩
    · rw [hlast] at hk
      exact (hnext hends hk).mono hhere
    · rw [hold hlt] at hk
      rw [hold (Nat.le_of_lt hlt)]
      exact (hκ.next hp hz hends hk.1).mono fun h => ⟨h, hk.2⟩
  · rcases hitem hz with ⟨rfl, rfl⟩ | ⟨hlt, hz⟩
    · rw [hl] at hlabel
      obtain ⟨e, he, hyields⟩ := hlabel
      have heq : κ.label l = e := (hκ.offers _ he).2
      exact (hyields (heq ▸ hknown)).mono hhere
    · rw [hold (Nat.le_of_lt hlt)]
      exact (hκ.jump hp hz hl hknown).mono fun h => ⟨h, fun hq => (hκ.quiet hq).2 l hknown⟩
  · rcases hitem hz with ⟨rfl, rfl⟩ | ⟨-, hz⟩
    · rwa [hl] at hlabel
    · exact hκ.plain hp hz hl
  · rcases hitem hz with ⟨rfl, rfl⟩ | ⟨-, hz⟩
    · rw [hl] at hlabel
      obtain ⟨e, he, -⟩ := hlabel
      exact .inl (List.mem_map_of_mem he)
    · exact hκ.waits hp hz hl
  · obtain ⟨hlow', hle, hknown⟩ := hκ.bound hlow hq
    refine ⟨hlow', ?_, ?_⟩
    · show q ≤ (b.items.push y).size
      omega
    · rw [hold hle]
      exact fun h => hknown h.1
  · rw [hold hκ.items]
    exact fun h => hκ.start h.1
  · show p = (b.items.push y).size
    by_cases heq : p = b.items.size + 1
    · omega
    · rw [show κ'.position p = (κ.position p ∧ ¬C.quiet) from if_neg heq] at hp
      exact absurd hq hp.2
  · intro hk
    show κ'.position (b.items.push y).size
    rwa [hsize, hlast]

/-- An instruction behind which nothing is known. -/
theorem emit {i : Instr} (htarget : i.target? = none) : Knows C S [] j False (Lower.emit i) :=
  emitItem (fun _ => False.elim) htarget

theorem popScope (hquiet : C.quiet → ¬j) : Knows C S [] j j (Lower.emit .popScope) :=
  emitItem (fun _ hj => ⟨hj, fun hq => hquiet hq hj⟩) rfl

/-- Behind an instruction that does not go on anything may be taken to be known. -/
theorem ends {i : Instr} (hi : i.Ends) (htarget : i.target? = none) :
    Knows C S [] j k (Lower.emit i) :=
  emitItem (fun h => (h hi).elim) htarget

theorem emitJump {i : Instr} {l : Label} (hl : (l, False) ∈ S) :
    Knows C S [] j False (Lower.emitJump i l) :=
  emitItem (fun _ => False.elim) ⟨False, hl, False.elim⟩

theorem jump {l : Label} (hl : (l, e) ∈ S) (he : e → j) (hquiet : C.quiet → ¬e) :
    Knows C S [] j k (Lower.jump l) :=
  emitItem (fun h => (h trivial).elim) ⟨e, hl, fun h => ⟨he h, fun hq => hquiet hq h⟩⟩

/-- Nothing is known behind a jump. -/
theorem jump_seq {l : Label} {g : Unit → Lower α} (hl : (l, e) ∈ S) (he : e → j) (hquiet : C.quiet → ¬e)
    (hg : Knows C S L False k (g ())) : Knows C S L j k (Lower.jump l >>= g) :=
  seq (jump hl he hquiet) hg

/-- The unit value is loaded. -/
theorem loadUnit {dst : Register} (hk : k → dst = C.register) :
    Knows C S [] j k (Lower.loadUnit dst) := by
  intro b b' a h
  obtain ⟨c, b₁, hc, h⟩ := bind_eq_ok h
  obtain ⟨hbinding, hconstant⟩ := constant (C := C) (S := S) (j := j) .unit hc
  have hload (known : k → C.final.finish.constant? c = some .unit) :
      Knows C S [] j k (Lower.emit (.loadConstant dst c)) :=
    emitItem (fun _ hk' => ⟨hk hk', known hk'⟩) rfl
  obtain ⟨hbinding', -⟩ := emit (C := C) (S := S) (j := j) (i := .loadConstant dst c) rfl h
  refine ⟨hbinding.trans hbinding', fun hF hfits κ hκ => ?_⟩
  have hgrows := hbinding'.block.trans hF
  obtain ⟨κ₁, hκ₁⟩ := hconstant hgrows hfits κ hκ
  have hpool : C.final.finish.constant? c = some .unit := by
    cases hc
    exact Block.constant?_addConstant (grows_finish hgrows) hfits.constants_le
  exact (hload (fun _ => hpool) h).2 hF hfits κ₁ hκ₁

/-- **A new label.** What is known where the code goes to it is chosen at once. -/
theorem newLabel {g : Label → Lower α} (e : Prop) (he : C.quiet → ¬e)
    (hg : ∀ l, Knows C ((l, e) :: S) (L ++ [l]) j k (g l)) : Knows C S L j k (Lower.newLabel >>= g) := by
  intro b b' a h
  let l : Label := ⟨b.labels.size⟩
  let b₁ : Builder := ⟨b.block, b.items, b.labels.push none, b.next⟩
  have hsize : b₁.labels.size = b.labels.size + 1 := Array.size_push _
  obtain ⟨hbinding, hg⟩ := hg l (b := b₁) h
  obtain ⟨q, hq⟩ := hbinding.bound l (List.mem_append_right _ List.mem_cons_self)
    (hsize ▸ Nat.lt_succ_self _)
  refine ⟨⟨hbinding.block, hbinding.items, ?_, fun {l' p} hp => hbinding.still (p := p) ?_,
    fun l' hl' hlt => ?_⟩, fun hF hfits κ hκ => ?_⟩
  · have := hbinding.labels
    omega
  · rw [position?_push]
    exact hp
  · exact hbinding.bound l' (List.mem_append_left _ hl') (by omega)
  let κ₁ : Knowledge := ⟨κ.position, fun l' => if l' = l then e else κ.label l'⟩
  have hnew : κ₁.label l = e := if_pos rfl
  have hold {l' : Label} (hlt : l'.number < b.labels.size) : κ₁.label l' = κ.label l' :=
    if_neg fun heq => absurd hlt (by rw [heq]; exact Nat.lt_irrefl _)
  have hknown {p : Nat} {y : Item} {l' : Label} (hp : C.items ≤ p) (hy : b.items[p]? = some y)
      (hl' : y.label = some l') : l'.number < b.labels.size := by
    rcases hκ.waits hp hy hl' with hS | ⟨-, q, hq⟩
    · obtain ⟨e', he', rfl⟩ := List.mem_map.mp hS
      exact (hκ.offers e' he').1
    · exact lt_of_position? hq
  have hκ₁ : b₁.Ready C ((l, e) :: S) j κ₁ := by
    refine ⟨hκ.items, ?_, hκ.next, fun hp hy hl' hk => ?_, hκ.plain, fun hp hy hl' => ?_,
      fun {l' q} hlow hq => ?_, hκ.start, fun hq => ⟨(hκ.quiet hq).1, fun l' h => ?_⟩, hκ.current, ?_⟩
    · have := hκ.labels
      omega
    · exact hκ.jump hp hy hl' (hold (hknown hp hy hl') ▸ hk)
    · refine (hκ.waits hp hy hl').imp (List.mem_cons_of_mem _) fun ⟨hlow, q, hq⟩ => ⟨hlow, q, ?_⟩
      rw [position?_push]
      exact hq
    · rw [position?_push] at hq
      rw [hold (lt_of_position? hq)]
      exact hκ.bound hlow hq
    · by_cases heq : l' = l
      · exact he hq (hnew ▸ heq ▸ h)
      · exact (hκ.quiet hq).2 l' ((if_neg heq : κ₁.label l' = κ.label l') ▸ h)
    · refine List.forall_mem_cons.mpr ⟨⟨hsize ▸ Nat.lt_succ_self _, hnew⟩, fun e' he' => ?_⟩
      obtain ⟨hlt, hlabel⟩ := hκ.offers e' he'
      exact ⟨by omega, (hold hlt).trans hlabel⟩
  obtain ⟨κ', hκ'⟩ := hg hF hfits κ₁ hκ₁
  refine ⟨κ', { hκ' with
    waits := fun hp hy hl' => ?_
    offers := fun e' he' => hκ'.offers e' (List.mem_cons_of_mem _ he') }⟩
  rcases hκ'.waits hp hy hl' with hS | hbound
  · rcases List.mem_cons.mp hS with rfl | hS
    · exact .inr ⟨hκ.labels, q, hq⟩
    · exact .inl hS
  · exact .inr hbound

/-- The label is bound where the code goes on: behind it no more is known than where it is gone to. -/
theorem bindLabel {l : Label} (hl : (l, e) ∈ S) (hk : k → j ∧ e) : Knows C S [l] j k (Lower.bind l) := by
  intro b b' a h
  cases h
  have hposition {l' : Label} {q : Nat} (hq : b.position? l' = some q) : ∃ q,
      position? ⟨b.block, b.items, b.labels.setIfInBounds l.number (some b.items.size), b.next⟩ l' =
        some q := by
    rw [position?_bind]
    split
    · exact ⟨_, rfl⟩
    · exact ⟨q, hq⟩
  have hsize : (b.labels.setIfInBounds l.number (some b.items.size)).size = b.labels.size :=
    Array.size_setIfInBounds
  refine ⟨⟨.refl _, Nat.le_refl _, Nat.le_of_eq hsize.symm, hposition, fun l' hl' hlt => ?_⟩,
    fun _ _ κ hκ => ?_⟩
  · obtain rfl := List.mem_singleton.mp hl'
    rw [position?_bind, if_pos ⟨rfl, hlt⟩]
    exact ⟨_, rfl⟩
  let κ' : Knowledge :=
    ⟨fun p => if p = b.items.size then κ.position p ∧ κ.label l else κ.position p, κ.label⟩
  have hle {p : Nat} (hp : κ'.position p) : κ.position p := by
    simp only [κ'] at hp
    split at hp
    · exact hp.1
    · exact hp
  have hold {p : Nat} (hp : p < b.items.size) : κ'.position p = κ.position p := if_neg (by omega)
  have hlt {p : Nat} {y : Item} (hy : b.items[p]? = some y) : p < b.items.size :=
    (Array.getElem?_eq_some_iff.mp hy).1
  refine ⟨κ', hκ.items, hsize.symm ▸ hκ.labels, fun hp hy hends hknown => ?_, fun hp hy hl' hknown => ?_,
    hκ.plain, fun hp hy hl' => ?_, fun {l' q} hlow hq => ?_, fun h => hκ.start (hle h),
    fun hq => ⟨fun p h => (hκ.quiet hq).1 p (hle h), (hκ.quiet hq).2⟩, fun h => ?_, fun e' he' => ?_⟩
  · rw [hold (hlt hy)]
    exact hκ.next hp hy hends (hle hknown)
  · rw [hold (hlt hy)]
    exact hκ.jump hp hy hl' hknown
  · exact (hκ.waits hp hy hl').imp_right fun ⟨hlow, q, hq⟩ => ⟨hlow, hposition hq⟩
  · rw [position?_bind] at hq
    split at hq
    next heq =>
      obtain rfl : l = l' := congrArg Label.mk heq.1
      cases hq
      refine ⟨hκ.items, Nat.le_refl _, fun h => ?_⟩
      rw [show κ'.position b.items.size = (κ.position b.items.size ∧ κ.label l) from if_pos rfl] at h
      exact h.2
    next =>
      obtain ⟨hlow', hle', hknown⟩ := hκ.bound hlow hq
      exact ⟨hlow', hle', fun h => hknown (hle h)⟩
  · show κ'.position b.items.size
    rw [show κ'.position b.items.size = (κ.position b.items.size ∧ κ.label l) from if_pos rfl]
    obtain ⟨hj, he⟩ := hk h
    exact ⟨hκ.current hj, (hκ.offers _ hl).2 ▸ he⟩
  · obtain ⟨hlt', hlabel⟩ := hκ.offers e' he'
    exact ⟨hsize.symm ▸ hlt', hlabel⟩

/-- The label to be bound first is bound. Nothing is known where it is gone to. -/
theorem bindLabel_seq {l : Label} {g : Unit → Lower α} (hl : (l, False) ∈ S)
    (hg : Knows C S L False k (g ())) : Knows C S (l :: L) j k (Lower.bind l >>= g) :=
  append (bindLabel hl False.elim) fun _ => hg

end Knows

/-- Code inside a scope binds its labels, and nothing is known behind it. -/
theorem knows_local (C : Part) (S₀ : List (Label × Prop)) :
    Local (fun _ => True) fun S L _ x => Knows C (S.map (·, False) ++ S₀) L False False x where
  pure a := .pure a
  bind hx hg := hx.bind hg
  emit {_ i} hi := .emit (by cases i <;> first | exact hi.elim | rfl)
  define _ _ := .bind (.identifier _) fun _ => .emit rfl
  infer _ _ _ := .seq (.emit rfl) <| .seq (.emit rfl) <| .emit rfl
  emitJump _ hl := .emitJump (List.mem_append_left _ (List.mem_map_of_mem hl))
  newLabel hg := .newLabel False (fun _ => id) hg
  bindLabel hl := .bindLabel (List.mem_append_left _ (List.mem_map_of_mem hl)) False.elim
  bindLabel_seq hl hx := .bindLabel_seq (List.mem_append_left _ (List.mem_map_of_mem hl)) hx
  identifier := .identifier
  constant := .constant
  allocateRange := .allocateRange
  giveBack hx := .bind Knows.mark fun _ => .seq hx <| .release _

/-- Code inside a scope. -/
theorem Knows.local (h : ∀ {K : List Label → List Label → {α : Type} → Lower α → Prop},
    Local (fun _ => True) K → K [] [] x) : Knows C S [] j False x :=
  Knows.imp (h (knows_local C S)) False.elim id

/-- Code inside a scope that may go to a label where nothing is known. -/
theorem Knows.localOr {l : Label} (hl : (l, False) ∈ S)
    (h : ∀ {K : List Label → List Label → {α : Type} → Lower α → Prop}, Local (fun _ => True) K → K [l] [] x) :
    Knows C S [] j False x := by
  have hx : Knows C ((l, False) :: S) [] False False x := h (knows_local C S)
  exact (hx.congr fun e => ⟨fun he => (List.mem_cons.mp he).elim (· ▸ hl) id, .tail _⟩).imp False.elim id

end Lower

/-! ## Statements -/

/-- The labels of the loop around a place. -/
def Place.labels (p : Place) : List Label :=
  match p.loop with
  | some l => [l.breakLabel, l.continueLabel]
  | none => []

namespace Lower

open Builder

variable {C : Part} {S : List (Label × Prop)} {j k : Prop} {p : Place}

/-- The code may go to the labels of the loop around, where nothing is known. -/
def Loops (p : Place) (S : List (Label × Prop)) : Prop := ∀ l ∈ p.labels, (l, False) ∈ S

theorem Loops.cons (h : Loops p S) (e : Label × Prop) : Loops p (e :: S) := fun l hl => .tail _ (h l hl)

theorem Loops.inLoop {exit next : Label} (hexit : (exit, False) ∈ S) (hnext : (next, False) ∈ S) :
    Loops (p.inLoop exit next) S :=
  List.forall_mem_cons.mpr ⟨hexit, List.forall_mem_singleton.mpr hnext⟩

theorem knows_letDecl (d : LetDecl) {dst : Register} (hk : k → dst = C.register) :
    Knows C S [] j k (letDecl p d dst) :=
  .seq (.local fun hK => hK.expr d.init dst) <| .seq (.local fun hK => hK.initCheck p d dst) <|
    .bind (.identifier _) fun _ => .seq (.emit rfl) <| .loadUnit hk

theorem knows_createFunction (name : String) (B : Block) : Knows C S [] j False (createFunction name B) :=
  .bind (.function B) fun _ => .bind .mark fun m => .bind (.allocateRange 1) fun _ =>
    .seq (.emit rfl) <| .bind (.identifier name) fun _ => .seq (.emit rfl) <| .release m

theorem knows_functions : (ds : List Decl) → Knows C S [] False False (functions p ds)
  | [] => by
    rw [functions]
    exact .pure ()
  | .fn head body :: ds => by
    rw [functions]
    intro b b' a h
    obtain ⟨B, b₁, hB, hrest⟩ := bind_eq_ok h
    obtain rfl := functionBlock_eq_ok hB
    exact (Knows.seq (knows_createFunction head.name B) (knows_functions ds)) hrest
  | .letDecl _ :: ds => by
    rw [functions_letDecl]
    exact knows_functions ds
  | .stmt _ :: ds => by
    rw [functions_stmt]
    exact knows_functions ds

theorem knows_sequence {functions declarations : Lower Unit} {isEmpty : Bool} {dst : Register}
    (hf : Knows C S [] False False functions) (hk : k → dst = C.register)
    (hd : isEmpty = false → Knows C S [] False k declarations) :
    Knows C S [] False k (sequence isEmpty functions declarations dst) := by
  refine .seq hf ?_
  cases isEmpty with
  | true => exact .loadUnit hk
  | false => exact hd rfl

theorem knows_closeScopes : (count : Nat) → Knows C S [] False False (closeScopes count)
  | 0 => .pure ()
  | count + 1 => .seq (.emit rfl) (knows_closeScopes count)

theorem knows_leaveScopes {choose : LoopLabels → Label}
    (h : ∀ l ∈ p.loop, (choose l, False) ∈ S) : Knows C S [] False k (leaveScopes p choose) := by
  rw [leaveScopes]
  split
  next => exact .bind .blockName fun _ => .throw _
  next l hl => exact .seq (knows_closeScopes _) <| .jump (h l hl) False.elim fun _ => id

theorem knows_loopBody {body : Register → Lower Unit}
    (hbody : ∀ r, Knows C S [] False False (body r)) : Knows C S [] False False (loopBody body) :=
  .bind .mark fun m => .bind (.allocateRange 1) fun r => .seq (hbody r) <| .release m

theorem knows_noMatch : Knows C S [] False k noMatch :=
  .bind (.constant _) fun j => .ends (i := .runtimeError j) trivial rfl

theorem knows_forInit (r : Register) : (init : Option ForInit) →
    Knows C S [] False False (forInit p r init)
  | none => .pure ()
  | some (.expr e) => .local fun hK => hK.expr e r
  | some (.letDecl _) => .local fun hK => hK.letDecl p trivial r

theorem Loops.mem {l : LoopLabels} (h : Loops p S) (hl : l ∈ p.loop) :
    (l.breakLabel, False) ∈ S ∧ (l.continueLabel, False) ∈ S := by
  have hlabels : p.labels = [l.breakLabel, l.continueLabel] := by rw [Place.labels, hl]
  rw [Loops, hlabels] at h
  exact ⟨h _ List.mem_cons_self, h _ (List.mem_cons_of_mem _ List.mem_cons_self)⟩

mutual

/-- **What is known behind the code of a statement**: if the statement has the form and leaves its value in
the register, then this holds the unit value. -/
theorem knows_stmt : (s : Stmt) → ∀ {S : List (Label × Prop)} {p : Place} {dst : Register} {k : Prop},
    Loops p S → (C.quiet → k → Decl.Valueless (.stmt s)) → (k → dst = C.register ∧ s.Voids) →
    Knows C S [] False k (stmt p s dst)
  | .empty _, _, _, _, _, _, _, hk => by
    rw [stmt]
    exact .loadUnit fun h => (hk h).1
  | .block body _, _, _, _, k, hp, hq, hk => by
    have hv : C.quiet → ¬k := hq
    rw [stmt]
    refine .seq (.emit rfl) <| .seq (knows_sequence (knows_functions body) (fun h => (hk h).1)
      fun hne => knows_decls body (List.isEmpty_eq_false_iff.mp hne) hp hv fun h => ?_) <| .popScope hv
    have := (hk h).2
    rw [Stmt.Voids] at this
    exact ⟨(hk h).1, this⟩
  | .ret value _, _, _, _, _, _, _, _ => by
    rw [stmt]
    exact .bind (.allocateRange 1) fun r => .seq (.local fun hK => hK.exprOrUnit r value) <|
      .ends trivial rfl
  | .cond c s none _, _, _, _, k, hp, hq, hk => by
    have hv : C.quiet → ¬k := hq
    have hs (h : k) := hk h
    simp only [Stmt.Voids] at hs
    rw [stmt]
    exact .bind (.allocateRange 1) fun r => .seq (.local fun hK => hK.expr c r) <|
      .newLabel False (fun _ => id) fun _ => .newLabel k hv fun _ =>
      .seq (.emitJump (.tail _ (.head _))) <|
      .seq (knows_stmt s ((hp.cons _).cons _) (fun h hk' => (hv h hk').elim) hs) <|
      .jump_seq (.head _) id hv <|
      .bindLabel_seq (.tail _ (.head _)) <|
      .seq (.loadUnit fun h => (hk h).1) <| .bindLabel (.head _) fun h => ⟨h, h⟩
  | .cond c s (some t) _, _, _, _, k, hp, hq, hk => by
    have hv : C.quiet → ¬k := hq
    have hst (h : k) := hk h
    simp only [Stmt.Voids] at hst
    rw [stmt]
    exact .bind (.allocateRange 1) fun r => .seq (.local fun hK => hK.expr c r) <|
      .newLabel False (fun _ => id) fun _ => .newLabel k hv fun _ =>
      .seq (.emitJump (.tail _ (.head _))) <|
      .seq (knows_stmt s ((hp.cons _).cons _) (fun h hk' => (hv h hk').elim)
        fun h => ⟨(hst h).1, (hst h).2.1⟩) <|
      .jump_seq (.head _) id hv <|
      .bindLabel_seq (.tail _ (.head _)) <|
      .seq (knows_stmt t ((hp.cons _).cons _) (fun h hk' => (hv h hk').elim)
        fun h => ⟨(hst h).1, (hst h).2.2⟩) <|
      .bindLabel (.head _) fun h => ⟨h, h⟩
  | .whileLoop c body _, _, _, _, _, _, _, hk => by
    rw [stmt]
    exact .newLabel False (fun _ => id) fun _ => .newLabel False (fun _ => id) fun _ =>
      .bindLabel_seq (.tail _ (.head _)) <|
      .bind (.allocateRange 1) fun r => .seq (.local fun hK => hK.expr c r) <|
      .seq (.emitJump (.head _)) <|
      .seq (knows_loopBody fun _ => knows_stmt body (.inLoop (.head _) (.tail _ (.head _)))
        (fun _ => False.elim) False.elim) <|
      .jump_seq (.tail _ (.head _)) False.elim (fun _ => id) <|
      .bindLabel_seq (.head _) <| .loadUnit fun h => (hk h).1
  | .forLoop init c increment body _, _, _, _, _, _, _, hk => by
    rw [stmt]
    exact .seq (.emit rfl) <| .bind (.allocateRange 1) fun r => .seq (knows_forInit r init) <|
      .newLabel False (fun _ => id) fun _ => .newLabel False (fun _ => id) fun _ =>
      .newLabel False (fun _ => id) fun _ =>
      .bindLabel_seq (.tail _ (.tail _ (.head _))) <|
      .seq (.localOr (.head _) fun hK => hK.loopTest (.head _) r c) <|
      .seq (knows_loopBody fun _ => knows_stmt body (.inLoop (.head _) (.tail _ (.head _)))
        (fun _ => False.elim) False.elim) <|
      .bindLabel_seq (.tail _ (.head _)) <|
      .seq (.local fun hK => hK.forNext r increment) <|
      .jump_seq (.tail _ (.tail _ (.head _))) False.elim (fun _ => id) <|
      .bindLabel_seq (.head _) <| .seq (.emit rfl) <|
      .loadUnit fun h => (hk h).1
  | .breakLoop _, _, _, _, _, hp, _, _ => by
    rw [stmt]
    exact knows_leaveScopes fun l hl => (hp.mem hl).1
  | .continueLoop _, _, _, _, _, hp, _, _ => by
    rw [stmt]
    exact knows_leaveScopes fun l hl => (hp.mem hl).2
  | .cases scrutinee cs none _, _, _, _, k, hp, hq, hk => by
    have hv : C.quiet → ¬k := hq
    have hs (h : k) := hk h
    simp only [Stmt.Voids] at hs
    rw [stmt]
    exact .bind (.allocateRange 1) fun r => .seq (.local fun hK => hK.expr scrutinee r) <|
      .newLabel k hv fun _ => .seq (knows_matchCases cs (hp.cons _) (.head _) hv hs) <|
      .seq knows_noMatch <| .bindLabel (.head _) fun h => ⟨h, h⟩
  | .cases scrutinee cs (some s) _, _, _, _, k, hp, hq, hk => by
    have hv : C.quiet → ¬k := hq
    have hs (h : k) := hk h
    simp only [Stmt.Voids] at hs
    rw [stmt]
    exact .bind (.allocateRange 1) fun r => .seq (.local fun hK => hK.expr scrutinee r) <|
      .newLabel k hv fun _ =>
      .seq (knows_matchCases cs (hp.cons _) (.head _) hv fun h => ⟨(hs h).1, (hs h).2.1⟩) <|
      .seq (knows_stmt s (hp.cons _) (fun h hk' => (hv h hk').elim)
        fun h => ⟨(hs h).1, (hs h).2.2⟩) <|
      .bindLabel (.head _) fun h => ⟨h, h⟩
  | .expr e, _, _, dst, _, _, _, hk => by
    rw [stmt]
    refine .forget (.local fun hK => hK.expr e dst) fun h => ?_
    have := (hk h).2
    rwa [Stmt.Voids] at this

/-- The label that a case goes to in the end is that of the whole match. -/
theorem knows_matchCases : (cs : List (Pattern × Stmt)) → ∀ {S : List (Label × Prop)} {p : Place}
    {scrutinee dst : Register} {done : Label} {k : Prop}, Loops p S → (done, k) ∈ S → (C.quiet → ¬k) →
    (k → dst = C.register ∧ Stmt.VoidsCases cs) →
    Knows C S [] False False (matchCases p scrutinee done cs dst)
  | [], _, _, _, _, _, _, _, _, _, _ => by
    rw [matchCases]
    exact .pure ()
  | (pat, s) :: cs, _, _, scrutinee, _, _, k, hp, hdone, hv, hk => by
    have hs (h : k) := hk h
    simp only [Stmt.VoidsCases] at hs
    rw [matchCases]
    exact .bind .mark fun m => .newLabel False (fun _ => id) fun _ => .seq (.emit rfl) <|
      .seq (.localOr (.head _) fun hK => hK.pattern pat (fun _ _ => trivial) scrutinee (.head _)) <|
      .seq (knows_stmt s (p := Place.deeper _) (hp.cons _) (fun h hk' => (hv h hk').elim)
        fun h => ⟨(hs h).1, (hs h).2.1⟩) <|
      .seq (.popScope hv) <| .jump_seq (.tail _ hdone) id hv <|
      .bindLabel_seq (.head _) <| .seq (.emit rfl) <| .seq (.release m) <|
      knows_matchCases cs (hp.cons _) (.tail _ hdone) hv fun h => ⟨(hs h).1, (hs h).2.2⟩

/-- A block completes as its last declaration does. -/
theorem knows_decls : (ds : List Decl) → ds ≠ [] → ∀ {S : List (Label × Prop)} {p : Place}
    {dst : Register} {k : Prop}, Loops p S → (C.quiet → ¬k) →
    (k → dst = C.register ∧ Decl.VoidsLast ds) → Knows C S [] False k (decls p ds dst)
  | [], hne, _, _, _, _, _, _, _ => absurd rfl hne
  | [d], _, _, _, _, _, hp, hv, hk => by
    rw [decls]
    exact .bind .mark fun m => .seq (knows_decl d hp (fun h hk' => (hv h hk').elim) hk) <| .seq (.release m) <| by
      rw [decls]
      exact .pure ()
  | d :: d' :: ds, _, _, _, _, _, hp, hv, hk => by
    rw [decls]
    exact .bind .mark fun m => .seq (knows_decl d hp (fun _ => False.elim) False.elim) <|
      .seq (.release m) <| knows_decls (d' :: ds) (List.cons_ne_nil _ _) hp hv hk

theorem knows_decl : (d : Decl) → ∀ {S : List (Label × Prop)} {p : Place} {dst : Register} {k : Prop},
    Loops p S → (C.quiet → k → d.Valueless) → (k → dst = C.register ∧ d.Voids) →
    Knows C S [] False k (decl p d dst)
  | .letDecl d, _, _, _, _, _, _, hk => by
    rw [decl]
    exact knows_letDecl d fun h => (hk h).1
  | .fn .., _, _, _, _, _, _, hk => by
    rw [decl]
    exact .loadUnit fun h => (hk h).1
  | .stmt s, _, _, _, _, hp, hq, hk => by
    rw [decl]
    exact knows_stmt s hp hq hk

end

end Lower

end Reified
