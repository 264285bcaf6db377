import Reified.Proofs.Lowering.Function
import Reified.Proofs.Lowering.Local
import Reified.Typing.Loops

/-!
# Code that does not leave a loop

Jumps to the label behind a loop are emitted only for its test and for the `break` statements that belong
to it. Expressions jump to labels of their own, a nested loop has two of its own, and the functions of a
block are code of other blocks. So where no `break` leaves the body of a loop, as its form tells, no jump to
the label behind the loop is emitted for the body.

## Main definitions

* `Lower.Avoids` — code that does not go to a label

## Main results

* `Lower.avoids_stmt` — the code of a statement goes to the label of a `break` only if one leaves it
-/

namespace Reified.Lower

variable {α β : Type} {l : Label} {x : Lower α}

/-- The action does not emit a jump to a label that is there already. -/
def Avoids (l : Label) (x : Lower α) : Prop :=
  ∀ ⦃b b' : Builder⦄ ⦃a : α⦄, l.number < b.labels.size → x b = .ok a b' →
    l.number < b'.labels.size ∧ (∀ {p : Nat} {y : Item}, b.items[p]? = some y → b'.items[p]? = some y) ∧
      ∀ {p : Nat} {y : Item}, b.items.size ≤ p → b'.items[p]? = some y → y.label ≠ some l

namespace Avoids

/-- **One action after the other.** -/
theorem bind {g : α → Lower β} (hx : Avoids l x) (hg : ∀ a, Avoids l (g a)) : Avoids l (x >>= g) := by
  intro b b' c hlt h
  obtain ⟨a, b₁, hxb, hgb⟩ := bind_eq_ok h
  obtain ⟨hlt₁, hkept₁, hnew₁⟩ := hx hlt hxb
  obtain ⟨hlt', hkept, hnew⟩ := hg a hlt₁ hgb
  refine ⟨hlt', hkept ∘ hkept₁, fun {p y} hp hy => ?_⟩
  rcases Nat.lt_or_ge p b₁.items.size with hpos | hpos
  · -- The item is one of the first action.
    have hy₁ : b₁.items[p]? = some b₁.items[p] := Array.getElem?_eq_getElem hpos
    cases (hkept hy₁).symm.trans hy
    exact hnew₁ hp hy₁
  · exact hnew hpos hy

theorem seq {x : Lower Unit} {g : Unit → Lower β} (hx : Avoids l x) (hg : Avoids l (g ())) :
    Avoids l (x >>= g) :=
  hx.bind fun _ => hg

theorem throw (err : LowerError) : Avoids l (throw err : Lower α) := by
  intro b b' a _ h
  cases h

/-- An action that emits nothing. -/
theorem of_items (h : ∀ b a b', x b = .ok a b' → b'.items = b.items ∧ b'.labels.size = b.labels.size) :
    Avoids l x := by
  intro b b' a hlt hx
  obtain ⟨hitems, hlabels⟩ := h b a b' hx
  rw [hitems]
  exact ⟨hlabels ▸ hlt, id, fun hp hy => absurd (Array.getElem?_eq_some_iff.mp hy).1 (by omega)⟩

theorem pure (a : α) : Avoids l (Pure.pure a : Lower α) :=
  of_items fun b a b' h => by
    cases h
    exact ⟨rfl, rfl⟩

theorem identifier (name : String) : Avoids l (Lower.identifier name) :=
  of_items fun b a b' h => by
    cases h
    exact ⟨rfl, rfl⟩

theorem constant (c : Constant) : Avoids l (Lower.constant c) :=
  of_items fun b a b' h => by
    cases h
    exact ⟨rfl, rfl⟩

theorem function (f : Block) : Avoids l (Lower.function f) :=
  of_items fun b a b' h => by
    cases h
    exact ⟨rfl, rfl⟩

theorem blockName : Avoids l Lower.blockName :=
  of_items fun b a b' h => by
    cases h
    exact ⟨rfl, rfl⟩

theorem mark : Avoids l Lower.mark :=
  of_items fun b a b' h => by
    cases h
    exact ⟨rfl, rfl⟩

theorem release (m : UInt16) : Avoids l (Lower.release m) :=
  of_items fun b a b' h => by
    cases h
    exact ⟨rfl, rfl⟩

theorem bindLabel (l' : Label) : Avoids l (Lower.bind l') :=
  of_items fun b a b' h => by
    cases h
    exact ⟨rfl, Array.size_setIfInBounds⟩

theorem allocateRange (count : Nat) : Avoids l (Lower.allocateRange count) :=
  of_items fun b a b' h => by
    unfold Lower.allocateRange at h
    dsimp only at h
    split at h
    · cases h
      exact ⟨rfl, rfl⟩
    · cases h

/-- An item that goes to no label, or to another one. -/
theorem emitItem {y : Item} (hy : y.label ≠ some l) : Avoids l (Lower.emitItem y) := by
  intro b b' a hlt h
  cases h
  refine ⟨hlt, fun {p z} hz => ?_, fun {p z} hp hz => ?_⟩
  · show (b.items.push y)[p]? = some z
    rw [Array.getElem?_push_lt (Array.getElem?_eq_some_iff.mp hz).1]
    exact congrArg some (Array.getElem?_eq_some_iff.mp hz).2
  · replace hz : (b.items.push y)[p]? = some z := hz
    rw [Array.getElem?_push] at hz
    split at hz
    next =>
      cases hz
      exact hy
    next => exact absurd (Array.getElem?_eq_some_iff.mp hz).1 (by omega)

theorem emit (i : Instr) : Avoids l (Lower.emit i) := emitItem nofun

theorem emitJump {i : Instr} {l' : Label} (h : l' ≠ l) : Avoids l (Lower.emitJump i l') :=
  emitItem fun heq => h (Option.some.inj heq)

/-- A new label is another one. -/
theorem newLabel {g : Label → Lower α} (hg : ∀ l', l' ≠ l → Avoids l (g l')) :
    Avoids l (Lower.newLabel >>= g) := by
  intro b b' a hlt h
  have hne : (⟨b.labels.size⟩ : Label) ≠ l := fun heq => Nat.lt_irrefl _ (heq ▸ hlt)
  have hlt' : l.number < (b.labels.push none).size := by
    rw [Array.size_push]
    omega
  exact hg ⟨b.labels.size⟩ hne (b := ⟨b.block, b.items, b.labels.push none, b.next⟩) hlt' h

end Avoids

/-- Code inside a scope goes only to the labels that it is given. -/
theorem avoids_local (l : Label) : Local (fun _ => True) fun S _ _ x => l ∉ S → Avoids l x where
  pure a _ := .pure a
  bind hx hg hl := .bind (hx hl) fun a => hg a hl
  emit _ _ := .emit _
  define _ _ _ := .bind (.identifier _) fun _ => .emit _
  infer _ _ _ _ := .seq (.emit _) <| .seq (.emit _) <| .emit _
  emitJump _ hmem hl := .emitJump fun heq => hl (heq ▸ hmem)
  newLabel hg hl := .newLabel fun l' hne => hg l' (List.not_mem_cons_of_ne_of_not_mem hne.symm hl)
  bindLabel _ _ := .bindLabel _
  bindLabel_seq _ hx hl := .seq (.bindLabel _) (hx hl)
  identifier _ _ := .identifier _
  constant _ _ := .constant _
  allocateRange _ _ := .allocateRange _
  giveBack hx hl := .bind .mark fun m => .seq (hx hl) <| .release m

/-- Code inside a scope. -/
theorem Avoids.local (h : ∀ {K : List Label → List Label → {α : Type} → Lower α → Prop},
    Local (fun _ => True) K → K [] [] x) : Avoids l x :=
  h (avoids_local l) List.not_mem_nil

/-- Code inside a scope that may go to another label. -/
theorem Avoids.localOr {l' : Label} (hne : l' ≠ l)
    (h : ∀ {K : List Label → List Label → {α : Type} → Lower α → Prop}, Local (fun _ => True) K → K [l'] [] x) :
    Avoids l x :=
  h (avoids_local l) fun hmem => hne (List.mem_singleton.mp hmem).symm

/-! ## Statements -/

section

variable {p : Place}

theorem avoids_createFunction (name : String) (B : Block) : Avoids l (createFunction name B) :=
  .bind (.function B) fun _ => .bind .mark fun m => .bind (.allocateRange 1) fun _ =>
    .seq (.emit _) <| .bind (.identifier name) fun _ => .seq (.emit _) <| .release m

/-- The functions of a block are code of other blocks. -/
theorem avoids_functions : (ds : List Decl) → Avoids l (functions p ds)
  | [] => by
    rw [functions]
    exact .pure ()
  | .fn head body :: ds => by
    rw [functions]
    exact .bind (.of_items fun b B b' h => functionBlock_eq_ok h ▸ ⟨rfl, rfl⟩) fun B =>
      .seq (avoids_createFunction head.name B) (avoids_functions ds)
  | .letDecl _ :: ds => by
    rw [functions_letDecl]
    exact avoids_functions ds
  | .stmt _ :: ds => by
    rw [functions_stmt]
    exact avoids_functions ds

theorem avoids_sequence {functions declarations : Lower Unit} {isEmpty : Bool} {dst : Register}
    (hf : Avoids l functions) (hd : Avoids l declarations) :
    Avoids l (sequence isEmpty functions declarations dst) := by
  refine .seq hf ?_
  cases isEmpty with
  | true => exact .local fun hK => hK.loadUnit dst
  | false => exact hd

theorem avoids_closeScopes : (count : Nat) → Avoids l (closeScopes count)
  | 0 => .pure ()
  | count + 1 => .seq (.emit _) (avoids_closeScopes count)

theorem avoids_leaveScopes {choose : LoopLabels → Label} (h : ∀ labels ∈ p.loop, choose labels ≠ l) :
    Avoids l (leaveScopes p choose) := by
  rw [leaveScopes]
  split
  next => exact .bind .blockName fun _ => .throw _
  next labels hlabels => exact .seq (avoids_closeScopes _) <| .emitJump (h labels hlabels)

theorem avoids_loopBody {body : Register → Lower Unit} (h : ∀ r, Avoids l (body r)) :
    Avoids l (loopBody body) :=
  .bind .mark fun m => .bind (.allocateRange 1) fun r => .seq (h r) <| .release m

end

/-- At the place a label is neither where the next round of the loop around begins, nor where a `break`
goes to, should there be one. -/
def Spares (p : Place) (l : Label) (breaks : Bool) : Prop :=
  ∀ labels ∈ p.loop, labels.continueLabel ≠ l ∧ (breaks = true → labels.breakLabel ≠ l)

theorem Spares.imp {p : Place} {breaks breaks' : Bool} (h : Spares p l breaks)
    (hb : breaks' = true → breaks = true) : Spares p l breaks' :=
  fun labels hlabels => ⟨(h labels hlabels).1, fun hbreaks => (h labels hlabels).2 (hb hbreaks)⟩

theorem Spares.left {p : Place} {breaks breaks' : Bool} (h : Spares p l (breaks || breaks')) :
    Spares p l breaks :=
  h.imp fun hb => Bool.or_eq_true_iff.mpr (.inl hb)

theorem Spares.right {p : Place} {breaks breaks' : Bool} (h : Spares p l (breaks || breaks')) :
    Spares p l breaks' :=
  h.imp fun hb => Bool.or_eq_true_iff.mpr (.inr hb)

/-- The labels of a nested loop are other ones. -/
theorem Spares.inLoop {p : Place} {exit next : Label} (hexit : exit ≠ l) (hnext : next ≠ l) (breaks : Bool) :
    Spares (p.inLoop exit next) l breaks := by
  rintro _ ⟨⟩
  exact ⟨hnext, fun _ => hexit⟩

mutual

/-- **The code of a statement** goes to the label behind the loop around only if a `break` leaves the
statement, whatever loops and functions are inside. -/
theorem avoids_stmt : (s : Stmt) → ∀ {p : Place}, Spares p l s.breaksOut → ∀ dst, Avoids l (stmt p s dst)
  | .empty _, _, _, dst => by
    rw [stmt]
    exact .local fun hK => hK.loadUnit dst
  | .block body _, _, h, dst => by
    rw [Stmt.breaksOut] at h
    rw [stmt]
    exact .seq (.emit _) <| .seq (avoids_sequence (avoids_functions body)
      (avoids_decls body (p := Place.deeper _) h dst)) <| .emit _
  | .ret value _, p, _, _ => by
    have hvalue (r : Register) : Avoids l (exprOrUnit p.implicit r value) :=
      .local fun hK => hK.exprOrUnit r value
    rw [stmt]
    exact .bind (.allocateRange 1) fun r => .seq (hvalue r) <| .emit _
  | .cond c s none _, _, h, dst => by
    rw [Stmt.breaksOut] at h
    rw [stmt]
    exact .bind (.allocateRange 1) fun r => .seq (.local fun hK => hK.expr c r) <|
      .newLabel fun _ hotherwise => .newLabel fun _ hdone => .seq (.emitJump hotherwise) <|
      .seq (avoids_stmt s h dst) <| .seq (.emitJump hdone) <| .seq (.bindLabel _) <|
      .seq (.local fun hK => hK.loadUnit dst) <| .bindLabel _
  | .cond c s (some t) _, _, h, dst => by
    rw [Stmt.breaksOut] at h
    rw [stmt]
    exact .bind (.allocateRange 1) fun r => .seq (.local fun hK => hK.expr c r) <|
      .newLabel fun _ hotherwise => .newLabel fun _ hdone => .seq (.emitJump hotherwise) <|
      .seq (avoids_stmt s h.left dst) <| .seq (.emitJump hdone) <| .seq (.bindLabel _) <|
      .seq (avoids_stmt t h.right dst) <| .bindLabel _
  | .whileLoop c body _, _, _, dst => by
    rw [stmt]
    exact .newLabel fun _ hstart => .newLabel fun _ hexit => .seq (.bindLabel _) <|
      .bind (.allocateRange 1) fun r => .seq (.local fun hK => hK.expr c r) <| .seq (.emitJump hexit) <|
      .seq (avoids_loopBody fun r => avoids_stmt body (.inLoop hexit hstart _) r) <|
      .seq (.emitJump hstart) <| .seq (.bindLabel _) <| .local fun hK => hK.loadUnit dst
  | .forLoop init c increment body _, p, _, dst => by
    rw [stmt]
    exact .seq (.emit _) <| .bind (.allocateRange 1) fun r =>
      .seq (.local fun hK => hK.forInit p.deeper r init fun _ _ => trivial) <|
      .newLabel fun _ hstart => .newLabel fun _ hnext => .newLabel fun _ hexit => .seq (.bindLabel _) <|
      .seq (.localOr hexit fun hK => hK.loopTest (.head _) r c) <|
      .seq (avoids_loopBody fun r => avoids_stmt body (.inLoop hexit hnext _) r) <|
      .seq (.bindLabel _) <| .seq (.local fun hK => hK.forNext r increment) <| .seq (.emitJump hstart) <|
      .seq (.bindLabel _) <| .seq (.emit _) <| .local fun hK => hK.loadUnit dst
  | .breakLoop _, _, h, _ => by
    rw [Stmt.breaksOut] at h
    rw [stmt]
    exact avoids_leaveScopes fun labels hlabels => (h labels hlabels).2 rfl
  | .continueLoop _, _, h, _ => by
    rw [stmt]
    exact avoids_leaveScopes fun labels hlabels => (h labels hlabels).1
  | .cases scrutinee cs none _, _, h, dst => by
    rw [Stmt.breaksOut] at h
    rw [stmt]
    exact .bind (.allocateRange 1) fun r => .seq (.local fun hK => hK.expr scrutinee r) <|
      .newLabel fun _ hdone => .seq (avoids_matchCases cs h r hdone dst) <|
      .seq (.local fun hK => hK.noMatch) <| .bindLabel _
  | .cases scrutinee cs (some s) _, _, h, dst => by
    rw [Stmt.breaksOut] at h
    rw [stmt]
    exact .bind (.allocateRange 1) fun r => .seq (.local fun hK => hK.expr scrutinee r) <|
      .newLabel fun _ hdone => .seq (avoids_matchCases cs h.left r hdone dst) <|
      .seq (avoids_stmt s h.right dst) <| .bindLabel _
  | .expr e, _, _, dst => by
    rw [stmt]
    exact .local fun hK => hK.expr e dst

theorem avoids_matchCases : (cs : List (Pattern × Stmt)) → ∀ {p : Place},
    Spares p l (Stmt.anyCaseBreaksOut cs) → ∀ (scrutinee : Register) {done : Label}, done ≠ l →
    ∀ dst, Avoids l (matchCases p scrutinee done cs dst)
  | [], _, _, _, _, _, _ => by
    rw [matchCases]
    exact .pure ()
  | (pat, s) :: cs, _, h, scrutinee, _, hdone, dst => by
    rw [Stmt.anyCaseBreaksOut] at h
    rw [matchCases]
    exact .bind .mark fun m => .newLabel fun _ hfailed => .seq (.emit _) <|
      .seq (.localOr hfailed fun hK => hK.pattern pat (fun _ _ => trivial) scrutinee (.head _)) <|
      .seq (avoids_stmt s (p := Place.deeper _) h.left dst) <| .seq (.emit _) <| .seq (.emitJump hdone) <|
      .seq (.bindLabel _) <| .seq (.emit _) <| .seq (.release m) <|
      avoids_matchCases cs h.right scrutinee hdone dst

theorem avoids_decls : (ds : List Decl) → ∀ {p : Place}, Spares p l (Stmt.anyBreaksOut ds) → ∀ dst,
    Avoids l (decls p ds dst)
  | [], _, _, _ => by
    rw [decls]
    exact .pure ()
  | .letDecl d :: ds, p, h, dst => by
    rw [Stmt.anyBreaksOut] at h
    · rw [decls, decl]
      exact .bind .mark fun m => .seq (.local fun hK => hK.letDecl p trivial dst) <| .seq (.release m) <|
        avoids_decls ds h dst
    · nofun
  | .fn .. :: ds, _, h, dst => by
    rw [Stmt.anyBreaksOut] at h
    · rw [decls, decl]
      exact .bind .mark fun m => .seq (.local fun hK => hK.loadUnit dst) <| .seq (.release m) <|
        avoids_decls ds h dst
    · nofun
  | .stmt s :: ds, _, h, dst => by
    rw [Stmt.anyBreaksOut] at h
    rw [decls, decl]
    exact .bind .mark fun m => .seq (avoids_stmt s h.left dst) <| .seq (.release m) <|
      avoids_decls ds h.right dst

end

end Reified.Lower
