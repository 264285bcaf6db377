import Reified.Proofs.Lowering.Emits
import Reified.Proofs.Lowering.Function
import Reified.Proofs.Lowering.Local
import Reified.Proofs.Typing.Enclosed

/-!
# Emitting code fails only for want of registers

Apart from the register file, code generation asks four things of a tree: functions have signatures,
jumps stand in loops, the variables of a signature have been made before they are used, and a type is
built only if its variables have values. The first two are seen to by checking; the last two by code
generation itself, which makes all variables of a signature first and leaves other types alone unless
they can be built.

A jump is emitted to a label, and whoever hands out a label binds it. So no jump waits for its target
when the code is complete.

## Main definitions

* `Builder.Awaits`, `Builder.Complete` — the labels for which jumps wait
* `Lower.Completes` — an action fails only for want of registers, and binds its labels
* `Lower.functionBuilder`, `Program.builder` — the code of a function and of a program, when it is complete

## Main results

* `Lower.completes_stmt`, `Lower.completes_functions` — the code for statements and functions
* `Lower.functionBuilder_complete`, `Program.builder_complete` — no jump waits for its target
-/

namespace Reified

/-! ## Waiting jumps -/

namespace Builder

/-- The label has a position. -/
def Binds (b : Builder) (l : Label) : Prop := (b.position? l).isSome = true

/-- Only instructions that can jump have labels, and these are bound or in the list. -/
def Awaits (b : Builder) (S : List Label) : Prop :=
  ∀ x ∈ b.items, ∀ l, x.label = some l → x.instr.Jumps ∧ (b.Binds l ∨ l ∈ S)

/-- No jump waits for its target. -/
def Complete (b : Builder) : Prop :=
  ∀ x ∈ b.items, ∀ l, x.label = some l → x.instr.Jumps ∧ ∃ p, b.position? l = some p

/-- A later builder: the labels of `L` have been bound, and jumps wait for labels of `S` at most. -/
structure Settles (S L : List Label) (b b' : Builder) : Prop where
  labels : b.labels.size ≤ b'.labels.size
  binds : ∀ {l : Label}, b.Binds l → b'.Binds l
  bound : ∀ l ∈ L, l.number < b.labels.size → b'.Binds l
  awaits : b.Awaits S → b'.Awaits S

variable {b b₁ b' : Builder} {S L : List Label} {l : Label}

theorem Awaits.complete (h : b.Awaits []) : b.Complete := fun x hx l hl =>
  have ⟨hjumps, hbound⟩ := h x hx l hl
  ⟨hjumps, Option.isSome_iff_exists.mp (hbound.resolve_right List.not_mem_nil)⟩

theorem awaits_new (name : String) (count : UInt32) : (new name count).Awaits S :=
  fun x hx => absurd hx (Array.not_mem_empty x)

/-- A change of the pools and the register file only. -/
theorem Settles.of_eq {B : Block} {next : UInt16} : Settles S [] b ⟨B, b.items, b.labels, next⟩ :=
  ⟨Nat.le_refl _, id, fun _ hl => absurd hl List.not_mem_nil, id⟩

theorem Settles.trans (h : Settles S [] b b₁) (h' : Settles S L b₁ b') : Settles S L b b' :=
  ⟨Nat.le_trans h.labels h'.labels, h'.binds ∘ h.binds,
    fun l hl hlt => h'.bound l hl (Nat.lt_of_lt_of_le hlt h.labels), h'.awaits ∘ h.awaits⟩

end Builder

namespace Lower

open Builder

variable {α β : Type} {S L : List Label} {Q : α → Prop} {R : β → Prop}

/-! ## Actions -/

/-- The action fails only for want of registers. If it succeeds, its answer has the property, the labels
of `L` are bound, and jumps wait for labels of `S` at most. -/
def Completes (S L : List Label) (Q : α → Prop) (x : Lower α) : Prop :=
  ∀ b, match x b with
    | .ok a b' => Q a ∧ b.Settles S L b'
    | .error e _ => ∃ name, e = .registersExhausted name

/-- Nothing is said of the answer. -/
abbrev CompletesOnly (S L : List Label) {α : Type} (x : Lower α) : Prop := Completes S L (fun _ => True) x

namespace Completes

variable {x : Lower α} {g : α → Lower β}

/-- **One action after the other.** -/
theorem bind (hx : Completes S [] Q x) (hg : ∀ a, Q a → Completes S L R (g a)) :
    Completes S L R (x >>= g) := by
  intro b
  have h1 := hx b
  show match EStateM.bind x g b with
    | .ok c b' => R c ∧ b.Settles S L b'
    | .error e _ => ∃ name, e = .registersExhausted name
  rw [EStateM.bind]
  cases hxb : x b with
  | ok a b₁ =>
    rw [hxb] at h1
    have h2 := hg a h1.1 b₁
    cases hgb : g a b₁ with
    | ok c b' =>
      rw [hgb] at h2
      simp only [hgb]
      exact ⟨h2.1, h1.2.trans h2.2⟩
    | error e b' =>
      rw [hgb] at h2
      simp only [hgb]
      exact h2
  | error e b₁ =>
    rw [hxb] at h1
    exact h1

theorem mono {Q' : α → Prop} (hx : Completes S L Q x) (h : ∀ a, Q a → Q' a) : Completes S L Q' x := by
  intro b
  have h1 := hx b
  cases hxb : x b with
  | ok a b' =>
    rw [hxb] at h1
    exact ⟨h a h1.1, h1.2⟩
  | error e b' =>
    rw [hxb] at h1
    exact h1

/-- A change of the pools and the register file only. -/
theorem of_eq (h : ∀ b, ∃ a B next, x b = .ok a ⟨B, b.items, b.labels, next⟩ ∧ Q a) :
    Completes S [] Q x := by
  intro b
  obtain ⟨a, B, next, hx, ha⟩ := h b
  rw [hx]
  exact ⟨ha, .of_eq⟩

theorem pure {a : α} (ha : Q a) : Completes S [] Q (Pure.pure a) :=
  of_eq fun b => ⟨a, b.block, b.next, rfl, ha⟩

theorem emitItem {y : Item} (hy : ∀ l, y.label = some l → y.instr.Jumps ∧ l ∈ S) :
    CompletesOnly S [] (Lower.emitItem y) := by
  intro b
  refine ⟨trivial, Nat.le_refl _, id, fun _ hl => absurd hl List.not_mem_nil, fun hb x hx l hl => ?_⟩
  rcases Array.mem_push.mp hx with hx | rfl
  · exact hb x hx l hl
  · exact ⟨(hy l hl).1, .inr (hy l hl).2⟩

theorem emit (i : Instr) : CompletesOnly S [] (Lower.emit i) := emitItem nofun

theorem emitJump {i : Instr} {l : Label} (hi : i.Jumps) (hl : l ∈ S) :
    CompletesOnly S [] (Lower.emitJump i l) :=
  emitItem fun l' h => by
    cases h
    exact ⟨hi, hl⟩

/-- **A new label.** Jumps may wait for it as long as the actions that follow bind it. -/
theorem newLabel {g : Label → Lower α} (hg : ∀ l, Completes (l :: S) (L ++ [l]) Q (g l)) :
    Completes S L Q (Lower.newLabel >>= g) := by
  intro b
  have hsize : (b.labels.push none).size = b.labels.size + 1 := Array.size_push _
  have hstep : (Lower.newLabel >>= g) b =
      g ⟨b.labels.size⟩ ⟨b.block, b.items, b.labels.push none, b.next⟩ := rfl
  have h1 := hg ⟨b.labels.size⟩ ⟨b.block, b.items, b.labels.push none, b.next⟩
  rw [hstep]
  cases hgb : g ⟨b.labels.size⟩ ⟨b.block, b.items, b.labels.push none, b.next⟩ with
  | error e b' =>
    rw [hgb] at h1
    exact h1
  | ok a b' =>
    rw [hgb] at h1
    obtain ⟨ha, h1⟩ := h1
    have hnew : b'.Binds ⟨b.labels.size⟩ :=
      h1.bound _ (List.mem_append_right _ List.mem_cons_self) (hsize ▸ Nat.lt_succ_self _)
    refine ⟨ha, ?_, fun {l} hl => h1.binds ?_, fun l hl hlt => ?_, fun hb x hx l hl => ?_⟩
    · exact Nat.le_trans (Nat.le_of_lt (hsize ▸ Nat.lt_succ_self _)) h1.labels
    · rw [Binds, position?_push]
      exact hl
    · exact h1.bound l (List.mem_append_left _ hl) (Nat.lt_of_lt_of_le hlt (hsize ▸ Nat.le_succ _))
    · have hawaits : Awaits ⟨b.block, b.items, b.labels.push none, b.next⟩
          (⟨b.labels.size⟩ :: S) := fun y hy l hl =>
        have ⟨hjumps, h⟩ := hb y hy l hl
        ⟨hjumps, h.imp (fun h => by rw [Binds, position?_push]; exact h) (List.mem_cons_of_mem _)⟩
      obtain ⟨hjumps, h⟩ := h1.awaits hawaits x hx l hl
      refine ⟨hjumps, h.elim .inl fun h => ?_⟩
      rcases List.mem_cons.mp h with rfl | h
      · exact .inl hnew
      · exact .inr h

theorem bindLabel (l : Label) : CompletesOnly S [l] (Lower.bind l) := by
  intro b
  have hbinds {l' : Label} (h : b.Binds l') :
      Binds ⟨b.block, b.items, b.labels.setIfInBounds l.number (some b.items.size), b.next⟩ l' := by
    rw [Binds, position?_bind]
    split
    · rfl
    · exact h
  refine ⟨trivial, Nat.le_of_eq Array.size_setIfInBounds.symm, hbinds, fun l' hl' hlt => ?_,
    fun hb x hx l' hl' => ?_⟩
  · obtain rfl := List.mem_singleton.mp hl'
    rw [Binds, position?_bind, if_pos ⟨rfl, hlt⟩]
    rfl
  · obtain ⟨hjumps, h⟩ := hb x hx l' hl'
    exact ⟨hjumps, h.imp hbinds id⟩

/-- The label to be bound first is bound. -/
theorem bindLabel_seq {l : Label} {x : Unit → Lower α} (hx : Completes S L Q (x ())) :
    Completes S (l :: L) Q (Lower.bind l >>= x) := by
  intro b
  let b₁ : Builder := ⟨b.block, b.items, b.labels.setIfInBounds l.number (some b.items.size), b.next⟩
  have hbind : b.Settles S [l] b₁ := (bindLabel (S := S) l b).2
  have hstep : (Lower.bind l >>= x) b = x () b₁ := rfl
  have h1 := hx b₁
  rw [hstep]
  cases hxb : x () b₁ with
  | error e b' =>
    rw [hxb] at h1
    exact h1
  | ok a b' =>
    rw [hxb] at h1
    obtain ⟨ha, h1⟩ := h1
    refine ⟨ha, Nat.le_trans hbind.labels h1.labels, h1.binds ∘ hbind.binds, fun l' hl' hlt => ?_,
      h1.awaits ∘ hbind.awaits⟩
    rcases List.mem_cons.mp hl' with rfl | hl'
    · exact h1.binds (hbind.bound _ List.mem_cons_self hlt)
    · exact h1.bound l' hl' (Nat.lt_of_lt_of_le hlt hbind.labels)

/-- The only way to fail. -/
theorem allocateRange (count : Nat) : CompletesOnly S [] (Lower.allocateRange count) := by
  intro b
  cases h : Lower.allocateRange count b with
  | ok r b' => exact ⟨trivial, Gives.allocateRange_eq_ok h ▸ .of_eq⟩
  | error e b' =>
    unfold Lower.allocateRange at h
    dsimp only at h
    split at h
    · cases h
    · cases h
      exact ⟨_, rfl⟩

theorem identifier (name : String) : CompletesOnly S [] (Lower.identifier name) :=
  of_eq fun _ => ⟨_, _, _, rfl, trivial⟩

theorem function (B : Block) : CompletesOnly S [] (Lower.function B) :=
  of_eq fun _ => ⟨_, _, _, rfl, trivial⟩

theorem mark : CompletesOnly S [] Lower.mark := of_eq fun b => ⟨_, b.block, b.next, rfl, trivial⟩

theorem release (m : UInt16) : CompletesOnly S [] (Lower.release m) :=
  of_eq fun _ => ⟨_, _, _, rfl, trivial⟩

theorem seq {x : Lower Unit} {g : Unit → Lower β} (hx : CompletesOnly S [] x)
    (hg : Completes S L R (g ())) : Completes S L R (x >>= g) :=
  hx.bind fun _ _ => hg

/-- One action after another one of whose answer nothing is needed. -/
theorem next (hx : CompletesOnly S [] x) (hg : ∀ a, Completes S L R (g a)) :
    Completes S L R (x >>= g) :=
  hx.bind fun a _ => hg a

end Completes

/-- All code inside a scope fails only for want of registers, and binds its labels. -/
theorem completes_local : Local (fun _ => True) CompletesOnly where
  pure _ := .pure trivial
  bind hx hg := hx.next hg
  emit _ := .emit _
  define _ _ := .next (.identifier _) fun _ => .emit _
  infer _ _ _ := .seq (.emit _) <| .seq (.emit _) <| .emit _
  emitJump hi hl := .emitJump hi hl
  newLabel hg := .newLabel hg
  bindLabel _ := .bindLabel _
  bindLabel_seq _ hx := .bindLabel_seq hx
  identifier := .identifier
  constant _ := .of_eq fun _ => ⟨_, _, _, rfl, trivial⟩
  allocateRange := .allocateRange
  giveBack hx := .next .mark fun _ => .seq hx <| .release _

/-! ## Functions -/

theorem firstOccurrences_complete (seen : List Nat) {v : TyVar} {vs : List TyVar} (hv : v ∈ vs)
    (hseen : v.id ∉ seen) : ∃ w ∈ Ty.firstOccurrences seen vs, w.id = v.id := by
  induction vs generalizing seen with
  | nil => cases hv
  | cons u us ih =>
    rw [Ty.firstOccurrences]
    split
    next hmem =>
      rcases List.mem_cons.mp hv with rfl | hv
      · exact absurd (List.contains_iff_mem.mp hmem) hseen
      · exact ih seen hv hseen
    next =>
      by_cases heq : v.id = u.id
      · exact ⟨u, List.mem_cons_self, heq.symm⟩
      · obtain rfl | hv := List.mem_cons.mp hv
        · exact absurd rfl heq
        · obtain ⟨w, hw, hid⟩ := ih (u.id :: seen) hv fun h =>
            (List.mem_cons.mp h).elim heq hseen
          exact ⟨w, List.mem_cons_of_mem _ hw, hid⟩

/-- Every variable has a register afterwards. -/
theorem completes_declareVars : (vs : List TyVar) → (done : List (Nat × Register)) →
    Completes S [] (fun registers => ∀ id, (∃ v ∈ vs, v.id = id) ∨ (done.lookup id).isSome = true →
      (registers.lookup id).isSome = true) (declareVars done vs)
  | [], done => .pure fun _ h => h.elim (fun ⟨_, hv, _⟩ => nomatch hv) fun h => h
  | v :: vs, done => .next (.allocateRange 1) fun r => .next (.identifier _) fun _ => .seq (.emit _) <|
      (completes_declareVars vs ((v.id, r) :: done)).mono fun registers h id hid => h id <| by
        rw [List.lookup_cons]
        rcases hid with ⟨w, hw, rfl⟩ | hid
        · rcases List.mem_cons.mp hw with rfl | hw
          · exact .inr (by simp only [beq_self_eq_true, Option.isSome_some])
          · exact .inl ⟨w, hw, rfl⟩
        · refine .inr ?_
          split
          · rfl
          · exact hid

theorem completes_declaredVar {registers : List (Nat × Register)} {v : TyVar}
    (h : (registers.lookup v.id).isSome = true) (dst : Register) :
    CompletesOnly S [] (declaredVar registers v dst) := by
  rw [declaredVar]
  split
  next => exact .emit _
  next hnone =>
    rw [hnone] at h
    cases h

/-- A signature declares all its variables. -/
theorem completes_signature (t : Ty) : CompletesOnly S [] (signature t) := by
  refine .next (.allocateRange 1) fun dst => .seq (.emit _) <| .seq (.emit _) <|
    .bind (completes_declareVars t.distinctVars []) fun registers hregisters => ?_
  have hvar : ∀ v ∈ t.vars, ∀ r, CompletesOnly S [] (declaredVar registers v r) := fun v hv r =>
    completes_declaredVar
      (hregisters v.id (.inl (firstOccurrences_complete [] hv List.not_mem_nil))) r
  exact .seq (completes_local.ty t hvar dst) <| .seq (.emit _) <| .seq (.emit _) <|
    .seq (.emit _) <| .emit _

theorem completes_functionCode {head : FnHead} {count : UInt32} {t : Ty} {body : Register → Lower Unit}
    (hbody : ∀ r, CompletesOnly S [] (body r)) : CompletesOnly S [] (functionCode head count t body) :=
  .seq (completes_signature t) <| .seq (.of_eq fun _ => ⟨_, _, _, rfl, trivial⟩) <|
    .seq (.release _) <| .seq (completes_local.allParams head.params (fun _ _ => trivial) 0) <|
    .next (.allocateRange 1) fun r => .seq (hbody r) <| .emit _

/-- The builder that an action leaves behind in a block of its own, or its error. -/
def built (name : String) (count : UInt32) (act : Lower Unit) : Except LowerError Builder :=
  match act (.new name count) with
  | .ok _ c => .ok c
  | .error e _ => .error e

/-- The code is complete, or there is none because it needs too many registers. -/
def CompleteOrExhausted : Except LowerError Builder → Prop
  | .ok c => c.Complete
  | .error e => ∃ name, e = .registersExhausted name

theorem Completes.built {act : Lower Unit} (h : CompletesOnly [] [] act) (name : String)
    (count : UInt32) : CompleteOrExhausted (built name count act) := by
  have h1 := h (.new name count)
  unfold Lower.built
  cases hact : act (.new name count) with
  | ok a c =>
    rw [hact] at h1
    exact (h1.2.awaits (awaits_new name count)).complete
  | error e c =>
    rw [hact] at h1
    exact h1

/-- The builder of which the block of a function is made, or why there is none. -/
def functionBuilder (checks : Bool) (head : FnHead) (body : List Decl) : Except LowerError Builder :=
  match head.signature with
  | none => .error (.unchecked head.name)
  | some (.fn types result implicit) =>
    let count : UInt32 := .ofNat types.length
    let place : Place := ⟨checks, implicitParams [] (types.take implicit), 0, none⟩
    built head.name count
      (functionCode head count (.fn types result implicit) (fnBody body place))
  | some t => .error (.notFunction head.name t)

/-- The block of a function is finished when its code is complete. -/
theorem functionBlock_eq (checks : Bool) (head : FnHead) (body : List Decl) (b : Builder) :
    functionBlock checks head (fnBody body) b = match functionBuilder checks head body with
      | .ok c => .ok c.finish b
      | .error e => .error e b := by
  unfold functionBlock functionBuilder
  match head.signature with
  | none => rfl
  | some (.fn types result implicit) =>
    dsimp only
    unfold isolated built
    cases functionCode head (.ofNat types.length) (.fn types result implicit)
        (fnBody body ⟨checks, implicitParams [] (types.take implicit), 0, none⟩)
        (.new head.name (.ofNat types.length)) <;> rfl
  | some (.var _) | some (.name _) | some (.array _) | some (.tuple _) | some (.record _)
  | some (.union ..) | some (.binding ..) => rfl

/-- The code of a function of which the signature is known. -/
theorem functionBuilder_complete {checks : Bool} {head : FnHead} {body : List Decl}
    (hhead : head.Signed)
    (hbody : ∀ place r, place.loop = none → CompletesOnly [] [] (fnBody body place r)) :
    CompleteOrExhausted (functionBuilder checks head body) := by
  obtain ⟨types, result, implicit, hsignature, -⟩ := hhead
  unfold functionBuilder
  rw [hsignature]
  exact Completes.built (completes_functionCode fun r => hbody _ r rfl) _ _

theorem completes_functionBlock {checks : Bool} {head : FnHead} {body : List Decl}
    (hhead : head.Signed)
    (hbody : ∀ place r, place.loop = none → CompletesOnly [] [] (fnBody body place r)) :
    CompletesOnly S [] (functionBlock checks head (fnBody body)) := by
  intro b
  have h : CompleteOrExhausted (functionBuilder checks head body) :=
    functionBuilder_complete hhead hbody
  rw [functionBlock_eq]
  cases hc : functionBuilder checks head body with
  | ok c => exact ⟨trivial, .of_eq⟩
  | error e =>
    rw [hc] at h
    exact h

theorem completes_createFunction (name : String) (B : Block) :
    CompletesOnly S [] (createFunction name B) :=
  .next (.function B) fun _ => .next .mark fun _ => .next (.allocateRange 1) fun _ =>
    .seq (.emit _) <| .next (.identifier _) fun _ => .seq (.emit _) <| .release _

/-! ## Statements -/

end Lower

/-- The code for the place may go to the labels of the loop around it. -/
def Place.Within (p : Place) (S : List Label) : Prop :=
  ∀ l ∈ p.loop, l.breakLabel ∈ S ∧ l.continueLabel ∈ S

theorem Place.Within.cons {p : Place} {S : List Label} (h : p.Within S) (l : Label) :
    p.Within (l :: S) :=
  fun l' hl' => ⟨.tail _ (h l' hl').1, .tail _ (h l' hl').2⟩

theorem Place.within_inLoop {p : Place} {S : List Label} {exit next : Label} (hexit : exit ∈ S)
    (hnext : next ∈ S) : (p.inLoop exit next).Within S := by
  rintro _ ⟨⟩
  exact ⟨hexit, hnext⟩

namespace Lower

open Builder

variable {S : List Label}

theorem completes_sequence {functions declarations : Lower Unit} {isEmpty : Bool} {dst : Register}
    (hf : CompletesOnly S [] functions) (hd : CompletesOnly S [] declarations) :
    CompletesOnly S [] (sequence isEmpty functions declarations dst) :=
  .seq hf <| completes_local.ite (fun _ => completes_local.loadUnit dst) fun _ => hd

theorem completes_closeScopes : (count : Nat) → CompletesOnly S [] (closeScopes count)
  | 0 => .pure trivial
  | count + 1 => .seq (.emit _) <| completes_closeScopes count

theorem completes_leaveScopes {p : Place} {choose : LoopLabels → Label} (hloop : p.loop.isSome = true)
    (h : ∀ l ∈ p.loop, choose l ∈ S) : CompletesOnly S [] (leaveScopes p choose) := by
  rw [leaveScopes]
  split
  next hnone =>
    rw [hnone] at hloop
    cases hloop
  next l hl => exact .seq (completes_closeScopes _) <| completes_local.jump (h l hl)

theorem completes_loopBody {body : Register → Lower Unit} (hbody : ∀ r, CompletesOnly S [] (body r)) :
    CompletesOnly S [] (loopBody body) :=
  .next .mark fun _ => .next (.allocateRange 1) fun r => .seq (hbody r) <| .release _

mutual

/-- The code for a statement whose jumps stand in loops and whose functions have signatures. -/
theorem completes_stmt : (s : Stmt) → s.Heads FnHead.Signed → ∀ {S : List Label} {p : Place}
    {dst : Register}, s.Enclosed p.loop.isSome → p.Within S → CompletesOnly S [] (stmt p s dst)
  | .empty _, _, _, _, dst, _, _ => by
    rw [stmt]
    exact completes_local.loadUnit dst
  | .block body _, hs, _, _, _, he, hp => by
    rw [stmt]
    exact .seq (.emit _) <| .seq
      (completes_sequence (completes_functions body hs he) (completes_decls body hs he hp)) <| .emit _
  | .ret value _, _, _, _, _, _, _ => by
    rw [stmt]
    exact .next (.allocateRange 1) fun r => .seq (completes_local.exprOrUnit r value) <| .emit _
  | .cond c s none _, hs, _, _, dst, he, hp => by
    rw [stmt]
    exact .next (.allocateRange 1) fun r => .seq (completes_local.expr c r) <| .newLabel fun _ =>
      .newLabel fun _ => .seq (completes_local.jumpIfFalse r (.tail _ (.head _))) <|
      .seq (completes_stmt s hs he ((hp.cons _).cons _)) <|
      .seq (completes_local.jump (.head _)) <| .bindLabel_seq <|
      .seq (completes_local.loadUnit dst) <| .bindLabel _
  | .cond c s (some t) _, hs, _, _, dst, he, hp => by
    rw [stmt]
    exact .next (.allocateRange 1) fun r => .seq (completes_local.expr c r) <| .newLabel fun _ =>
      .newLabel fun _ => .seq (completes_local.jumpIfFalse r (.tail _ (.head _))) <|
      .seq (completes_stmt s hs.1 he.1 ((hp.cons _).cons _)) <|
      .seq (completes_local.jump (.head _)) <| .bindLabel_seq <|
      .seq (completes_stmt t hs.2 he.2 ((hp.cons _).cons _)) <| .bindLabel _
  | .whileLoop c body _, hs, _, _, dst, he, _ => by
    rw [stmt]
    exact .newLabel fun _ => .newLabel fun _ => .bindLabel_seq <| .next (.allocateRange 1) fun r =>
      .seq (completes_local.expr c r) <| .seq (completes_local.jumpIfFalse r (.head _)) <|
      .seq (completes_loopBody fun _ =>
        completes_stmt body hs he (Place.within_inLoop (.head _) (.tail _ (.head _)))) <|
      .seq (completes_local.jump (.tail _ (.head _))) <| .bindLabel_seq <|
      completes_local.loadUnit dst
  | .forLoop init c increment body _, hs, _, p, dst, he, _ => by
    rw [stmt]
    exact .seq (.emit _) <| .next (.allocateRange 1) fun r =>
      .seq (completes_local.forInit _ r init fun _ _ => trivial) <| .newLabel fun _ => .newLabel fun _ =>
      .newLabel fun _ => .bindLabel_seq <| .seq (completes_local.loopTest (.head _) r c) <|
      .seq (completes_loopBody fun _ =>
        completes_stmt body hs he (Place.within_inLoop (.head _) (.tail _ (.head _)))) <|
      .bindLabel_seq <| .seq (completes_local.forNext r increment) <|
      .seq (completes_local.jump (.tail _ (.tail _ (.head _)))) <| .bindLabel_seq <|
      .seq (.emit _) <| completes_local.loadUnit dst
  | .breakLoop _, _, _, _, _, he, hp => by
    rw [stmt]
    exact completes_leaveScopes he fun l hl => (hp l hl).1
  | .continueLoop _, _, _, _, _, he, hp => by
    rw [stmt]
    exact completes_leaveScopes he fun l hl => (hp l hl).2
  | .cases scrutinee cs none _, hs, _, _, _, he, hp => by
    rw [stmt]
    exact .next (.allocateRange 1) fun r => .seq (completes_local.expr scrutinee r) <|
      .newLabel fun _ => .seq (completes_matchCases cs hs he (hp.cons _) (.head _)) <|
      .seq completes_local.noMatch <| .bindLabel _
  | .cases scrutinee cs (some s) _, hs, _, _, _, he, hp => by
    rw [stmt]
    exact .next (.allocateRange 1) fun r => .seq (completes_local.expr scrutinee r) <|
      .newLabel fun _ => .seq (completes_matchCases cs hs.1 he.1 (hp.cons _) (.head _)) <|
      .seq (completes_stmt s hs.2 he.2 (hp.cons _)) <| .bindLabel _
  | .expr e, _, _, _, dst, _, _ => by
    rw [stmt]
    exact completes_local.expr e dst

theorem completes_matchCases : (cs : List (Pattern × Stmt)) → Stmt.HeadsCases FnHead.Signed cs →
    ∀ {S : List Label} {p : Place} {scrutinee dst : Register} {done : Label},
    Stmt.EnclosedCases p.loop.isSome cs → p.Within S → done ∈ S →
    CompletesOnly S [] (matchCases p scrutinee done cs dst)
  | [], _, _, _, _, _, _, _, _, _ => by
    rw [matchCases]
    exact .pure trivial
  | (pat, s) :: cs, hs, _, _, scrutinee, _, _, he, hp, hdone => by
    rw [matchCases]
    exact .next .mark fun _ => .newLabel fun _ => .seq (.emit _) <|
      .seq (completes_local.pattern pat (fun _ _ => trivial) scrutinee (.head _)) <|
      .seq (completes_stmt s hs.1 he.1 (hp.cons _)) <| .seq (.emit _) <|
      .seq (completes_local.jump (.tail _ hdone)) <| .bindLabel_seq <| .seq (.emit _) <|
      .seq (.release _) <| completes_matchCases cs hs.2 he.2 (hp.cons _) (.tail _ hdone)

/-- The functions of a block are blocks of their own, in which no loop is around. -/
theorem completes_functions : (ds : List Decl) → Decl.HeadsList FnHead.Signed ds →
    ∀ {inLoop : Bool} {S : List Label} {p : Place}, Decl.EnclosedList inLoop ds →
    CompletesOnly S [] (functions p ds)
  | [], _, _, _, _, _ => by
    rw [functions]
    exact .pure trivial
  | .fn head body :: ds, hds, _, _, p, he => by
    have hbody (place : Place) (r : Register) (hloop : place.loop = none) :
        CompletesOnly [] [] (fnBody body place r) :=
      .seq (.emit _) <| .seq (completes_sequence (completes_functions body hds.1.2 he.1)
        (completes_decls body hds.1.2 (by rw [Place.deeper, hloop]; exact he.1)
          (by rw [Place.Within, Place.deeper, hloop]; nofun))) <| .emit _
    rw [functions]
    exact .next (completes_functionBlock hds.1.1 hbody) fun B =>
      .seq (completes_createFunction head.name B) <| completes_functions ds hds.2 he.2
  | .letDecl _ :: ds, hds, _, _, _, he => by
    rw [functions_letDecl]
    exact completes_functions ds hds.2 he.2
  | .stmt _ :: ds, hds, _, _, _, he => by
    rw [functions_stmt]
    exact completes_functions ds hds.2 he.2

theorem completes_decls : (ds : List Decl) → Decl.HeadsList FnHead.Signed ds → ∀ {S : List Label}
    {p : Place} {dst : Register}, Decl.EnclosedList p.loop.isSome ds → p.Within S →
    CompletesOnly S [] (decls p ds dst)
  | [], _, _, _, _, _, _ => by
    rw [decls]
    exact .pure trivial
  | d :: ds, hds, _, _, _, he, hp => by
    rw [decls]
    exact .next .mark fun _ => .seq (completes_decl d hds.1 he.1 hp) <| .seq (.release _) <|
      completes_decls ds hds.2 he.2 hp

theorem completes_decl : (d : Decl) → d.Heads FnHead.Signed → ∀ {S : List Label} {p : Place}
    {dst : Register}, d.Enclosed p.loop.isSome → p.Within S → CompletesOnly S [] (decl p d dst)
  | .letDecl d, _, _, p, dst, _, _ => by
    rw [decl]
    exact completes_local.letDecl p trivial dst
  | .fn .., _, _, _, dst, _, _ => by
    rw [decl]
    exact completes_local.loadUnit dst
  | .stmt s, hs, _, _, _, he, hp => by
    rw [decl]
    exact completes_stmt s hs he hp

end

/-- **The code for the body of a function** in which jumps stand in loops. -/
theorem completes_fnBody {body : List Decl} (hsigned : Decl.HeadsList FnHead.Signed body)
    (henclosed : Decl.EnclosedList false body) {place : Place} (r : Register)
    (hloop : place.loop = none) : CompletesOnly S [] (fnBody body place r) :=
  .seq (.emit _) <| .seq (completes_sequence (completes_functions body hsigned henclosed)
    (completes_decls body hsigned (by rw [Place.deeper, hloop]; exact henclosed)
      (by rw [Place.Within, Place.deeper, hloop]; nofun))) <| .emit _

end Lower

/-! ## Programs -/

/-- The builder of which the block of a program is made, or why there is none. -/
def Program.builder (checks : Bool) (rejected : List Nat) (ds : Program) : Except LowerError Builder :=
  Lower.built "<program>" 0 do
    let value ← Lower.allocate
    Lower.body ⟨checks, [], 0, none⟩ (ds.accepted rejected) value
    Lower.emit (.leave value)

/-- The block of a program is finished when its code is complete. -/
theorem Program.lower_eq (checks : Bool) (rejected : List Nat) (ds : Program) :
    ds.lower checks rejected = (ds.builder checks rejected).map Builder.finish := by
  unfold lower builder Lower.built
  dsimp only
  split
  next hact => simp only [hact, Except.map]
  next hact => simp only [hact, Except.map]

/-- The code of a program in which functions have signatures and jumps stand in loops. -/
theorem Program.builder_complete {checks : Bool} {rejected : List Nat} {ds : Program}
    (hsigned : Decl.HeadsList FnHead.Signed (ds.accepted rejected))
    (henclosed : Decl.EnclosedList false (ds.accepted rejected)) :
    Lower.CompleteOrExhausted (ds.builder checks rejected) := by
  have hbody (value : Register) : Lower.CompletesOnly [] []
      (Lower.body ⟨checks, [], 0, none⟩ (ds.accepted rejected) value) :=
    Lower.completes_sequence (Lower.completes_functions _ hsigned henclosed)
      (Lower.completes_decls _ hsigned (p := ⟨checks, [], 0, none⟩) henclosed nofun)
  exact Lower.Completes.built (.next (.allocateRange 1) fun r => .seq (hbody r) <| .emit _) _ _

end Reified
