import Mathlib
import Reified.Proofs.Lowering.Confined
import Reified.Proofs.Lowering.Requests
import Reified.Proofs.Machine.Writes

/-!
# Code for the parts of a program

Each part of a program has its code: expressions, statements, declarations, patterns and types. Apart from its
destination, the code for a part writes only registers that are free when it is begun. A register that the code
around it has asked for and not given back is not free. So it keeps its value while the code for the part is
executed, with all calls that it makes.

## Main definitions

* `Subtree`, `Subtree.lower` — a part of a program, and its code
* `Subtree.Owns` — the registers that the code for a part may write
* `Run.Retains` — a block keeps the values of some of its registers

## Main results

* `Lower.Performs.lt_next` — what is in use is below the first free register
* `Subtree.confined` — the code for a part is confined to its own registers
* `Subtree.writes_own` — **registers in use keep their values**
-/

namespace Reified

/-! ## Registers in use -/

namespace Request

variable {es es' : List Request} {i : Nat}

theorem not_inUse_nil : ¬InUse [] i := by
  rintro ⟨before, first, count, after, heq, -⟩
  exact List.append_ne_nil_of_right_ne_nil before (List.cons_ne_nil _ _) heq.symm

theorem not_inUse_singleton {e : Request} (he : ∀ first count, e ≠ .taken first count) : ¬InUse [e] i := by
  rintro ⟨before, first, count, after, heq, -⟩
  obtain ⟨-, hcons⟩ | ⟨-, hcons⟩ := List.singleton_eq_append_iff.mp heq
  · exact he first count (List.cons.inj hcons).1.symm
  · cases hcons

/-- What is in use in the end has been asked for at last, or has been in use before and not been given back. -/
theorem inUse_append (h : InUse (es ++ es') i) :
    InUse es' i ∨ InUse es i ∧ ∀ m, .released m ∈ es' → i < m.toNat := by
  obtain ⟨before, first, count, after, heq, hle, hlt, hkept⟩ := h
  rcases List.append_eq_append_iff.mp heq with ⟨middle, rfl, rfl⟩ | ⟨middle, rfl, hmiddle⟩
  · exact .inl ⟨middle, first, count, after, rfl, hle, hlt, hkept⟩
  · rcases List.cons_eq_append_iff.mp hmiddle with ⟨rfl, rfl⟩ | ⟨rest, rfl, rfl⟩
    · exact .inl ⟨[], first, count, after, rfl, hle, hlt, hkept⟩
    · exact .inr ⟨⟨before, first, count, rest, rfl, hle, hlt, fun m hm =>
        hkept m (List.mem_append_left _ hm)⟩, fun m hm => hkept m (List.mem_append_right _ hm)⟩

end Request

namespace Lower

open EStateM (Result)

variable {α : Type} {x : Lower α} {b b' : Builder} {es : List Request} {i : Nat}

/-- **What is in use is below the first free register**, as is what has been below it and was not given back. -/
theorem Performs.lt_next {result : Result LowerError Builder α} (h : Performs x b es result)
    (hi : Request.InUse es i ∨ i < b.next.toNat ∧ ∀ m, .released m ∈ es → i < m.toNat) {a : α}
    (hresult : result = .ok a b') : i < b'.next.toNat := by
  induction h generalizing b' with
  | throw | bind_error | refused => cases hresult
  | bind _ _ ihx ihg =>
    rcases hi with hi | ⟨hi, hkept⟩
    · rcases Request.inUse_append hi with hi | ⟨hi, hkept⟩
      · exact ihg (.inl hi) hresult
      · exact ihg (.inr ⟨ihx (.inl hi) rfl, hkept⟩) hresult
    · have hfirst := ihx (.inr ⟨hi, fun m hm => hkept m (List.mem_append_left _ hm)⟩) rfl
      exact ihg (.inr ⟨hfirst, fun m hm => hkept m (List.mem_append_right _ hm)⟩) hresult
  | @taken count b b₁ r h =>
    cases hresult
    obtain ⟨-, hindex, hnext, -⟩ := allocateRange_spec h (.refl _)
    rcases hi with ⟨before, first, n, after, heq, -, hlt, -⟩ | ⟨hi, -⟩
    · obtain ⟨-, hcons⟩ | ⟨-, hcons⟩ := List.singleton_eq_append_iff.mp heq
      · cases hcons
        omega
      · cases hcons
    · omega
  | release m b =>
    cases hresult
    exact hi.elim (fun hi => absurd hi (Request.not_inUse_singleton nofun)) fun hi => hi.2 m (.head _)
  | mark b =>
    cases hresult
    exact hi.elim (fun hi => absurd hi (Request.not_inUse_singleton nofun)) (·.1)
  | isolated name count act b =>
    obtain ⟨rfl, -⟩ := isolated_eq_ok hresult
    exact hi.elim (fun hi => absurd hi Request.not_inUse_nil) (·.1)
  | _ =>
    cases hresult
    exact hi.elim (fun hi => absurd hi Request.not_inUse_nil) (·.1)

end Lower

/-! ## Parts of programs -/

/-- A part of a program, with what its code is told about the place where it stands. -/
inductive Subtree where
  | expression (params : ImplicitParams) (e : Expr)
  | statement (place : Place) (s : Stmt)
  | declarations (place : Place) (ds : List Decl)
  | pattern (value : Register) (failed : Label) (p : Pattern)
  /-- A type whose variables are those of inferred parameters. -/
  | type (params : ImplicitParams) (t : Ty)
  /-- A type in a signature, whose variables have been put into registers. -/
  | declared (registers : List (Nat × Register)) (t : Ty)
  | written (t : TypeExpr)

namespace Subtree

/-- The code for a part of a program. -/
def lower (dst : Register) : Subtree → Lower Unit
  | .expression params e => Lower.expr params e dst
  | .statement place s => Lower.stmt place s dst
  | .declarations place ds => Lower.body place ds dst
  | .pattern value failed p => Lower.pattern value failed p
  | .type params t => Lower.ty (Lower.paramVar params) t dst
  | .declared registers t => Lower.ty (Lower.declaredVar registers) t dst
  | .written t => Lower.typeExpr t dst

/-- The code leaves a result in its destination. A pattern has none. -/
def HasResult : Subtree → Prop
  | .pattern .. => False
  | _ => True

/-- The part is a list of declarations. -/
def IsDeclarations : Subtree → Prop
  | .declarations .. => True
  | _ => False

/-- The registers of the code that is begun when `m` is the first free register: its destination, and all that
are free. -/
def Owns (s : Subtree) (dst : Register) (m j : Nat) : Prop := m ≤ j ∨ s.HasResult ∧ j = dst.index

/-- **The code for a part is confined to its own registers.** -/
theorem confined (s : Subtree) (dst : Register) (m : Nat) : Lower.Confined m (s.Owns dst m) (s.lower dst) := by
  have hfree (j : Nat) (hj : m ≤ j) : s.Owns dst m j := .inl hj
  have hdst (hs : s.HasResult) : s.Owns dst m dst.index := .inr ⟨hs, rfl⟩
  cases s with
  | expression params e => exact Lower.confined_expr hfree e (hdst trivial)
  | statement place s => exact Lower.confined_stmt hfree s (hdst trivial)
  | declarations place ds => exact Lower.confined_body hfree place ds (hdst trivial)
  | pattern value failed p => exact Lower.confined_pattern hfree p value failed
  | type params t => exact Lower.confined_ty hfree (Lower.confined_paramVar params) t (hdst trivial)
  | declared registers t => exact Lower.confined_ty hfree (Lower.confined_declaredVar registers) t (hdst trivial)
  | written t => exact Lower.confined_typeExpr hfree t (hdst trivial)

end Subtree

/-- The block that is in execution in the first run is still there in the second one, below the blocks that have
been entered meanwhile. Its registers `K` hold the same values. -/
def Run.Retains (r r' : Run) (K : Nat → Prop) : Prop :=
  ∃ above a, r'.stack = above ++ a :: r.callers ∧ a.block = r.top.block ∧
    ∀ j, K j → a.registers[j]? = r.top.registers[j]?

theorem Run.Retains.mono {r r' : Run} {K K' : Nat → Prop} (h : r.Retains r' K) (hK : ∀ j, K' j → K j) :
    r.Retains r' K' := by
  obtain ⟨above, a, hstack, hblock, hregisters⟩ := h
  exact ⟨above, a, hstack, hblock, fun j hj => hregisters j (hK j hj)⟩

/-- **Registers in use keep their values** while the code for a part of a program is executed, but for its
destination. The code writes only its destination and registers that are free when it is begun, a pattern only the
latter. It gives back no register that was handed out before, and declarations give back all of theirs. -/
theorem Subtree.writes_own {s : Subtree} {dst : Register} {b b' F : Builder}
    (h : s.lower dst b = .ok () b') (hF : b'.Before F) :
    b.next.toNat ≤ b'.next.toNat ∧ (s.IsDeclarations → b'.next = b.next) ∧
      (∀ p i, b.items.size ≤ p → p < b'.items.size → F.finish.code[p]? = some i →
        ∀ j, i.Writes j → s.Owns dst b.next.toNat j) ∧
      ∀ r r' : Run, r.top.block = F.finish →
        r.Executes (fun p => b.items.size ≤ p ∧ p < b'.items.size) r' →
        r.Retains r' (fun j => ¬s.Owns dst b.next.toNat j) ∧
          ∀ (α : Type) (x : Lower α) (a : α) (b₀ : Builder) (es : List Request), x.Performs b₀ es (.ok a b) →
            r.Retains r' fun j => Request.InUse es j ∧ (s.HasResult → j ≠ dst.index) := by
  have hconfines := s.confined dst b.next.toNat h (Nat.le_refl _)
  have hcode (p : Nat) (i : Instr) (hstart : b.items.size ≤ p) (hstop : p < b'.items.size)
      (hi : F.finish.code[p]? = some i) : ∀ j, i.Writes j → s.Owns dst b.next.toNat j :=
    hconfines.code hF hstart hstop hi
  refine ⟨hconfines.next, fun hs => ?_, hcode, fun r r' hr hexecutes => ?_⟩
  · cases s with
    | declarations place ds => exact Lower.next_body h
    | _ => exact hs.elim
  · obtain ⟨above, a, hstack, hsame⟩ := hexecutes.spares fun p i hp hi => hcode p i hp.1 hp.2 (hr ▸ hi)
    have hretains : r.Retains r' fun j => ¬s.Owns dst b.next.toNat j :=
      ⟨above, a, hstack, hsame.block, fun j hj => hsame.registers.get hj⟩
    refine ⟨hretains, fun α x a b₀ es hperforms => hretains.mono ?_⟩
    rintro j ⟨huse, hne⟩ (hfree | ⟨hs, heq⟩)
    · exact Nat.not_lt_of_le hfree (hperforms.lt_next (.inl huse) rfl)
    · exact hne hs heq

/-- A comparison of a truth value and a text. -/
def Subtree.comparison : Subtree :=
  .expression [] (.binary default .equal (.literal default (.bool true)) (.literal default (.string "true")))

/-- Two registers are in use. The code for a comparison takes two more for its sides, and of those in use it
changes only the second one, which is its destination. -/
theorem Subtree.writes_own_comparison :
    let taken : List Request := [.taken ⟨0⟩ 2]
    ∃ (b b' F : Builder) (r r' : Run), (Lower.allocateRange 2).Performs (.new "<program>" 0) taken (.ok ⟨0⟩ b) ∧
      comparison.lower ⟨1⟩ b = .ok () b' ∧ b'.Before F ∧ r.top.block = F.finish ∧
      r.Executes (fun p => b.items.size ≤ p ∧ p < b'.items.size) r' ∧ b.next = 2 ∧ b'.next = 4 ∧
      r.top.registers[1]? = some .unit ∧ r'.top.registers[1]? = some (.bool false) ∧ Request.InUse taken 0 ∧
      r.Retains r' fun j => Request.InUse taken j ∧ (comparison.HasResult → j ≠ 1) := by
  intro taken
  let b : Builder := ⟨⟨"<program>", #[], #[], #[], #[], 0, 2, 0⟩, #[], #[], 2⟩
  let items : Array Item :=
    #[⟨.loadConstant ⟨2⟩ 0, none⟩, ⟨.loadConstant ⟨3⟩ 1, none⟩, ⟨.isEqual ⟨1⟩ ⟨2⟩ ⟨3⟩, none⟩]
  let b' : Builder := ⟨⟨"<program>", #[], #[.bool true, .string "true"], #[], #[], 0, 4, 0⟩, items, #[], 4⟩
  have htaken : (Lower.allocateRange 2).Performs (.new "<program>" 0) taken (.ok ⟨0⟩ b) := .taken (by cbv)
  have hlower : comparison.lower ⟨1⟩ b = .ok () b' := by cbv
  let k : Context := ⟨b'.finish, .answer, []⟩
  let m := Machine.initial
  have hcode (p : Nat) : k.block.code[p]? = (items[p]?).map b'.resolve := Builder.code_finish b' p
  let regs : Array Value := #[.unit, .unit, .unit, .unit]
  let regs₁ : Array Value := #[.unit, .unit, .bool true, .unit]
  let regs₂ : Array Value := #[.unit, .unit, .bool true, .string "true"]
  have h₁ : Exec.step (k.run m 0 0 regs) = .ok none (k.run m 0 1 regs₁) :=
    Context.step_loadConstant (c := .bool true) (hcode 0) rfl (by decide)
  have h₂ : Exec.step (k.run m 0 1 regs₁) = .ok none (k.run m 0 2 regs₂) :=
    Context.step_loadConstant (c := .string "true") (hcode 1) rfl (by decide)
  have h₃ : Exec.step (k.run m 0 2 regs₂) = .ok none (k.run m 0 3 (regs₂.setIfInBounds 1 (.bool false))) :=
    Context.step_isEqual (v := .bool true) (w := .string "true") (hcode 2) rfl rfl (by decide)
  have hfirst := (Run.Executes.refl (P := fun p => 0 ≤ p ∧ p < 3)).step (fun _ => by decide) h₁ (Nat.le_refl _)
  have hsecond := hfirst.step (fun _ => by decide) h₂ (Nat.le_refl _)
  have hexecutes := hsecond.step (fun _ => by decide) h₃ (Nat.le_refl _)
  refine ⟨b, b', b', k.run m 0 0 regs, _, htaken, hlower, .refl _, rfl, hexecutes, rfl, rfl, rfl, rfl, ?_,
    ((writes_own hlower (.refl _)).2.2.2 _ _ rfl hexecutes).2 _ _ _ _ _ htaken⟩
  exact ⟨[], ⟨0⟩, 2, [], rfl, Nat.le_refl _, by decide, fun _ hm => absurd hm List.not_mem_nil⟩

end Reified
