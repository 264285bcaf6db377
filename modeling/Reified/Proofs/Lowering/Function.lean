import Reified.Proofs.Lowering.Safe

/-!
# The block of a function

The block of a function has the name of the function and the number of parameters of its signature.
It consists of the code that evaluates the signature, which is not empty, and the code that a call
runs.

## Main definitions

* `Lower.fnBody` — the code for the body of a function

## Main results

* `Lower.functionBlock_spec`, `Lower.functionCode_spec`
-/

namespace Reified.Lower

open Builder

variable {checks : Bool} {head : FnHead} {b b' c : Builder} {B : Block}

/-- The code for the body of a function. -/
def fnBody (body : List Decl) (place : Place) (dst : Register) : Lower Unit := do
  emit .pushScope
  sequence body.isEmpty (functions place.deeper body) (decls place.deeper body dst) dst
  emit .popScope

theorem safe_fnBody (body : List Decl) (place : Place) (dst : Register) :
    Tame (fnBody body place dst) := by
  intro n u
  have h : Safe n u (stmt place (.block body default) dst) := safe_stmt _ _ _
  rw [stmt] at h
  exact h

theorem functionBlock_spec {body : Place → Register → Lower Unit}
    (h : functionBlock checks head body b = .ok B b') :
    ∃ types result implicit c, head.signature = some (.fn types result implicit) ∧
      functionCode head (.ofNat types.length) (.fn types result implicit)
          (body ⟨checks, implicitParams [] (types.take implicit), 0, none⟩)
          (.new head.name (.ofNat types.length)) = .ok () c ∧ B = c.finish := by
  unfold functionBlock at h
  match hs : head.signature, h with
  | some (.fn types result implicit), h =>
    obtain ⟨-, c, hc, hB⟩ := isolated_eq_ok h
    exact ⟨types, result, implicit, c, rfl, hc, hB⟩

/-- The parts of the code of a function: the builder after the evaluation of the signature, the one
before the parameters are defined, the one before the body, and the one after it. -/
theorem functionCode_spec {count : UInt32} {t : Ty} {body : Register → Lower Unit}
    (h : functionCode head count t body b = .ok () c) :
    ∃ b₁ b₂ b₃ b₄ b₅ value, signature t b = .ok () b₁ ∧
      b₂ = ⟨{ b₁.block with codeStart := .ofNat b₁.items.size }, b₁.items, b₁.labels,
        count.toUInt16⟩ ∧
      Lower.params 0 head.params b₂ = .ok () b₃ ∧ allocate b₃ = .ok value b₄ ∧
      body value b₄ = .ok () b₅ ∧ emit (.leave value) b₅ = .ok () c := by
  obtain ⟨_, b₁, h₁, h⟩ := bind_eq_ok h
  obtain ⟨_, b₁', hstart, h⟩ := bind_eq_ok h
  obtain ⟨_, b₂, hrelease, h⟩ := bind_eq_ok h
  obtain ⟨_, b₃, hparams, h⟩ := bind_eq_ok h
  obtain ⟨value, b₄, hvalue, h⟩ := bind_eq_ok h
  obtain ⟨_, b₅, hbody, hleave⟩ := bind_eq_ok h
  cases hstart
  cases hrelease
  exact ⟨b₁, _, b₃, b₄, b₅, value, h₁, rfl, hparams, hvalue, hbody, hleave⟩

/-- Emitting an item makes the code longer. -/
theorem size_lt_of_emit {i : Instr} {a : Unit} (h : emit i b = .ok a b') :
    b.items.size < b'.items.size := by
  cases h
  show _ < (b.items.push _).size
  rw [Array.size_push]
  exact Nat.lt_succ_self _

theorem signature_size_pos {t : Ty} (h : signature t b = .ok () b') : 0 < b'.items.size := by
  obtain ⟨dst, b₁, hdst, h⟩ := bind_eq_ok h
  obtain ⟨_, b₂, hpush, h⟩ := bind_eq_ok h
  have hrest : Tame (do
      emit .pushFrame
      let registers ← declareVars [] t.distinctVars
      ty (declaredVar registers) t dst
      emit (.resolveType dst dst)
      emit .popFrame
      emit .popScope
      emit (.leave dst)) := fun _ _ =>
    .bind (.emit _) fun _ => .bind (safe_declareVars _ _) fun registers =>
      .bind (safe_ty (safe_declaredVar registers) t dst) fun _ => .bind (.emit _) fun _ =>
        .bind (.emit _) fun _ => .bind (.emit _) fun _ => .emit _
  exact Nat.lt_of_lt_of_le (Nat.zero_lt_of_lt (size_lt_of_emit hpush))
    (hrest.extends h).before.size_le

/-- What a call looks at in the block of a function. -/
theorem functionCode_head {count : UInt32} {t : Ty} {body : Register → Lower Unit}
    (hbody : ∀ r, Tame (body r)) (h : functionCode head count t body b = .ok () c) :
    c.block.name = b.block.name ∧ c.block.parameterCount = b.block.parameterCount ∧
      ∃ b₁, signature t b = .ok () b₁ ∧ c.block.codeStart = .ofNat b₁.items.size ∧
        b₁.Before c := by
  obtain ⟨b₁, b₂, b₃, b₄, b₅, value, h₁, rfl, hparams, hvalue, hb, hleave⟩ := functionCode_spec h
  have e₁ := Tame.extends (fun _ _ => safe_signature t) h₁
  have e₂ := Tame.extends (fun _ _ => safe_params head.params 0) hparams
  have e₃ := Tame.extends (fun _ _ => Safe.allocate) hvalue
  have e₄ := (hbody value).extends hb
  have e₅ := Tame.extends (fun _ _ => Safe.emit _) hleave
  have hhead := ((e₂.head.trans e₃.head).trans e₄.head).trans e₅.head
  have hafter := ((e₂.before.trans e₃.before).trans e₄.before).trans e₅.before
  exact ⟨hhead.name.trans e₁.head.name, hhead.parameterCount.trans e₁.head.parameterCount, b₁, h₁,
    hhead.codeStart, ⟨hafter.block.constants, hafter.block.identifiers, hafter.block.functions,
      hafter.block.registers⟩, hafter.items, hafter.labels⟩

end Reified.Lower
