import Mathlib
import Reified.Compilation
import Reified.Proofs.Lowering.Emits
import Reified.Proofs.Lowering.Function
import Reified.Proofs.Typing.Signed

/-!
# Generated code is in order

Every operand, run of registers, jump target and message in generated code is in order, whatever the
program is, with one exception: when a call has no arguments, or a type no items, the instruction
names the next register that is free as the first one of an empty run. That register need not be in
the register file, and verification objects to it although it accepts the empty run itself. So
generated code verifies exactly if all its empty runs happen to start inside the register file.

## Main results

* `Lower.emits_expr`, `Lower.emits_stmt` — what is emitted for expressions and statements
* `Lower.functionBlock_orderly` — the block of a function is in order
* `Program.orderly_of_lower` — the block of a program is in order
-/

namespace Reified

open Builder

/-- The labels of the loop around the place, if there is one, are targets in the finished block. -/
def Place.Targets (p : Place) (F : Builder) : Prop :=
  ∀ l ∈ p.loop, F.Target l.breakLabel ∧ F.Target l.continueLabel

namespace Lower

open Gives

variable {F : Builder} {C : Prop} {dst : Register}

/-! ## Types -/

theorem gives_declareVars : (vs : List TyVar) → ∀ {C : Prop} {done : List (Nat × Register)},
    (C → ∀ x ∈ done, F.Has x.2) →
    Gives F C [] (declareVars done vs) fun registers => ∀ x ∈ registers, F.Has x.2
  | [], _, _, h => .pure h
  | _ :: vs, _, _, h => .bind .allocate fun _ => .bind (.identifier _) fun _ =>
      .seq (.emit fun hC => ⟨hC.1.2, hC.2⟩) <|
        gives_declareVars vs fun hC => List.forall_mem_cons.mpr ⟨hC.1.2, h hC.1.1⟩

theorem emits_declaredVar (registers : List (Nat × Register)) (v : TyVar) (dst : Register) :
    Emits F ((∀ x ∈ registers, F.Has x.2) ∧ F.Has dst) [] (declaredVar registers v dst) := by
  rw [declaredVar]
  split
  next src hsrc =>
    obtain ⟨l₁, l₂, rfl, -⟩ := List.lookup_eq_some_iff.mp hsrc
    exact .emit fun hC => ⟨hC.2, hC.1 _ (List.mem_append_right _ List.mem_cons_self)⟩
  next => exact .throw _

theorem emits_paramVar (params : ImplicitParams) (v : TyVar) (dst : Register) :
    Emits F (True ∧ F.Has dst) [] (paramVar params v dst) := by
  rw [paramVar]
  split
  · exact .bind (.identifier _) fun _ => .emit fun hC => ⟨hC.1.2, hC.2⟩
  · exact .throw _

section ty

set_option linter.unusedSectionVars false

variable {var : TyVar → Register → Lower Unit} {K : Prop}
  (hvar : ∀ v r, Emits F (K ∧ F.Has r) [] (var v r))

include hvar

mutual

theorem emits_ty : (t : Ty) → ∀ {C : Prop} {dst : Register}, (C → K ∧ F.Has dst) →
    Emits F C [] (ty var t dst)
  | .var v, _, _, h => by
    rw [ty]
    exact (hvar v _).weaken h
  | .name x, _, _, h => by
    rw [ty]
    exact .bind (.identifier x) fun _ => .emit fun hC => ⟨(h hC.1).2, hC.2⟩
  | .array t, _, _, h => by
    rw [ty]
    exact .bind .allocate fun _ => .seq (emits_ty t fun hC => ⟨(h hC.1).1, hC.2⟩) <|
      .emit fun hC => ⟨(h hC.1).2, hC.2⟩
  | .tuple ts, _, _, h => by
    rw [ty]
    exact .bind (.allocateRange _) fun _ =>
      .seq (emits_tys ts (Nat.le_of_eq (Nat.zero_add _)) fun hC => ⟨(h hC.1).1, hC.2⟩) <|
        .emit fun hC => ⟨(h hC.1).2, hC.2.ofNat⟩
  | .record fs, _, _, h => by
    rw [ty]
    exact .bind (.allocateRange _) fun _ => .bind (.allocateRange _) fun _ =>
      .seq (emits_tyFields fs (Nat.le_of_eq (Nat.zero_add _))
        fun hC => ⟨(h hC.1.1).1, hC.1.2, hC.2⟩) <|
        .emit fun hC => ⟨(h hC.1.1).2, hC.1.2.ofNat, hC.2.ofNat⟩
  | .fn ps t k, _, _, h => by
    rw [ty]
    exact .bind (.allocateRange _) fun _ =>
      .seq (emits_tys ps (Nat.le_of_eq (Nat.zero_add _)) fun hC => ⟨(h hC.1).1, hC.2⟩) <|
        .bind .allocate fun _ => .seq (emits_ty t fun hC => ⟨(h hC.1.1).1, hC.2⟩) <|
          .emit fun hC => ⟨(h hC.1.1).2, hC.2, hC.1.2.ofNat⟩
  | .union a b, _, _, h => by
    rw [ty]
    exact .seq (emits_ty a h) <| .bind .allocate fun _ =>
      .seq (emits_ty b fun hC => ⟨(h hC.1).1, hC.2⟩) <|
        .emit fun hC => ⟨(h hC.1).2, (h hC.1).2, hC.2⟩
  | .binding x t, _, _, h => by
    rw [ty]
    exact .bind .allocate fun _ => .seq (emits_ty t fun hC => ⟨(h hC.1).1, hC.2⟩) <|
      .bind (.identifier x) fun _ => .emit fun hC => ⟨(h hC.1.1).2, hC.1.2, hC.2⟩

theorem emits_tys : (ts : List Ty) → ∀ {C : Prop} {first : Register} {index n : Nat},
    index + ts.length ≤ n → (C → K ∧ F.HasRun first n) → Emits F C [] (tys var first index ts)
  | [], _, _, _, _, _, _ => by
    rw [tys]
    exact .pure fun _ => trivial
  | t :: ts, _, _, _, _, hle, h => by
    rw [List.length_cons] at hle
    rw [tys]
    exact .seq (emits_ty t fun hC => ⟨(h hC).1, .of_run (h hC).2 (by omega)⟩) <|
      emits_tys ts (by omega) h

theorem emits_tyFields : (fs : List (String × Ty)) → ∀ {C : Prop} {firstKey firstType : Register}
    {index n : Nat}, index + fs.length ≤ n →
    (C → K ∧ F.HasRun firstKey n ∧ F.HasRun firstType n) →
    Emits F C [] (tyFields var firstKey firstType index fs)
  | [], _, _, _, _, _, _, _ => by
    rw [tyFields]
    exact .pure fun _ => trivial
  | (name, t) :: fs, _, _, _, _, _, hle, h => by
    rw [List.length_cons] at hle
    rw [tyFields]
    exact .seq (.load fun hC => .of_run (h hC).2.1 (by omega)) <|
      .seq (emits_ty t fun hC => ⟨(h hC).1, .of_run (h hC).2.2 (by omega)⟩) <|
        emits_tyFields fs (by omega) h

end

end ty

mutual

theorem emits_typeExpr : (t : TypeExpr) → ∀ {C : Prop} {dst : Register}, (C → F.Has dst) →
    Emits F C [] (typeExpr t dst)
  | .name x _, _, _, h => by
    rw [typeExpr]
    refine .bind (.identifier x) fun _ => .emit fun hC => ?_
    split
    · exact ⟨h hC.1, hC.2⟩
    · exact ⟨h hC.1, hC.2⟩
  | .array t, _, _, h => by
    rw [typeExpr]
    exact .bind .allocate fun _ => .seq (emits_typeExpr t And.right) <|
      .emit fun hC => ⟨h hC.1, hC.2⟩
  | .tuple ts, _, _, h => by
    rw [typeExpr]
    exact .bind (.allocateRange _) fun _ =>
      .seq (emits_typeExprs ts (Nat.le_of_eq (Nat.zero_add _)) And.right) <|
        .emit fun hC => ⟨h hC.1, hC.2.ofNat⟩
  | .record fs, _, _, h => by
    rw [typeExpr]
    exact .bind (.allocateRange _) fun _ => .bind (.allocateRange _) fun _ =>
      .seq (emits_typeExprFields fs (Nat.le_of_eq (Nat.zero_add _)) fun hC => ⟨hC.1.2, hC.2⟩) <|
        .emit fun hC => ⟨h hC.1.1, hC.1.2.ofNat, hC.2.ofNat⟩
  | .fn ps t, _, _, h => by
    rw [typeExpr]
    exact .bind (.allocateRange _) fun _ =>
      .seq (emits_typeExprs ps (Nat.le_of_eq (Nat.zero_add _)) And.right) <|
        .bind .allocate fun _ => .seq (emits_typeExpr t And.right) <|
          .emit fun hC => ⟨h hC.1.1, hC.2, hC.1.2.ofNat⟩
  | .union a b, _, _, h => by
    rw [typeExpr]
    exact .seq (emits_typeExpr a h) <| .bind .allocate fun _ =>
      .seq (emits_typeExpr b And.right) <| .emit fun hC => ⟨h hC.1, h hC.1, hC.2⟩

theorem emits_typeExprs : (ts : List TypeExpr) → ∀ {C : Prop} {first : Register} {index n : Nat},
    index + ts.length ≤ n → (C → F.HasRun first n) → Emits F C [] (typeExprs first index ts)
  | [], _, _, _, _, _, _ => by
    rw [typeExprs]
    exact .pure fun _ => trivial
  | t :: ts, _, _, _, _, hle, h => by
    rw [List.length_cons] at hle
    rw [typeExprs]
    exact .seq (emits_typeExpr t fun hC => .of_run (h hC) (by omega)) <|
      emits_typeExprs ts (by omega) h

theorem emits_typeExprFields : (fs : List (String × TypeExpr)) → ∀ {C : Prop}
    {firstKey firstType : Register} {index n : Nat}, index + fs.length ≤ n →
    (C → F.HasRun firstKey n ∧ F.HasRun firstType n) →
    Emits F C [] (typeExprFields firstKey firstType index fs)
  | [], _, _, _, _, _, _, _ => by
    rw [typeExprFields]
    exact .pure fun _ => trivial
  | (name, t) :: fs, _, _, _, _, _, hle, h => by
    rw [List.length_cons] at hle
    rw [typeExprFields]
    exact .seq (.load fun hC => .of_run (h hC).1 (by omega)) <|
      .seq (emits_typeExpr t fun hC => .of_run (h hC).2 (by omega)) <|
        emits_typeExprFields fs (by omega) h

end

/-! ## Expressions -/

theorem emits_callOrHole {callee first : Register} {argc : Nat}
    (h : C → F.Has dst ∧ F.Has callee ∧ F.HasRun first argc) :
    Emits F C [] (callOrHole dst callee argc first) :=
  .bind .allocate fun _ => .newLabel fun _ => .newLabel fun _ =>
    .seq (.emit fun hC => ⟨hC.1.1.2, (h hC.1.1.1).2.1⟩) <|
    .seq (.jumpIfFalse fun hC => ⟨hC.1.1.2, hC.1.2⟩) <|
    .seq (.emit fun hC => have hC := h hC.1.1.1; ⟨hC.1, hC.2.1, hC.2.2.ofNat⟩) <|
    .seq (.jump And.right) <| .bindLabel_seq <|
    .seq (.emit fun hC => have hC := h hC.1.1.1; ⟨hC.1, hC.2.1, hC.2.2.ofNat⟩) <|
    .bindLabel _

theorem emits_fieldOrHole {object : Register} {field : UInt32}
    (h : C → F.Has dst ∧ F.Has object ∧ field.toNat < F.block.identifiers.size) :
    Emits F C [] (fieldOrHole dst object field) :=
  .newLabel fun _ => .newLabel fun _ =>
    .seq (.emitJump fun hC => have ⟨hdst, hobject, hfield⟩ := h hC.1.1
      ⟨hC.1.2, fun _ ht => ⟨hdst, hobject, hfield, ht⟩⟩) <|
    .seq (.jump And.right) <| .bindLabel_seq <| .seq (.emit fun hC => h hC.1.1) <| .bindLabel _

theorem emits_elementOrHole {target index : Register}
    (h : C → F.Has dst ∧ F.Has target ∧ F.Has index) :
    Emits F C [] (elementOrHole dst target index) :=
  .bind .allocate fun _ => .newLabel fun _ => .newLabel fun _ =>
    .seq (.emit fun hC => ⟨hC.1.1.2, (h hC.1.1.1).2.1⟩) <|
    .seq (.jumpIfFalse fun hC => ⟨hC.1.1.2, hC.1.2⟩) <|
    .seq (.emit fun hC => h hC.1.1.1) <| .seq (.jump And.right) <| .bindLabel_seq <|
    .seq (.emit fun hC => h hC.1.1.1) <| .bindLabel _

variable {params : ImplicitParams}

theorem emits_implicitArgs {baked : Bool} {first : Register} {slots : List Ty} {n : Nat}
    (hle : slots.length ≤ n) (h : C → F.HasRun first n) :
    Emits F C [] (implicitArgs params baked first slots) :=
  .ite (fun _ => emits_tys (emits_paramVar params) slots ((Nat.zero_add _).symm ▸ hle)
    fun hC => ⟨trivial, h hC⟩) fun _ => .pure fun _ => trivial

theorem emits_inferArgs {baked : Bool} {callee first : Register} {count : Nat}
    (h : C → F.Has callee ∧ F.HasRun first count) :
    Emits F C [] (inferArgs baked callee count first) :=
  .ite (fun _ => .pure fun _ => trivial) fun _ => .seq (.emit fun _ => trivial) <|
    .seq (.emit fun hC => ⟨(h hC).1, (h hC).2.ofNat⟩) <| .emit fun _ => trivial

mutual

/-- What is emitted for an expression is in order. -/
theorem emits_expr : (e : Expr) → ∀ {C : Prop} {dst : Register}, (C → F.Has dst) →
    Emits F C [] (expr params e dst)
  | .ident _ x, _, _, h => by
    rw [expr]
    exact .bind (.identifier x) fun _ => .emit fun hC => ⟨h hC.1, hC.2⟩
  | .literal _ v, _, _, h => by
    rw [expr]
    exact .load h
  | .paren _ e, _, _, h => by
    rw [expr]
    exact emits_expr e h
  | .binary _ op l r, _, _, h => by
    have hl : ∀ {C : Prop} {dst : Register}, (C → F.Has dst) → Emits F C [] (expr params l dst) :=
      emits_expr l
    have hr : ∀ {C : Prop} {dst : Register}, (C → F.Has dst) → Emits F C [] (expr params r dst) :=
      emits_expr r
    rcases op.sort with rfl | rfl | rfl | hop
    · rw [expr]
      exact .newLabel fun _ => .seq (hl fun hC => h hC.1) <|
        .seq (.jumpIfFalse fun hC => ⟨h hC.1, hC.2⟩) <| .seq (hr fun hC => h hC.1) <| .bindLabel _
    · rw [expr]
      exact .newLabel fun _ => .newLabel fun _ => .seq (hl fun hC => h hC.1.1) <|
        .seq (.jumpIfFalse fun hC => ⟨h hC.1.1, hC.1.2⟩) <| .seq (.jump And.right) <|
          .bindLabel_seq <| .seq (hr fun hC => h hC.1.1) <| .bindLabel _
    · rw [expr]
      exact .bind .allocate fun _ => .bind .allocate fun _ => .seq (hl fun hC => hC.1.2) <|
        .seq (hr And.right) <| .emit fun hC => ⟨h hC.1.1, hC.1.2, hC.2⟩
    · rw [expr_operator hop]
      exact .bind .allocate fun _ => .bind (.identifier _) fun _ =>
        .seq (.emit fun hC => ⟨hC.1.2, hC.2⟩) <| .bind (.allocateRange 2) fun _ =>
          .seq (hl fun hC => .first hC.2 (by omega)) <|
            .seq (hr fun hC => .of_run hC.2 (by omega)) <|
              .emit fun hC => ⟨h hC.1.1.1, hC.1.1.2, hC.2⟩
  | .object _ fs, _, _, h => by
    rw [expr]
    exact .seq (.emit h) <| .bind .allocate fun _ => emits_fields fs fun hC => ⟨h hC.1, hC.2⟩
  | .array _ es, _, dst, h => by
    rw [expr]
    exact .seq (.emit h) <| .bind .allocate fun value =>
      emits_each (K := F.Has dst ∧ F.Has value) (fun _ => .emit id) es
        (fun hC => ⟨h hC.1, hC.2⟩) fun hC _ _ => hC.2
  | .tuple _ es, _, dst, h => by
    rw [expr]
    exact .seq (.emit h) <| .bind .allocate fun value =>
      emits_each (K := F.Has dst ∧ F.Has value) (fun _ => .emit id) es
        (fun hC => ⟨h hC.1, hC.2⟩) fun hC _ _ => hC.2
  | .call _ f es implicit, _, _, h => by
    rw [expr]
    refine .bind .allocate fun callee => .seq (emits_expr f And.right) ?_
    split
    next slots hslots _ =>
      refine .bind (.allocateRange _) fun first => ?_
      exact .seq (emits_implicitArgs (Nat.le_add_right _ _) And.right) <|
        .seq (emits_each (fun _ => .pure fun _ => trivial) es id
          fun hC i hi => .of_run hC.2 (by omega)) <|
        .seq (emits_inferArgs fun hC => ⟨hC.1.2, hC.2.mono (Nat.le_add_right _ _)⟩) <|
        .emit fun hC => ⟨h hC.1.1, hC.1.2, hC.2.ofNat⟩
    next =>
      exact .bind (.allocateRange _) fun _ =>
        .seq (emits_each (fun _ => .pure fun _ => trivial) es id
          fun hC i hi => .of_run hC.2 (by omega)) <|
        emits_callOrHole fun hC => ⟨h hC.1.1, hC.1.2, hC.2⟩
  | .member _ o x, _, _, h => by
    rw [expr]
    exact .bind .allocate fun _ => .seq (emits_expr o And.right) <|
      .bind (.identifier x) fun _ => .ite
        (fun _ => .emit fun hC => ⟨h hC.1.1, hC.1.2, hC.2⟩)
        (fun _ => emits_fieldOrHole fun hC => ⟨h hC.1.1, hC.1.2, hC.2⟩)
  | .subscript _ t i, _, _, h => by
    have hi : ∀ {C : Prop} {dst : Register}, (C → F.Has dst) → Emits F C [] (expr params i dst) :=
      emits_expr i
    rw [expr]
    refine .bind .allocate fun _ => .seq (emits_expr t And.right) ?_
    split
    · exact .emit fun hC => ⟨h hC.1, hC.2⟩
    · exact .bind .allocate fun _ => .seq (hi And.right) <|
        .emit fun hC => ⟨h hC.1.1, hC.1.2, hC.2⟩
    · exact .bind .allocate fun _ => .seq (hi And.right) <|
        emits_elementOrHole fun hC => ⟨h hC.1.1, hC.1.2, hC.2⟩
  | .type _ t, _, _, h => by
    rw [expr]
    exact emits_typeExpr t h

theorem emits_each {K : Prop} {after : Nat → Lower Unit} (hafter : ∀ i, Emits F K [] (after i)) :
    (es : List Expr) → ∀ {C : Prop} {dst : Nat → Register} {index : Nat}, (C → K) →
    (C → ∀ i < index + es.length, F.Has (dst i)) → Emits F C [] (each params dst after index es)
  | [], _, _, _, _, _ => by
    rw [each]
    exact .pure fun _ => trivial
  | e :: es, _, _, _, hK, h => by
    rw [List.length_cons] at h
    rw [each]
    exact .seq (emits_expr e fun hC => h hC _ (by omega)) <| .seq ((hafter _).weaken hK) <|
      emits_each hafter es hK fun hC i hi => h hC i (by omega)

theorem emits_fields : (fs : List (String × Expr)) → ∀ {C : Prop} {object value : Register},
    (C → F.Has object ∧ F.Has value) → Emits F C [] (fields params object value fs)
  | [], _, _, _, _ => by
    rw [fields]
    exact .pure fun _ => trivial
  | (name, e) :: fs, _, _, _, h => by
    rw [fields]
    exact .seq (emits_expr e fun hC => (h hC).2) <| .bind (.identifier name) fun _ =>
      .seq (.emit fun hC => ⟨(h hC.1).1, (h hC.1).2, hC.2⟩) <| emits_fields fs fun hC => h hC.1

end

/-! ## Declarations of variables, and patterns -/

theorem emits_typeTest {value : Register} (t : Ty) (h : C → F.Has value) :
    Emits F C [] (typeTest params value t) :=
  .bind .allocate fun _ => .seq (.emit fun hC => ⟨hC.2, h hC.1⟩) <| .bind .allocate fun _ =>
    .seq (emits_ty (emits_paramVar params) t fun hC => ⟨trivial, hC.2⟩) <|
    .emit fun hC => ⟨hC.2, hC.1.2⟩

theorem emits_classTest {value : Register} (t : Ty) (h : C → F.Has value) :
    Emits F C [] (classTest params value t) :=
  .newLabel fun _ => .newLabel fun _ => .bind .allocate fun _ =>
    .seq (.emit fun hC => ⟨hC.2, h hC.1.1.1⟩) <| .seq (.jumpIfFalse fun hC => ⟨hC.2, hC.1.1.2⟩) <|
    .seq (emits_typeTest t fun hC => h hC.1.1.1) <| .seq (.jump fun hC => hC.1.2) <|
    .bindLabel_seq <| .bind (.constant _) fun _ => .seq (.emit fun hC => ⟨_, hC.2⟩) <| .bindLabel _

theorem emits_anyTest {value : Register} (t : Ty) (h : C → F.Has value) :
    Emits F C [] (anyTest params value t) := by
  rw [anyTest]
  split
  · exact emits_typeTest t h
  · exact emits_typeTest t h
  · exact emits_classTest t h

theorem emits_initCheck (p : Place) (d : LetDecl) {value : Register} (h : C → F.Has value) :
    Emits F C [] (initCheck p d value) := by
  have hcheck (t : Ty) : Emits F C [] (runTimeCheck p.implicit value t) :=
    .ite (fun _ => .mark fun _ => .seq (emits_anyTest t h) (.release _)) fun _ =>
      .pure fun _ => trivial
  rw [initCheck]
  split
  · exact .ite (fun _ => hcheck _) fun _ => .pure fun _ => trivial
  · exact .pure fun _ => trivial

theorem emits_letDecl (p : Place) (d : LetDecl) (h : C → F.Has dst) :
    Emits F C [] (letDecl p d dst) :=
  .seq (emits_expr d.init h) <| .seq (emits_initCheck p d h) <| .bind (.identifier _) fun _ =>
    .seq (.emit fun hC => ⟨h hC.1, hC.2⟩) <| .loadUnit fun hC => h hC.1

mutual

theorem emits_pattern : (p : Pattern) → ∀ {C : Prop} {value : Register} {failed : Label},
    (C → F.Has value ∧ F.Target failed) → Emits F C [] (pattern value failed p)
  | .ident _ _, _, _, _, h => by
    rw [pattern]
    exact .bind (.identifier _) fun _ => .emit fun hC => ⟨(h hC.1).1, hC.2⟩
  | .any _, _, _, _, _ => by
    rw [pattern]
    exact .pure fun _ => trivial
  | .literal _ _, _, _, _, h => by
    rw [pattern]
    exact .bind .allocate fun _ => .seq (.load And.right) <| .bind .allocate fun _ =>
      .seq (.emit fun hC => ⟨hC.2, (h hC.1.1).1, hC.1.2⟩) <|
      .jumpIfFalse fun hC => ⟨hC.2, (h hC.1.1).2⟩
  | .object entries _, _, _, _, h => by
    rw [pattern]
    exact .bind .allocate fun _ => .seq (.emit fun hC => ⟨hC.2, (h hC.1).1⟩) <|
      .seq (.jumpIfFalse fun hC => ⟨hC.2, (h hC.1).2⟩) <|
      emits_patternEntries entries fun hC => h hC.1

theorem emits_patternEntries : (entries : List (String × Pattern)) → ∀ {C : Prop}
    {value : Register} {failed : Label}, (C → F.Has value ∧ F.Target failed) →
    Emits F C [] (patternEntries value failed entries)
  | [], _, _, _, _ => by
    rw [patternEntries]
    exact .pure fun _ => trivial
  | (_, p) :: entries, _, _, _, h => by
    rw [patternEntries]
    exact .bind .allocate fun _ => .bind (.identifier _) fun _ =>
      .seq (.emitJump fun hC => have ⟨hvalue, hfailed⟩ := h hC.1.1
        ⟨hfailed, fun _ ht => ⟨hC.1.2, hvalue, hC.2, ht⟩⟩) <|
      .seq (emits_pattern p fun hC => ⟨hC.1.2, (h hC.1.1).2⟩) <|
      emits_patternEntries entries fun hC => h hC.1.1

end

/-! ## Functions -/

theorem emits_argumentTest {argument : Register} (name : String) (h : C → F.Has argument) :
    Emits F C [] (argumentTest argument name) :=
  .mark fun _ => .bind .allocate fun _ => .newLabel fun _ => .newLabel fun _ =>
    .seq (.emit fun hC => ⟨hC.1.1.2, h hC.1.1.1⟩) <| .seq (.jumpIfFalse fun hC => ⟨hC.1.1.2, hC.1.2⟩) <|
    .seq (.jump And.right) <| .bindLabel_seq <| .bind (.constant _) fun _ =>
    .seq (.emit fun hC => ⟨_, hC.2⟩) <| .bindLabel_seq <| .release _

theorem emits_params : (ps : List Param) → ∀ {C : Prop} {index : Nat},
    (C → ∀ i < index + ps.length, F.Has (.ofNat i)) → Emits F C [] (Lower.params index ps)
  | [], _, _, _ => .pure fun _ => trivial
  | p :: ps, C, index, h => by
    rw [List.length_cons] at h
    have hargument : C → F.Has (.ofNat index) := fun hC => h hC index (by omega)
    have htest : Emits F C [] (if p.inferred then argumentTest (.ofNat index) p.name else Pure.pure ()) :=
      .ite (fun _ => emits_argumentTest _ hargument) fun _ => .pure fun _ => trivial
    have hparam : Emits F C [] (param p (.ofNat index)) :=
      .seq htest <| .bind (.identifier _) fun _ => .emit fun hC => ⟨hargument hC.1, hC.2⟩
    exact .seq hparam <| emits_params ps fun hC i hi => h hC i (by omega)

theorem emits_signature (t : Ty) : Emits F C [] (signature t) :=
  .bind .allocate fun _ => .seq (.emit fun _ => trivial) <| .seq (.emit fun _ => trivial) <|
    .bind (gives_declareVars _ nofun) fun registers =>
    .seq (emits_ty (emits_declaredVar registers) t fun hC => ⟨hC.2, hC.1.2⟩) <|
    .seq (.emit fun hC => ⟨hC.1.2, hC.1.2⟩) <| .seq (.emit fun _ => trivial) <|
    .seq (.emit fun _ => trivial) <| .emit fun hC => hC.1.2

/-- The evaluation of a signature takes a register for each parameter. -/
theorem length_le_of_signature {types : List Ty} {result : Ty} {implicit : Nat} {b b' : Builder}
    (h : signature (.fn types result implicit) b = .ok () b') : types.length ≤ 65535 := by
  obtain ⟨dst, _, -, h⟩ := bind_eq_ok h
  obtain ⟨_, _, -, h⟩ := bind_eq_ok h
  obtain ⟨_, _, -, h⟩ := bind_eq_ok h
  obtain ⟨registers, _, -, h⟩ := bind_eq_ok h
  obtain ⟨_, _, htype, -⟩ := bind_eq_ok h
  rw [ty] at htype
  obtain ⟨first, _, hfirst, -⟩ := bind_eq_ok htype
  have := (allocateRange_spec hfirst (.refl _)).2.2.2.1
  omega

theorem emits_createFunction (name : String) {block : Block}
    (h : C → block.Fits → block.Everywhere Block.Orderly) :
    Emits F C [] (createFunction name block) :=
  .bind (.function h) fun _ => .mark fun _ => .bind .allocate fun _ =>
    .seq (.emit fun hC => ⟨hC.2, hC.1.2⟩) <| .bind (.identifier _) fun _ =>
    .seq (.emit fun hC => ⟨hC.1.2, hC.2⟩) <| .release _

theorem tidy_new (name : String) (count : UInt32) : (Builder.new name count).Tidy F :=
  ⟨nofun, nofun⟩

/-- **The block of a function is in order** if what is emitted for its body is. -/
theorem functionBlock_orderly {checks : Bool} {head : FnHead} (hhead : head.Signed)
    {body : Place → Register → Lower Unit}
    (hbody : ∀ {F : Builder} {place : Place} {dst : Register}, place.loop = none →
      Emits F (F.Has dst) [] (body place dst)) :
    Gives F C [] (functionBlock checks head body)
      fun B => B.Fits → B.Everywhere Block.Orderly := by
  intro b b' B h
  obtain rfl := functionBlock_eq_ok h
  refine ⟨.refl _, fun _ hl => absurd hl List.not_mem_nil, fun _ _ => ⟨fun hfits => ?_, id⟩⟩
  obtain ⟨types, result, implicit, c, hsignature, hcode, rfl⟩ := functionBlock_spec h
  obtain ⟨b₁, b₂, b₃, b₄, b₅, value, h₁, rfl, h₃, h₄, h₅, hleave⟩ := functionCode_spec hcode
  obtain ⟨types', result', implicit', hsignature', hlength⟩ := hhead
  obtain ⟨rfl, -, -⟩ : types = types' ∧ result = result' ∧ implicit = implicit' := by
    simpa [hsignature] using hsignature'
  have hle := length_le_of_signature h₁
  obtain ⟨w₁, -, t₁⟩ := emits_signature (F := c) (C := True) _ h₁
  have w₂ : b₁.Within ⟨{ b₁.block with codeStart := .ofNat b₁.items.size }, b₁.items, b₁.labels,
      (UInt32.ofNat types.length).toUInt16⟩ := .of_grows ⟨id, id, id, Nat.le_refl _⟩
  obtain ⟨w₃, -, t₃⟩ := emits_params (F := c) head.params id h₃
  obtain ⟨w₄, -, t₄⟩ := Gives.allocate (F := c) (C := True) h₄
  obtain ⟨w₅, -, t₅⟩ := hbody (F := c) rfl h₅
  have i₅ := Inside.of_emit hleave hfits
  have i₄ := w₅.inside i₅
  have i₃ := w₄.inside i₄
  have i₂ := w₃.inside i₃
  have i₁ := w₂.inside i₂
  have hargument : ∀ i < 0 + head.params.length, c.Has (.ofNat i) := fun i hi => by
    have hcount := UInt32.le_iff_toNat_le.mp (w₁.inside i₁).block.registers
    have hparameters : (UInt32.ofNat types.length).toNat = types.length :=
      UInt32.toNat_ofNat_of_lt' (by simp only [UInt32.size]; omega)
    have hindex : (Register.ofNat i).index = i :=
      UInt16.toNat_ofNat_of_lt' (by simp only [UInt16.size]; omega)
    simp only [Builder.new, Block.new, hparameters] at hcount
    rw [Builder.Has, hindex]
    omega
  obtain ⟨hvalue, t₄⟩ := t₄ trivial i₄
  have htidy := (t₅ hvalue i₅).2 <| t₄ <| (t₃ hargument i₃).2 <|
    ((t₁ trivial i₁).2 (tidy_new _ _)).of_functions rfl
  exact htidy.finish hleave hvalue

/-! ## Statements -/

theorem emits_sequence {functions declarations : Lower Unit} {isEmpty : Bool}
    (hf : Emits F C [] functions) (hd : Emits F C [] declarations) (h : C → F.Has dst) :
    Emits F C [] (sequence isEmpty functions declarations dst) :=
  .seq hf <| .ite (fun _ => .loadUnit h) fun _ => hd

theorem emits_closeScopes : (count : Nat) → Emits F C [] (closeScopes count)
  | 0 => .pure fun _ => trivial
  | count + 1 => .seq (.emit fun _ => trivial) <| emits_closeScopes count

theorem emits_leaveScopes {p : Place} {choose : LoopLabels → Label}
    (h : C → ∀ l ∈ p.loop, F.Target (choose l)) : Emits F C [] (leaveScopes p choose) := by
  rw [leaveScopes]
  split
  · exact .bind .blockName fun _ => .throw _
  · next l hl => exact .seq (emits_closeScopes _) <| .jump fun hC => h hC l hl

theorem emits_forInit (p : Place) (h : C → F.Has dst) : (init : Option ForInit) →
    Emits F C [] (forInit p dst init)
  | none => .pure fun _ => trivial
  | some (.expr e) => emits_expr e h
  | some (.letDecl d) => emits_letDecl p d h

theorem emits_exprOrUnit (h : C → F.Has dst) : (e : Option Expr) →
    Emits F C [] (exprOrUnit params dst e)
  | some e => emits_expr e h
  | none => .loadUnit h

theorem emits_loopTest {scratch : Register} {exit : Label} (h : C → F.Has scratch ∧ F.Target exit) :
    (c : Option Expr) → Emits F C [] (loopTest params scratch exit c)
  | some e => .seq (emits_expr e fun hC => (h hC).1) <| .jumpIfFalse h
  | none => .pure fun _ => trivial

theorem emits_forNext {scratch : Register} (h : C → F.Has scratch) : (e : Option Expr) →
    Emits F C [] (forNext params scratch e)
  | some e => emits_expr e h
  | none => .pure fun _ => trivial

theorem emits_noMatch : Emits F C [] noMatch :=
  .bind (.constant _) fun _ => .emit fun hC => ⟨_, hC.2⟩

theorem emits_loopBody {body : Register → Lower Unit}
    (hbody : ∀ r, Emits F (C ∧ F.Has r) [] (body r)) : Emits F C [] (loopBody body) :=
  .mark fun _ => .bind .allocate fun r => .seq (hbody r) (.release _)

theorem targets_inLoop {p : Place} {exit next : Label} (hexit : F.Target exit)
    (hnext : F.Target next) : (p.inLoop exit next).Targets F := by
  rintro _ ⟨⟩
  exact ⟨hexit, hnext⟩

mutual

/-- What is emitted for a statement is in order. -/
theorem emits_stmt : (s : Stmt) → s.Heads FnHead.Signed → ∀ {F : Builder} {C : Prop} {p : Place}
    {dst : Register}, (C → F.Has dst ∧ p.Targets F) → Emits F C [] (stmt p s dst)
  | .empty _, _, _, _, _, _, h => by
    rw [stmt]
    exact .loadUnit fun hC => (h hC).1
  | .block body _, hs, _, _, p, _, h => by
    rw [stmt]
    exact .seq (.emit fun _ => trivial) <|
      .seq (emits_sequence (emits_functions body hs) (emits_decls body hs h) fun hC => (h hC).1) <|
      .emit fun _ => trivial
  | .ret value _, _, _, _, _, _, _ => by
    rw [stmt]
    exact .bind .allocate fun _ => .seq (emits_exprOrUnit And.right value) <| .emit And.right
  | .cond c s none _, hs, _, _, _, _, h => by
    rw [stmt]
    exact .bind .allocate fun _ => .seq (emits_expr c And.right) <| .newLabel fun _ => .newLabel fun _ =>
      .seq (.jumpIfFalse fun hC => ⟨hC.1.1.2, hC.1.2⟩) <|
      .seq (emits_stmt s hs fun hC => h hC.1.1.1) <| .seq (.jump And.right) <| .bindLabel_seq <|
      .seq (.loadUnit fun hC => (h hC.1.1.1).1) <| .bindLabel _
  | .cond c s (some t) _, hs, _, _, _, _, h => by
    rw [stmt]
    exact .bind .allocate fun _ => .seq (emits_expr c And.right) <| .newLabel fun _ => .newLabel fun _ =>
      .seq (.jumpIfFalse fun hC => ⟨hC.1.1.2, hC.1.2⟩) <|
      .seq (emits_stmt s hs.1 fun hC => h hC.1.1.1) <| .seq (.jump And.right) <| .bindLabel_seq <|
      .seq (emits_stmt t hs.2 fun hC => h hC.1.1.1) <| .bindLabel _
  | .whileLoop c body _, hs, _, _, _, _, h => by
    rw [stmt]
    exact .newLabel fun _ => .newLabel fun _ => .bindLabel_seq <| .bind .allocate fun _ =>
      .seq (emits_expr c And.right) <| .seq (.jumpIfFalse fun hC => ⟨hC.2, hC.1.2⟩) <|
      .seq (emits_loopBody fun _ => emits_stmt body hs fun hC =>
        ⟨hC.2, targets_inLoop hC.1.1.2 hC.1.1.1.2⟩) <|
      .seq (.jump fun hC => hC.1.1.2) <| .bindLabel_seq <| .loadUnit fun hC => (h hC.1.1.1).1
  | .forLoop init c increment body _, hs, _, _, _, _, h => by
    rw [stmt]
    exact .seq (.emit fun _ => trivial) <| .bind .allocate fun _ =>
      .seq (emits_forInit _ And.right init) <|
      .newLabel fun _ => .newLabel fun _ => .newLabel fun _ => .bindLabel_seq <|
      .seq (emits_loopTest (fun hC => ⟨hC.1.1.1.2, hC.2⟩) c) <|
      .seq (emits_loopBody fun _ => emits_stmt body hs fun hC =>
        ⟨hC.2, targets_inLoop hC.1.2 hC.1.1.2⟩) <|
      .bindLabel_seq <| .seq (emits_forNext (fun hC => hC.1.1.1.2) increment) <|
      .seq (.jump fun hC => hC.1.1.2) <| .bindLabel_seq <| .seq (.emit fun _ => trivial) <|
      .loadUnit fun hC => (h hC.1.1.1.1).1
  | .breakLoop _, _, _, _, _, _, h => by
    rw [stmt]
    exact emits_leaveScopes fun hC l hl => ((h hC).2 l hl).1
  | .continueLoop _, _, _, _, _, _, h => by
    rw [stmt]
    exact emits_leaveScopes fun hC l hl => ((h hC).2 l hl).2
  | .cases scrutinee cs none _, hs, _, _, _, _, h => by
    rw [stmt]
    exact .bind .allocate fun _ => .seq (emits_expr scrutinee And.right) <| .newLabel fun _ =>
      .seq (emits_matchCases cs hs fun hC => ⟨hC.1.2, hC.2, h hC.1.1⟩) <|
      .seq emits_noMatch <| .bindLabel _
  | .cases scrutinee cs (some s) _, hs, _, _, _, _, h => by
    rw [stmt]
    exact .bind .allocate fun _ => .seq (emits_expr scrutinee And.right) <| .newLabel fun _ =>
      .seq (emits_matchCases cs hs.1 fun hC => ⟨hC.1.2, hC.2, h hC.1.1⟩) <|
      .seq (emits_stmt s hs.2 fun hC => h hC.1.1) <| .bindLabel _
  | .expr e, _, _, _, _, _, h => by
    rw [stmt]
    exact emits_expr e fun hC => (h hC).1

theorem emits_matchCases : (cs : List (Pattern × Stmt)) → Stmt.HeadsCases FnHead.Signed cs →
    ∀ {F : Builder} {C : Prop} {p : Place} {scrutinee dst : Register} {done : Label},
    (C → F.Has scrutinee ∧ F.Target done ∧ F.Has dst ∧ p.Targets F) →
    Emits F C [] (matchCases p scrutinee done cs dst)
  | [], _, _, _, _, _, _, _, _ => by
    rw [matchCases]
    exact .pure fun _ => trivial
  | (pat, s) :: cs, hs, _, _, _, _, _, _, h => by
    rw [matchCases]
    exact .mark fun _ => .newLabel fun _ => .seq (.emit fun _ => trivial) <|
      .seq (emits_pattern pat fun hC => ⟨(h hC.1).1, hC.2⟩) <|
      .seq (emits_stmt s hs.1 fun hC => (h hC.1).2.2) <| .seq (.emit fun _ => trivial) <|
      .seq (.jump fun hC => (h hC.1).2.1) <| .bindLabel_seq <| .seq (.emit fun _ => trivial) <|
      .seq (.release _) <| emits_matchCases cs hs.2 fun hC => h hC.1

/-- The functions of a block are blocks of their own: each is judged by its own last builder. -/
theorem emits_functions : (ds : List Decl) → Decl.HeadsList FnHead.Signed ds → ∀ {F : Builder}
    {C : Prop} {p : Place}, Emits F C [] (functions p ds)
  | [], _, _, _, _ => by
    rw [functions]
    exact .pure fun _ => trivial
  | .fn head body :: ds, hds, _, _, p => by
    have hbody : ∀ {F : Builder} {place : Place} {dst : Register}, place.loop = none →
        Emits F (F.Has dst) [] (do
          emit .pushScope
          sequence body.isEmpty (functions place.deeper body) (decls place.deeper body dst) dst
          emit .popScope) := fun {F place dst} hloop =>
      .seq (.emit fun _ => trivial) <|
        .seq (emits_sequence (emits_functions body hds.1.2) (emits_decls body hds.1.2 fun hdst =>
          ⟨hdst, by rw [Place.Targets, Place.deeper, hloop]; nofun⟩) id) <|
        .emit fun _ => trivial
    rw [functions]
    exact .bind (functionBlock_orderly hds.1.1 hbody) fun _ =>
      .seq (emits_createFunction _ And.right) <| emits_functions ds hds.2
  | .letDecl _ :: ds, hds, _, _, _ => by
    rw [functions_letDecl]
    exact emits_functions ds hds.2
  | .stmt _ :: ds, hds, _, _, _ => by
    rw [functions_stmt]
    exact emits_functions ds hds.2

theorem emits_decls : (ds : List Decl) → Decl.HeadsList FnHead.Signed ds → ∀ {F : Builder}
    {C : Prop} {p : Place} {dst : Register}, (C → F.Has dst ∧ p.Targets F) →
    Emits F C [] (decls p ds dst)
  | [], _, _, _, _, _, _ => by
    rw [decls]
    exact .pure fun _ => trivial
  | d :: ds, hds, _, _, _, _, h => by
    rw [decls]
    exact .mark fun _ => .seq (emits_decl d hds.1 h) <| .seq (.release _) <| emits_decls ds hds.2 h

theorem emits_decl : (d : Decl) → d.Heads FnHead.Signed → ∀ {F : Builder} {C : Prop} {p : Place}
    {dst : Register}, (C → F.Has dst ∧ p.Targets F) → Emits F C [] (decl p d dst)
  | .letDecl d, _, _, _, p, _, h => by
    rw [decl]
    exact emits_letDecl p d fun hC => (h hC).1
  | .fn .., _, _, _, _, _, h => by
    rw [decl]
    exact .loadUnit fun hC => (h hC).1
  | .stmt s, hs, _, _, _, _, h => by
    rw [decl]
    exact emits_stmt s hs h

end

end Lower

/-! ## Programs -/

/-- **The block of a program is in order** up to the first registers of empty runs, if all functions
of the accepted declarations have signatures. -/
theorem Program.orderly_of_lower {checks : Bool} {rejected : List Nat} {ds : Program} {B : Block}
    (hds : Decl.HeadsList FnHead.Signed (ds.accepted rejected))
    (h : ds.lower checks rejected = .ok B) (hfits : B.Fits) : B.Everywhere Block.Orderly := by
  unfold Program.lower at h
  dsimp only at h
  split at h
  next c hact =>
    cases h
    obtain ⟨value, b₁, h₁, hact⟩ := Lower.bind_eq_ok hact
    obtain ⟨_, b₂, h₂, hleave⟩ := Lower.bind_eq_ok hact
    have hbody : Lower.Emits c (c.Has value) []
        (Lower.body ⟨checks, [], 0, none⟩ (ds.accepted rejected) value) :=
      Lower.emits_sequence (Lower.emits_functions _ hds)
        (Lower.emits_decls _ hds fun hvalue => ⟨hvalue, nofun⟩) id
    obtain ⟨-, -, t₁⟩ := Lower.Gives.allocate (F := c) (C := True) h₁
    obtain ⟨w₂, -, t₂⟩ := hbody h₂
    have i₂ := Inside.of_emit hleave hfits
    obtain ⟨hvalue, t₁⟩ := t₁ trivial (w₂.inside i₂)
    exact ((t₂ hvalue i₂).2 (t₁ (Lower.tidy_new _ _))).finish hleave hvalue
  next => cases h

namespace Compiler

theorem compile_eq_ok {c c' : Compiler} {program : Program} {r : Compilation}
    (h : c.compile program = (.ok r, c')) :
    r.checked = (Checker.initial.checkProgram program).1 ∧
      r.checked.program.lower c.options.checks r.checked.rejected = .ok r.block := by
  unfold compile at h
  split at h
  next checked checker hchecked =>
    dsimp only at h
    split at h
    · cases h
    · split at h
      next block hblock =>
        cases h
        exact ⟨by rw [hchecked], hblock⟩
      next => cases h

/-- **Generated code is in order, and verifies exactly if its empty runs of registers start inside
the register file.** Whatever the program and the options are, every operand, jump target, run of
registers and message of the block and of the blocks nested in it is in order, up to the first
registers of empty runs.

`Block.Fits` bounds the sizes of the block by what operands of 32 bits can address: the generator
converts positions without a check. -/
theorem verify_compiled_iff {c c' : Compiler} {program : Program} {r : Compilation}
    (h : c.compile program = (.ok r, c')) (hfits : r.block.Fits) :
    r.block.Everywhere Block.Orderly ∧
      (r.block.verify = .ok () ↔ r.block.Everywhere Block.EmptyRunsInside) := by
  obtain ⟨hchecked, hlower⟩ := compile_eq_ok h
  have hsigned := Checker.signed_accepted Checker.initial program
  rw [← hchecked] at hsigned
  have horderly := Program.orderly_of_lower hsigned hlower hfits
  refine ⟨horderly, (Block.verify_eq_ok_iff _).trans ⟨fun hclean => ?_, fun hinside => ?_⟩⟩
  · exact (horderly.and hclean).mono fun _ h => h.1.clean_iff.mp h.2
  · exact (horderly.and hinside).mono fun _ h => h.1.clean_iff.mpr h.2

/-- The code of a function that is called with an argument verifies, and has no empty run. -/
theorem verify_compiled_identity :
    let f : FnHead := ⟨"f", default, [], [⟨"x", none, false, default⟩], none, default, default, none⟩
    let call : Expr := .call default (.ident default "f") [.literal default (.bool true)] none
    let program : Program := [.fn f [.stmt (.expr (.ident default "x"))], .stmt (.expr call)]
    ∃ r c', (Compiler.new {}).compile program = (.ok r, c') ∧ r.block.verify = .ok () ∧
      r.block.Everywhere Block.Orderly ∧ r.block.Everywhere Block.EmptyRunsInside := by
  intro f call program
  have hblock : (match ((Compiler.new {}).compile program).1 with
    | .ok r => r.block.fits && decide (r.block.verify = .ok ())
    | .error _ => false) = true := by cbv
  generalize hcompile : (Compiler.new {}).compile program = result at hblock ⊢
  obtain ⟨answer, c'⟩ := result
  cases answer with
  | error e => cases hblock
  | ok r =>
    obtain ⟨hfits, hverify⟩ := Bool.and_eq_true_iff.mp hblock
    have hverify := of_decide_eq_true hverify
    have hcompiled := verify_compiled_iff hcompile hfits
    exact ⟨r, c', rfl, hverify, hcompiled.1, hcompiled.2.mp hverify⟩

/-- The code of a function that is called without arguments does not verify: the call names, as the
first register of its empty run of arguments, one that was never handed out. -/
theorem verify_compiled_emptyRun :
    let f : FnHead := ⟨"f", default, [], [], none, default, default, none⟩
    let call : Expr := .call default (.ident default "f") [] none
    let program : Program := [.fn f [.stmt (.expr (.literal default (.bool true)))], .stmt (.expr call)]
    ∃ r c', (Compiler.new {}).compile program = (.ok r, c') ∧
      r.block.verify = .error ⟨"<program>", 4, .call ⟨0⟩ ⟨1⟩ 0 ⟨2⟩, .register ⟨2⟩ 2⟩ := by
  intro f call program
  have hblock : (match ((Compiler.new {}).compile program).1 with
    | .ok r => decide (r.block.verify =
        .error ⟨"<program>", 4, .call ⟨0⟩ ⟨1⟩ 0 ⟨2⟩, .register ⟨2⟩ 2⟩)
    | .error _ => false) = true := by cbv
  generalize (Compiler.new {}).compile program = result at hblock ⊢
  obtain ⟨answer, c'⟩ := result
  cases answer with
  | error e => cases hblock
  | ok r => exact ⟨r, c', rfl, of_decide_eq_true hblock⟩

end Compiler

end Reified
