import Reified.Proofs.Isolation.Filling
import Reified.Proofs.Machine.TypeSteps

/-!
# Generated code fills its cells

The code for an expression names its destination and registers handed out after it, and nothing else. So the
registers with cells under construction are left alone by the code for the parts of a literal, since they have
been handed out before.

Code for types, tests, patterns and statements creates no cells of this sort itself.

## Main results

* `Lower.fills_ty`, `Lower.fills_expr` — code in which cells may be under construction
* `Lower.fills_stmt`, `Lower.fills_functions` — code in which none is
* `Program.fills_of_lower` — **generated code** fills its cells before anything else is done with them
-/

namespace Reified

namespace Register

variable {r r' r'' : Register} {S : List Nat} {n k : Nat}

/-- A register that is handed out comes after all that were handed out before. -/
theorem above_of_le (hS : ∀ s ∈ S, s < n) (hr : n ≤ r.index) : r.Above S := fun s hs =>
  (hS s hs).trans_le hr

theorem Above.offset (h : r.Above S) (k : Nat) : (r.offset k).Above S :=
  above_of_le h (r.le_index_offset k)

theorem Above.lt_add (h : r.Above S) (k : Nat) : ∀ s ∈ S, s < r.index + k := fun s hs =>
  (h s hs).trans_le (Nat.le_add_right _ _)

/-- The registers that an instruction names come after all those of the list. -/
theorem above₁ (h : r.Above S) : ∀ x ∈ [r], x.Above S := List.forall_mem_singleton.mpr h

theorem above₂ (h : r.Above S) (h' : r'.Above S) : ∀ x ∈ [r, r'], x.Above S :=
  List.forall_mem_cons.mpr ⟨h, above₁ h'⟩

theorem above₃ (h : r.Above S) (h' : r'.Above S) (h'' : r''.Above S) : ∀ x ∈ [r, r', r''], x.Above S :=
  List.forall_mem_cons.mpr ⟨h, above₂ h' h''⟩

end Register

namespace Lower

open Register

variable {n : Nat} {S : List Nat} {L : List (Label × List Nat)} {params : ImplicitParams}

/-! ## Types -/

section ty

set_option linter.unusedSectionVars false

variable {var : TyVar → Register → Lower Unit}
  (hvar : ∀ (v : TyVar) {n : Nat} {r : Register}, r.Above S → Fills n S S L (var v r))

include hvar

mutual

/-- The code for a type, given what the code for its variables does. -/
theorem fills_ty : (t : Ty) → ∀ {n : Nat} {dst : Register}, (∀ s ∈ S, s < n) → dst.Above S →
    Fills n S S L (ty var t dst)
  | .var v, _, _, _, hdst => by
    rw [ty]
    exact hvar v hdst
  | .name x, _, _, _, hdst => by
    rw [ty]
    exact .bind (.identifier x) fun _ => .other ⟨id, rfl⟩ (above₁ hdst)
  | .array t, _, _, hS, hdst => by
    rw [ty]
    exact .allocate fun r hr =>
      have hr := above_of_le hS hr
      .seq (fills_ty t (hr.lt_add 1) hr) <| .other ⟨id, rfl⟩ (above₂ hdst hr)
  | .tuple ts, _, _, hS, hdst => by
    rw [ty]
    exact .allocateRange fun r hr =>
      have hr := above_of_le hS hr
      .seq (fills_tys ts (hr.lt_add _) hr 0) <| .other ⟨id, rfl⟩ (above₂ hdst hr)
  | .record fs, _, _, hS, hdst => by
    rw [ty]
    exact .allocateRange fun r hr => .allocateRange fun r' hr' =>
      have hr := above_of_le hS hr
      have hr' := above_of_le (hr.lt_add _) hr'
      .seq (fills_tyFields fs (hr'.lt_add _) hr hr' 0) <| .other ⟨id, rfl⟩ (above₃ hdst hr hr')
  | .fn ps t k, _, _, hS, hdst => by
    rw [ty]
    exact .allocateRange fun r hr =>
      have hr := above_of_le hS hr
      .seq (fills_tys ps (hr.lt_add _) hr 0) <| .allocate fun r' hr' =>
        have hr' := above_of_le (hr.lt_add _) hr'
        .seq (fills_ty t (hr'.lt_add 1) hr') <| .other ⟨id, rfl⟩ (above₃ hdst hr hr')
  | .union a b, _, _, hS, hdst => by
    rw [ty]
    exact .seq (fills_ty a hS hdst) <| .allocate fun r hr =>
      have hr := above_of_le hS hr
      .seq (fills_ty b (hr.lt_add 1) hr) <| .other ⟨id, rfl⟩ (above₃ hdst hdst hr)
  | .binding x t, _, _, hS, hdst => by
    rw [ty]
    exact .allocate fun r hr =>
      have hr := above_of_le hS hr
      .seq (fills_ty t (hr.lt_add 1) hr) <| .bind (.identifier x) fun _ =>
        .other ⟨id, rfl⟩ (above₂ hdst hr)

theorem fills_tys : (ts : List Ty) → ∀ {n : Nat} {first : Register}, (∀ s ∈ S, s < n) →
    first.Above S → ∀ index, Fills n S S L (tys var first index ts)
  | [], _, _, _, _, _ => by
    rw [tys]
    exact .pure ()
  | t :: ts, _, _, hS, hfirst, index => by
    rw [tys]
    exact .seq (fills_ty t hS (hfirst.offset index)) <| fills_tys ts hS hfirst (index + 1)

theorem fills_tyFields : (fs : List (String × Ty)) → ∀ {n : Nat} {firstKey firstType : Register},
    (∀ s ∈ S, s < n) → firstKey.Above S → firstType.Above S →
    ∀ index, Fills n S S L (tyFields var firstKey firstType index fs)
  | [], _, _, _, _, _, _, _ => by
    rw [tyFields]
    exact .pure ()
  | (name, t) :: fs, _, _, _, hS, hkey, htype, index => by
    rw [tyFields]
    exact .seq (.load (hkey.offset index) _) <| .seq (fills_ty t hS (htype.offset index)) <|
      fills_tyFields fs hS hkey htype (index + 1)

end

end ty

theorem fills_paramVar (v : TyVar) {dst : Register} (hdst : dst.Above S) :
    Fills n S S L (paramVar params v dst) := by
  rw [paramVar]
  split
  · exact .bind (.identifier _) fun _ => .other ⟨id, rfl⟩ (above₁ hdst)
  · exact .throw _

mutual

theorem fills_typeExpr : (t : TypeExpr) → ∀ {n : Nat} {dst : Register}, (∀ s ∈ S, s < n) → dst.Above S →
    Fills n S S L (typeExpr t dst)
  | .name x _, _, _, _, hdst => by
    rw [typeExpr]
    refine .bind (.identifier x) fun _ => ?_
    split
    · exact .other ⟨id, rfl⟩ (above₁ hdst)
    · exact .other ⟨id, rfl⟩ (above₁ hdst)
  | .array t, _, _, hS, hdst => by
    rw [typeExpr]
    exact .allocate fun r hr =>
      have hr := above_of_le hS hr
      .seq (fills_typeExpr t (hr.lt_add 1) hr) <| .other ⟨id, rfl⟩ (above₂ hdst hr)
  | .tuple ts, _, _, hS, hdst => by
    rw [typeExpr]
    exact .allocateRange fun r hr =>
      have hr := above_of_le hS hr
      .seq (fills_typeExprs ts (hr.lt_add _) hr 0) <| .other ⟨id, rfl⟩ (above₂ hdst hr)
  | .record fs, _, _, hS, hdst => by
    rw [typeExpr]
    exact .allocateRange fun r hr => .allocateRange fun r' hr' =>
      have hr := above_of_le hS hr
      have hr' := above_of_le (hr.lt_add _) hr'
      .seq (fills_typeExprFields fs (hr'.lt_add _) hr hr' 0) <| .other ⟨id, rfl⟩ (above₃ hdst hr hr')
  | .fn ps t, _, _, hS, hdst => by
    rw [typeExpr]
    exact .allocateRange fun r hr =>
      have hr := above_of_le hS hr
      .seq (fills_typeExprs ps (hr.lt_add _) hr 0) <| .allocate fun r' hr' =>
        have hr' := above_of_le (hr.lt_add _) hr'
        .seq (fills_typeExpr t (hr'.lt_add 1) hr') <| .other ⟨id, rfl⟩ (above₃ hdst hr hr')
  | .union a b, _, _, hS, hdst => by
    rw [typeExpr]
    exact .seq (fills_typeExpr a hS hdst) <| .allocate fun r hr =>
      have hr := above_of_le hS hr
      .seq (fills_typeExpr b (hr.lt_add 1) hr) <| .other ⟨id, rfl⟩ (above₃ hdst hdst hr)

theorem fills_typeExprs : (ts : List TypeExpr) → ∀ {n : Nat} {first : Register}, (∀ s ∈ S, s < n) →
    first.Above S → ∀ index, Fills n S S L (typeExprs first index ts)
  | [], _, _, _, _, _ => by
    rw [typeExprs]
    exact .pure ()
  | t :: ts, _, _, hS, hfirst, index => by
    rw [typeExprs]
    exact .seq (fills_typeExpr t hS (hfirst.offset index)) <| fills_typeExprs ts hS hfirst (index + 1)

theorem fills_typeExprFields : (fs : List (String × TypeExpr)) →
    ∀ {n : Nat} {firstKey firstType : Register}, (∀ s ∈ S, s < n) → firstKey.Above S →
    firstType.Above S → ∀ index, Fills n S S L (typeExprFields firstKey firstType index fs)
  | [], _, _, _, _, _, _, _ => by
    rw [typeExprFields]
    exact .pure ()
  | (name, t) :: fs, _, _, _, hS, hkey, htype, index => by
    rw [typeExprFields]
    exact .seq (.load (hkey.offset index) _) <| .seq (fills_typeExpr t hS (htype.offset index)) <|
      fills_typeExprFields fs hS hkey htype (index + 1)

end

/-! ## Expressions -/

theorem fills_callOrHole {dst callee first : Register} (hS : ∀ s ∈ S, s < n) (hdst : dst.Above S)
    (hcallee : callee.Above S) (hfirst : first.Above S) (argc : Nat) :
    Fills n S S L (callOrHole dst callee argc first) :=
  .allocate fun _ hr =>
    have hr := above_of_le hS hr
    .newLabel S fun _ => .newLabel S fun _ => .seq (.other ⟨id, rfl⟩ (above₂ hr hcallee)) <|
      .seq (.jumpIfFalse hr (.tail _ (.head _))) <|
      .seq (.other ⟨id, rfl⟩ (above₃ hdst hcallee hfirst)) <| .seq (.jump (.head _)) <|
      .seq (.bindLabel (.tail _ (.head _))) <|
      .seq (.other ⟨id, rfl⟩ (above₃ hdst hcallee hfirst)) <| .bindLabel (.head _)

theorem fills_fieldOrHole {dst object : Register} (hdst : dst.Above S) (hobject : object.Above S)
    (field : UInt32) : Fills n S S L (fieldOrHole dst object field) :=
  .newLabel S fun _ => .newLabel S fun _ =>
    .seq (.emitJump (.noField ..) (above₂ hdst hobject) (.tail _ (.head _))) <|
    .seq (.jump (.head _)) <| .seq (.bindLabel (.tail _ (.head _))) <|
    .seq (.other ⟨id, rfl⟩ (above₂ hdst hobject)) <| .bindLabel (.head _)

theorem fills_elementOrHole {dst target index : Register} (hS : ∀ s ∈ S, s < n) (hdst : dst.Above S)
    (htarget : target.Above S) (hindex : index.Above S) :
    Fills n S S L (elementOrHole dst target index) :=
  .allocate fun _ hr =>
    have hr := above_of_le hS hr
    .newLabel S fun _ => .newLabel S fun _ => .seq (.other ⟨id, rfl⟩ (above₂ hr htarget)) <|
      .seq (.jumpIfFalse hr (.tail _ (.head _))) <|
      .seq (.other ⟨id, rfl⟩ (above₃ hdst htarget hindex)) <| .seq (.jump (.head _)) <|
      .seq (.bindLabel (.tail _ (.head _))) <|
      .seq (.other ⟨id, rfl⟩ (above₃ hdst htarget hindex)) <| .bindLabel (.head _)

theorem fills_implicitArgs {first : Register} (hS : ∀ s ∈ S, s < n) (hfirst : first.Above S)
    (baked : Bool) (slots : List Ty) : Fills n S S L (implicitArgs params baked first slots) :=
  .ite (fun _ => fills_tys (fun v _ _ hr => fills_paramVar v hr) slots hS hfirst 0) fun _ => .pure ()

theorem fills_inferArgs {callee first : Register} (hcallee : callee.Above S) (hfirst : first.Above S)
    (baked : Bool) (count : Nat) : Fills n S S L (inferArgs baked callee count first) :=
  .ite (fun _ => .pure ()) fun _ => .seq (.other ⟨id, rfl⟩ (List.forall_mem_nil _)) <|
    .seq (.other ⟨id, rfl⟩ (above₂ hcallee hfirst)) <| .other ⟨id, rfl⟩ (List.forall_mem_nil _)

mutual

/-- **The code for an expression** leaves cells under construction alone, if its destination comes after them.
Its own cells are complete at the end. -/
theorem fills_expr : (e : Expr) → ∀ {n : Nat} {S : List Nat} {L : List (Label × List Nat)}
    {dst : Register}, dst.Above S → dst.index < n → Fills n S S L (expr params e dst)
  | .ident _ x, _, _, _, _, hdst, _ => by
    rw [expr]
    exact .bind (.identifier x) fun _ => .other ⟨id, rfl⟩ (above₁ hdst)
  | .literal _ v, _, _, _, _, hdst, _ => by
    rw [expr]
    exact .load hdst _
  | .paren _ e, _, _, _, _, hdst, hlt => by
    rw [expr]
    exact fills_expr e hdst hlt
  | .binary _ op l r, n, S, L, dst, hdst, hlt => by
    have hl {n : Nat} {L : List (Label × List Nat)} {dst : Register} (hdst : dst.Above S)
        (hlt : dst.index < n) : Fills n S S L (expr params l dst) := fills_expr l hdst hlt
    have hr {n : Nat} {L : List (Label × List Nat)} {dst : Register} (hdst : dst.Above S)
        (hlt : dst.index < n) : Fills n S S L (expr params r dst) := fills_expr r hdst hlt
    have hS : ∀ s ∈ S, s < n := fun s hs => (hdst s hs).trans hlt
    rcases op.sort with rfl | rfl | rfl | hop
    · rw [expr]
      exact .newLabel S fun _ => .seq (hl hdst hlt) <| .seq (.jumpIfFalse hdst (.head _)) <|
        .seq (hr hdst hlt) <| .bindLabel (.head _)
    · rw [expr]
      exact .newLabel S fun _ => .newLabel S fun _ => .seq (hl hdst hlt) <|
        .seq (.jumpIfFalse hdst (.tail _ (.head _))) <| .seq (.jump (.head _)) <|
        .seq (.bindLabel (.tail _ (.head _))) <| .seq (hr hdst hlt) <| .bindLabel (.head _)
    · rw [expr]
      exact .allocate fun a ha => .allocate fun b hb =>
        have ha' := above_of_le hS ha
        have hb' := above_of_le (ha'.lt_add 1) hb
        .seq (hl ha' ((Nat.lt_of_succ_le hb).trans (Nat.lt_succ_self _))) <|
          .seq (hr hb' (Nat.lt_succ_self _)) <| .other ⟨id, rfl⟩ (above₃ hdst ha' hb')
    · rw [expr_operator hop]
      exact .allocate fun callee hcallee => .bind (.identifier _) fun _ =>
        have hcallee := above_of_le hS hcallee
        .seq (.other ⟨id, rfl⟩ (above₁ hcallee)) <| .allocateRange fun first hfirst =>
          have hfirst := above_of_le (hcallee.lt_add 1) hfirst
          .seq (hl hfirst (Nat.lt_add_of_pos_right Nat.two_pos)) <|
            .seq (hr (hfirst.offset 1) (Nat.lt_succ_of_le (first.index_offset_le 1))) <|
            .other ⟨id, rfl⟩ (above₃ hdst hcallee hfirst)
  | .object _ fs, n, S, L, dst, hdst, hlt => by
    have hS : ∀ s ∈ dst.index :: S, s < n :=
      List.forall_mem_cons.mpr ⟨hlt, fun s hs => (hdst s hs).trans hlt⟩
    rw [expr]
    exact .complete (.seq (.emit (.newObject hdst) rfl) <| .allocate fun r hr =>
      fills_fields fs (.head _) (above_of_le hS hr) (Nat.lt_succ_self _)) (List.subset_cons_self _ _)
  | .array _ es, n, S, L, dst, hdst, hlt => by
    have hS : ∀ s ∈ dst.index :: S, s < n :=
      List.forall_mem_cons.mpr ⟨hlt, fun s hs => (hdst s hs).trans hlt⟩
    rw [expr]
    exact .complete (.seq (.emit (.newArray hdst) rfl) <| .allocate fun r hr =>
      have hr := above_of_le hS hr
      fills_each (fun _ => .emit (.setArrayIndex (.head _) hr) rfl) es (fun _ => r) 0
        fun _ _ => ⟨hr, Nat.lt_succ_self _⟩) (List.subset_cons_self _ _)
  | .tuple _ es, n, S, L, dst, hdst, hlt => by
    have hS : ∀ s ∈ dst.index :: S, s < n :=
      List.forall_mem_cons.mpr ⟨hlt, fun s hs => (hdst s hs).trans hlt⟩
    rw [expr]
    exact .complete (.seq (.emit (.newTuple hdst) rfl) <| .allocate fun r hr =>
      have hr := above_of_le hS hr
      fills_each (fun _ => .emit (.setTupleIndex (.head _) hr) rfl) es (fun _ => r) 0
        fun _ _ => ⟨hr, Nat.lt_succ_self _⟩) (List.subset_cons_self _ _)
  | .call _ f es implicit, n, S, L, dst, hdst, hlt => by
    have hS : ∀ s ∈ S, s < n := fun s hs => (hdst s hs).trans hlt
    rw [expr]
    refine .allocate fun callee hcallee => ?_
    have hcallee := above_of_le hS hcallee
    refine .seq (fills_expr f hcallee (Nat.lt_succ_self _)) ?_
    split
    next slots _ =>
      refine .allocateRange fun first hfirst => ?_
      have hfirst := above_of_le (hcallee.lt_add 1) hfirst
      have hS' := hfirst.lt_add (slots.length + es.length)
      refine .seq (fills_implicitArgs hS' hfirst _ slots) <| .seq (fills_each (fun _ => .pure ()) es _ 0
        fun i hi => ⟨hfirst.offset _, ?_⟩) <| .seq (fills_inferArgs hcallee hfirst _ _) <|
        .other ⟨id, rfl⟩ (above₃ hdst hcallee hfirst)
      have := first.index_offset_le (slots.length + i)
      omega
    next =>
      refine .allocateRange fun first hfirst => ?_
      have hfirst := above_of_le (hcallee.lt_add 1) hfirst
      refine .seq (fills_each (fun _ => .pure ()) es _ 0 fun i hi => ⟨hfirst.offset _, ?_⟩) <|
        fills_callOrHole (hfirst.lt_add _) hdst hcallee hfirst _
      have := first.index_offset_le i
      omega
  | .member _ o x, n, S, L, dst, hdst, hlt => by
    have hS : ∀ s ∈ S, s < n := fun s hs => (hdst s hs).trans hlt
    rw [expr]
    exact .allocate fun r hr =>
      have hr := above_of_le hS hr
      .seq (fills_expr o hr (Nat.lt_succ_self _)) <| .bind (.identifier x) fun field =>
        .ite (fun _ => .other ⟨id, rfl⟩ (above₂ hdst hr)) fun _ => fills_fieldOrHole hdst hr field
  | .subscript _ t i, n, S, L, dst, hdst, hlt => by
    have hi {n : Nat} {L : List (Label × List Nat)} {dst : Register} (hdst : dst.Above S)
        (hlt : dst.index < n) : Fills n S S L (expr params i dst) := fills_expr i hdst hlt
    have hS : ∀ s ∈ S, s < n := fun s hs => (hdst s hs).trans hlt
    rw [expr]
    refine .allocate fun r hr => ?_
    have hr := above_of_le hS hr
    refine .seq (fills_expr t hr (Nat.lt_succ_self _)) ?_
    split
    · exact .other ⟨id, rfl⟩ (above₂ hdst hr)
    · exact .allocate fun r' hr' =>
        have hr' := above_of_le (hr.lt_add 1) hr'
        .seq (hi hr' (Nat.lt_succ_self _)) <| .other ⟨id, rfl⟩ (above₃ hdst hr hr')
    · exact .allocate fun r' hr' =>
        have hr' := above_of_le (hr.lt_add 1) hr'
        .seq (hi hr' (Nat.lt_succ_self _)) <| fills_elementOrHole (hr'.lt_add 1) hdst hr hr'
  | .type _ t, _, _, _, _, hdst, hlt => by
    rw [expr]
    exact fills_typeExpr t (fun s hs => (hdst s hs).trans hlt) hdst

theorem fills_each {n : Nat} {S : List Nat} {L : List (Label × List Nat)} {after : Nat → Lower Unit}
    (hafter : ∀ i, Fills n S S L (after i)) : (es : List Expr) → (dst : Nat → Register) →
    (index : Nat) → (∀ i, i < index + es.length → (dst i).Above S ∧ (dst i).index < n) →
    Fills n S S L (each params dst after index es)
  | [], _, _, _ => by
    rw [each]
    exact .pure ()
  | e :: es, dst, index, h => by
    have hlength : (e :: es).length = es.length + 1 := List.length_cons
    obtain ⟨hdst, hlt⟩ := h index (by omega)
    rw [each]
    exact .seq (fills_expr e hdst hlt) <| .seq (hafter index) <|
      fills_each hafter es dst (index + 1) fun i hi => h i (by omega)

theorem fills_fields {n : Nat} {S : List Nat} {L : List (Label × List Nat)} :
    (fs : List (String × Expr)) → ∀ {object value : Register}, object.index ∈ S → value.Above S →
    value.index < n → Fills n S S L (fields params object value fs)
  | [], _, _, _, _, _ => by
    rw [fields]
    exact .pure ()
  | (name, e) :: fs, _, _, hobject, hvalue, hlt => by
    rw [fields]
    exact .seq (fills_expr e hvalue hlt) <| .bind (.identifier name) fun _ =>
      .seq (.emit (.setField hobject hvalue) rfl) <| fills_fields fs hobject hvalue hlt

end

/-! ## Tests and patterns -/

theorem fills_exprOrUnit {dst : Register} (hlt : dst.index < n) : (e : Option Expr) →
    Fills n [] [] L (exprOrUnit params dst e)
  | some e => fills_expr e (above_nil _) hlt
  | none => .loadUnit (above_nil _)

theorem fills_forNext {scratch : Register} (hlt : scratch.index < n) : (e : Option Expr) →
    Fills n [] [] L (forNext params scratch e)
  | some e => fills_expr e (above_nil _) hlt
  | none => .pure ()

theorem fills_loopTest {exit : Label} (hexit : (exit, []) ∈ L) {scratch : Register}
    (hlt : scratch.index < n) : (c : Option Expr) → Fills n [] [] L (loopTest params scratch exit c)
  | some e => .seq (fills_expr e (above_nil _) hlt) <| .jumpOr hexit
  | none => .pure ()

theorem fills_noMatch : Fills n [] [] L noMatch := .bind (.constant _) fun _ => .plain ⟨id, rfl⟩

theorem fills_typeTest (value : Register) (t : Ty) : Fills n [] [] L (typeTest params value t) :=
  .allocate fun _ _ => .seq (.plain ⟨id, rfl⟩) <| .allocate fun _ _ =>
    .seq (fills_ty (fun v _ _ hr => fills_paramVar v hr) t (List.forall_mem_nil _) (above_nil _)) <| .plain ⟨id, rfl⟩

theorem fills_classTest (value : Register) (t : Ty) : Fills n [] [] L (classTest params value t) :=
  .newLabel [] fun _ => .newLabel [] fun _ => .allocate fun _ _ => .seq (.plain ⟨id, rfl⟩) <|
    .seq (.jumpOr (.tail _ (.head _))) <| .seq (fills_typeTest value t) <| .seq (.jump (.head _)) <|
    .seq (.bindLabel (.tail _ (.head _))) <| .bind (.constant _) fun _ => .seq (.plain ⟨id, rfl⟩) <|
    .bindLabel (.head _)

theorem fills_runTimeCheck (value : Register) (t : Ty) :
    Fills n [] [] L (runTimeCheck params value t) := by
  refine .ite (fun _ => .mark fun m hm => .seq ?_ <| .release hm) fun _ => .pure ()
  rw [anyTest]
  split
  · exact fills_typeTest value t
  · exact fills_typeTest value t
  · exact fills_classTest value t

theorem fills_initCheck (p : Place) (d : LetDecl) (value : Register) :
    Fills n [] [] L (initCheck p d value) := by
  rw [initCheck]
  split
  · exact .ite (fun _ => fills_runTimeCheck value _) fun _ => .pure ()
  · exact .pure ()

theorem fills_letDecl (p : Place) (d : LetDecl) {dst : Register} (hlt : dst.index < n) :
    Fills n [] [] L (letDecl p d dst) :=
  .seq (fills_expr d.init (above_nil _) hlt) <| .seq (fills_initCheck p d dst) <|
    .bind (.identifier _) fun _ => .seq (.plain ⟨id, rfl⟩) <| .loadUnit (above_nil _)

theorem fills_forInit (p : Place) {dst : Register} (hlt : dst.index < n) : (init : Option ForInit) →
    Fills n [] [] L (forInit p dst init)
  | none => .pure ()
  | some (.expr e) => fills_expr e (above_nil _) hlt
  | some (.letDecl d) => fills_letDecl p d hlt

mutual

theorem fills_pattern : (p : Pattern) → ∀ {n : Nat} (value : Register) {failed : Label},
    (failed, []) ∈ L → Fills n [] [] L (pattern value failed p)
  | .ident _ _, _, _, _, _ => by
    rw [pattern]
    exact .bind (.identifier _) fun _ => .plain ⟨id, rfl⟩
  | .any _, _, _, _, _ => by
    rw [pattern]
    exact .pure ()
  | .literal _ _, _, _, _, hfailed => by
    rw [pattern]
    exact .allocate fun _ _ => .seq (.load (above_nil _) _) <| .allocate fun _ _ =>
      .seq (.plain ⟨id, rfl⟩) <| .jumpOr hfailed
  | .object entries _, _, value, _, hfailed => by
    rw [pattern]
    exact .allocate fun _ _ => .seq (.plain ⟨id, rfl⟩) <| .seq (.jumpOr hfailed) <|
      fills_patternEntries entries value hfailed

theorem fills_patternEntries : (entries : List (String × Pattern)) → ∀ {n : Nat} (value : Register)
    {failed : Label}, (failed, []) ∈ L → Fills n [] [] L (patternEntries value failed entries)
  | [], _, _, _, _ => by
    rw [patternEntries]
    exact .pure ()
  | (_, p) :: entries, _, value, _, hfailed => by
    rw [patternEntries]
    exact .allocate fun _ _ => .bind (.identifier _) fun _ =>
      .seq (.emitJump (.noField ..) (fun _ _ => above_nil _) hfailed) <| .seq (fills_pattern p _ hfailed) <|
      fills_patternEntries entries value hfailed

end

/-! ## Functions -/

theorem fills_argumentTest (argument : Register) (name : String) :
    Fills n [] [] L (argumentTest argument name) :=
  .mark fun _ hm => .allocated fun _ => .newLabel [] fun _ => .newLabel [] fun _ =>
    .seq (.plain ⟨id, rfl⟩) <| .seq (.jumpOr (.tail _ (.head _))) <| .seq (.jump (.head _)) <|
    .seq (.bindLabel (.tail _ (.head _))) <| .bind (.constant _) fun _ => .seq (.plain ⟨id, rfl⟩) <|
    .seq (.bindLabel (.head _)) <| .release hm

theorem fills_params : (ps : List Param) → ∀ index, Fills n [] [] L (Lower.params index ps)
  | [], _ => .pure ()
  | p :: ps, index => by
    have hparam : Fills n [] [] L (param p (.ofNat index)) :=
      .seq (.ite (fun _ => fills_argumentTest _ p.name) fun _ => .pure ()) <|
        .bind (.identifier _) fun _ => .plain ⟨id, rfl⟩
    exact .seq hparam <| fills_params ps (index + 1)

theorem fills_declareVars {g : List (Nat × Register) → Lower Unit}
    (hg : ∀ {n : Nat} registers, Fills n [] [] L (g registers)) : (vs : List TyVar) →
    ∀ {n : Nat} (done : List (Nat × Register)), Fills n [] [] L (declareVars done vs >>= g)
  | [], _, done => .bind (.pure done) fun _ => hg _
  | v :: vs, n, done => by
    rw [declareVars, bind_assoc]
    refine .allocate fun r _ => ?_
    rw [bind_assoc]
    refine .bind (.identifier _) fun _ => ?_
    rw [bind_assoc]
    exact .seq (.plain ⟨id, rfl⟩) <| fills_declareVars hg vs _

theorem fills_signature (t : Ty) : Fills n [] [] L (signature t) := by
  have hvar (registers : List (Nat × Register)) (v : TyVar) {n : Nat} (r : Register) :
      Fills n [] [] L (declaredVar registers v r) := by
    rw [declaredVar]
    split
    · exact .plain ⟨id, rfl⟩
    · exact .throw _
  exact .allocate fun dst _ => .seq (.plain ⟨id, rfl⟩) <| .seq (.plain ⟨id, rfl⟩) <|
    fills_declareVars (fun registers =>
      .seq (fills_ty (fun v _ r _ => hvar registers v r) t (List.forall_mem_nil _) (above_nil _)) <|
      .seq (.plain ⟨id, rfl⟩) <| .seq (.plain ⟨id, rfl⟩) <| .seq (.plain ⟨id, rfl⟩) <| .leave (above_nil _)) _ _

open Builder in
/-- The block of a function, given what the code for its body does. -/
theorem fills_functionBlock {checks : Bool} {head : FnHead} {body : List Decl} {b b' : Builder}
    {B : Block} (hbody : ∀ (place : Place) (r : Register), place.loop = none →
      Fills (r.index + 1) [] [] [] (fnBody body place r))
    (h : functionBlock checks head (fnBody body) b = .ok B b') (hfits : B.Fits) :
    B.Everywhere Block.IsFilling := by
  obtain ⟨types, result, implicit, c, -, hc, rfl⟩ := functionBlock_spec h
  obtain ⟨-, -, b₁, h₁, hstart, hbefore⟩ := functionCode_head (fun r => safe_fnBody body _ r) hc
  have hrest : Fills 0 [] [] [] (do
      Lower.params 0 head.params
      let value ← allocate
      fnBody body ⟨checks, implicitParams [] (types.take implicit), 0, none⟩ value
      emit (.leave value)) :=
    .seq (fills_params head.params 0) <| .allocate fun value _ => .seq (hbody _ value rfl) <| .leave (above_nil _)
  obtain ⟨_, b₁', h₁', hc⟩ := bind_eq_ok hc
  obtain rfl : b₁ = b₁' := by rw [h₁] at h₁'; cases h₁'; rfl
  let σ : Pending := ⟨fun _ => [], fun _ => []⟩
  obtain ⟨σ₁, hσ₁, hS₁, hp₁, -⟩ := fills_signature _ _ _ _ _ h₁ (filled_new _ _ σ) rfl (expects_nil _ _)
    (Nat.zero_le _)
  obtain ⟨_, b₂, h₂, hc⟩ := bind_eq_ok hc
  obtain ⟨_, b₃, h₃, hc⟩ := bind_eq_ok hc
  cases h₂
  cases h₃
  obtain ⟨σ', hσ', -, hp', -⟩ := hrest _ _ _ _ hc ⟨hσ₁.items, hσ₁.known, hσ₁.labels, hσ₁.functions⟩ hS₁
    (expects_nil _ _) (Nat.zero_le _)
  refine hσ'.finish hfits ?_ ?_
  · exact List.subset_nil.mp <| List.Subset.trans (hp'.position 0 (Nat.zero_le _))
      (hp₁.position 0 (Nat.zero_le _))
  · have hsize := hfits.code_lt
    rw [size_code_finish] at hsize
    have hle := hbefore.size_le
    rw [hstart, UInt32.toNat_ofNat_of_lt' (by simp only [UInt32.size]; omega)]
    exact List.subset_nil.mp (hS₁ ▸ hp'.position _ (Nat.le_refl _))

theorem fills_createFunction (name : String) {B : Block} (hB : B.Fits → B.Everywhere Block.IsFilling) :
    Fills n [] [] L (createFunction name B) :=
  .bind (.function hB) fun _ => .mark fun _ hm => .allocated fun _ => .seq (.plain ⟨id, rfl⟩) <|
    .bind (.identifier name) fun _ => .seq (.plain ⟨id, rfl⟩) <| .release hm

end Lower

/-! ## Statements -/

/-- The code for the place may go to the labels of the loop around it. -/
def Place.Leaves (p : Place) (L : List (Label × List Nat)) : Prop :=
  ∀ l ∈ p.loop, (l.breakLabel, []) ∈ L ∧ (l.continueLabel, []) ∈ L

namespace Place.Leaves

variable {p : Place} {L : List (Label × List Nat)}

theorem cons (h : p.Leaves L) (e : Label × List Nat) : p.Leaves (e :: L) := fun l hl =>
  have ⟨hbreak, hcontinue⟩ := h l hl
  ⟨.tail _ hbreak, .tail _ hcontinue⟩

theorem inLoop {exit next : Label} (hexit : (exit, []) ∈ L) (hnext : (next, []) ∈ L) :
    (p.inLoop exit next).Leaves L := by
  rintro _ ⟨⟩
  exact ⟨hexit, hnext⟩

theorem none (h : p.loop = none) : p.Leaves L := by
  rw [Leaves, h]
  rintro _ ⟨⟩

end Place.Leaves

namespace Lower

open Register

variable {n : Nat} {L : List (Label × List Nat)}

theorem fills_sequence {functions declarations : Lower Unit} {isEmpty : Bool} {dst : Register}
    (hf : Fills n [] [] L functions) (hd : Fills n [] [] L declarations) :
    Fills n [] [] L (sequence isEmpty functions declarations dst) :=
  .seq hf <| .ite (fun _ => .loadUnit (above_nil _)) fun _ => hd

theorem fills_closeScopes : (count : Nat) → Fills n [] [] L (closeScopes count)
  | 0 => .pure ()
  | count + 1 => .seq (.plain ⟨id, rfl⟩) <| fills_closeScopes count

theorem fills_leaveScopes {p : Place} {choose : LoopLabels → Label}
    (h : ∀ l ∈ p.loop, (choose l, []) ∈ L) : Fills n [] [] L (leaveScopes p choose) := by
  rw [leaveScopes]
  split
  next => exact .bind .blockName fun _ => .throw _
  next l hl => exact .seq (fills_closeScopes _) <| .jump (h l hl)

theorem fills_loopBody {body : Register → Lower Unit}
    (hbody : ∀ r : Register, n ≤ r.index → Fills (r.index + 1) [] [] L (body r)) :
    Fills n [] [] L (loopBody body) := by
  refine .mark fun m hm => ?_
  rw [← bind_assoc]
  exact .seq (.allocate hbody) <| .release hm

mutual

/-- **The code for a statement** starts and ends without cells under construction. -/
theorem fills_stmt : (s : Stmt) → ∀ {n : Nat} {L : List (Label × List Nat)} {p : Place} {dst : Register},
    p.Leaves L → dst.index < n → Fills n [] [] L (stmt p s dst)
  | .empty _, _, _, _, _, _, _ => by
    rw [stmt]
    exact .loadUnit (above_nil _)
  | .block body _, _, _, _, _, hp, hlt => by
    rw [stmt]
    exact .seq (.plain ⟨id, rfl⟩) <| .seq (fills_sequence (fills_functions body)
      (fills_decls body hp hlt)) (.plain ⟨id, rfl⟩)
  | .ret value _, _, _, _, _, _, _ => by
    rw [stmt]
    exact .allocate fun _ _ => .seq (fills_exprOrUnit (Nat.lt_succ_self _) value) <| .leave (above_nil _)
  | .cond c s alternate _, _, _, _, _, hp, hlt => by
    rw [stmt.eq_def]
    refine .allocate fun _ hr => ?_
    have hlt := Nat.lt_succ_of_lt (hlt.trans_le hr)
    refine .seq (fills_expr c (above_nil _) (Nat.lt_succ_self _)) <| .newLabel [] fun _ =>
      .newLabel [] fun _ => .seq (.jumpOr (.tail _ (.head _))) <|
      .seq (fills_stmt s ((hp.cons _).cons _) hlt) <| .seq (.jump (.head _)) <|
      .seq (.bindLabel (.tail _ (.head _))) <| .seq ?_ <| .bindLabel (.head _)
    cases alternate with
    | none => exact .loadUnit (above_nil _)
    | some t => exact fills_stmt t ((hp.cons _).cons _) hlt
  | .whileLoop c body _, _, _, _, _, _, _ => by
    rw [stmt]
    exact .newLabel [] fun _ => .newLabel [] fun _ => .seq (.bindLabel (.tail _ (.head _))) <|
      .allocate fun _ _ => .seq (fills_expr c (above_nil _) (Nat.lt_succ_self _)) <| .seq (.jumpOr (.head _)) <|
      .seq (fills_loopBody fun _ _ =>
        fills_stmt body (.inLoop (.head _) (.tail _ (.head _))) (Nat.lt_succ_self _)) <|
      .seq (.jump (.tail _ (.head _))) <| .seq (.bindLabel (.head _)) <| .loadUnit (above_nil _)
  | .forLoop init c increment body _, _, _, p, _, _, _ => by
    rw [stmt]
    exact .seq (.plain ⟨id, rfl⟩) <| .allocate fun _ _ =>
      .seq (fills_forInit p.deeper (Nat.lt_succ_self _) init) <| .newLabel [] fun _ =>
      .newLabel [] fun _ => .newLabel [] fun _ => .seq (.bindLabel (.tail _ (.tail _ (.head _)))) <|
      .seq (fills_loopTest (.head _) (Nat.lt_succ_self _) c) <|
      .seq (fills_loopBody fun _ _ =>
        fills_stmt body (.inLoop (.head _) (.tail _ (.head _))) (Nat.lt_succ_self _)) <|
      .seq (.bindLabel (.tail _ (.head _))) <|
      .seq (fills_forNext (Nat.lt_succ_self _) increment) <| .seq (.jump (.tail _ (.tail _ (.head _)))) <|
      .seq (.bindLabel (.head _)) <| .seq (.plain ⟨id, rfl⟩) <| .loadUnit (above_nil _)
  | .breakLoop _, _, _, _, _, hp, _ => by
    rw [stmt]
    exact fills_leaveScopes fun l hl => (hp l hl).1
  | .continueLoop _, _, _, _, _, hp, _ => by
    rw [stmt]
    exact fills_leaveScopes fun l hl => (hp l hl).2
  | .cases scrutinee cs default _, _, _, _, _, hp, hlt => by
    rw [stmt.eq_def]
    refine .allocate fun _ hr => ?_
    have hlt := Nat.lt_succ_of_lt (hlt.trans_le hr)
    refine .seq (fills_expr scrutinee (above_nil _) (Nat.lt_succ_self _)) <| .newLabel [] fun _ =>
      .seq (fills_matchCases cs (hp.cons _) (.head _) hlt) <| .seq ?_ <| .bindLabel (.head _)
    cases default with
    | none => exact fills_noMatch
    | some s => exact fills_stmt s (hp.cons _) hlt
  | .expr e, _, _, _, _, _, hlt => by
    rw [stmt]
    exact fills_expr e (above_nil _) hlt

theorem fills_matchCases : (cs : List (Pattern × Stmt)) → ∀ {n : Nat} {L : List (Label × List Nat)}
    {p : Place} {scrutinee dst : Register} {done : Label}, p.Leaves L → (done, []) ∈ L →
    dst.index < n → Fills n [] [] L (matchCases p scrutinee done cs dst)
  | [], _, _, _, _, _, _, _, _, _ => by
    rw [matchCases]
    exact .pure ()
  | (pat, s) :: cs, _, _, p, scrutinee, _, _, hp, hdone, hlt => by
    rw [matchCases]
    exact .mark fun m hm => .newLabel [] fun _ => .seq (.plain ⟨id, rfl⟩) <|
      .seq (fills_pattern pat scrutinee (.head _)) <| .seq (fills_stmt s (hp.cons _) hlt) <|
      .seq (.plain ⟨id, rfl⟩) <| .seq (.jump (.tail _ hdone)) <| .seq (.bindLabel (.head _)) <|
      .seq (.plain ⟨id, rfl⟩) <| .seq (.release hm) <|
      fills_matchCases cs (hp.cons _) (.tail _ hdone) hlt

/-- The functions of a block are blocks of their own. -/
theorem fills_functions : (ds : List Decl) → ∀ {n : Nat} {L : List (Label × List Nat)} {p : Place},
    Fills n [] [] L (functions p ds)
  | [], _, _, _ => by
    rw [functions]
    exact .pure ()
  | .fn head body :: ds, _, _, p => by
    have hbody (place : Place) (r : Register) (hloop : place.loop = none) :
        Fills (r.index + 1) [] [] [] (fnBody body place r) :=
      .seq (.plain ⟨id, rfl⟩) <| .seq (fills_sequence (fills_functions body)
        (fills_decls body (.none hloop) (Nat.lt_succ_self _))) (.plain ⟨id, rfl⟩)
    rw [functions]
    intro b b' a σ h hb hS hL hn
    obtain ⟨B, b₁, hB, hrest⟩ := bind_eq_ok h
    obtain rfl := functionBlock_eq_ok hB
    exact (Fills.seq (fills_createFunction head.name (fills_functionBlock hbody hB)) <|
      fills_functions ds) _ _ _ _ hrest hb hS hL hn
  | .letDecl _ :: ds, _, _, _ => by
    rw [functions_letDecl]
    exact fills_functions ds
  | .stmt _ :: ds, _, _, _ => by
    rw [functions_stmt]
    exact fills_functions ds

theorem fills_decls : (ds : List Decl) → ∀ {n : Nat} {L : List (Label × List Nat)} {p : Place}
    {dst : Register}, p.Leaves L → dst.index < n → Fills n [] [] L (decls p ds dst)
  | [], _, _, _, _, _, _ => by
    rw [decls]
    exact .pure ()
  | d :: ds, _, _, _, _, hp, hlt => by
    rw [decls]
    exact .mark fun m hm => .seq (fills_decl d hp hlt) <| .seq (.release hm) <| fills_decls ds hp hlt

theorem fills_decl : (d : Decl) → ∀ {n : Nat} {L : List (Label × List Nat)} {p : Place}
    {dst : Register}, p.Leaves L → dst.index < n → Fills n [] [] L (decl p d dst)
  | .letDecl d, _, _, p, _, _, hlt => by
    rw [decl]
    exact fills_letDecl p d hlt
  | .fn .., _, _, _, _, _, _ => by
    rw [decl]
    exact .loadUnit (above_nil _)
  | .stmt s, _, _, _, _, hp, hlt => by
    rw [decl]
    exact fills_stmt s hp hlt

end

end Lower

/-! ## Programs -/

/-- **Generated code fills its cells** before anything else is done with them, in the block of a program and in
all blocks nested in it.

`Block.Fits` bounds the sizes of the block by what operands of 32 bits can address: the generator converts
positions without a check. -/
theorem Program.fills_of_lower {checks : Bool} {rejected : List Nat} {ds : Program} {B : Block}
    (h : ds.lower checks rejected = .ok B) (hfits : B.Fits) : B.Everywhere Block.IsFilling := by
  let act : Lower Unit := do
    let value ← Lower.allocate
    Lower.body ⟨checks, [], 0, none⟩ (ds.accepted rejected) value
    Lower.emit (.leave value)
  have htame : Lower.Tame act := fun _ _ =>
    .bind .allocate fun value => .bind (Lower.safe_sequence (Lower.safe_functions _ _)
      (Lower.safe_decls _ _ value) _ value) fun _ => .emit _
  have hfills : Lower.Fills 0 [] [] [] act :=
    .allocate fun value _ => .seq (Lower.fills_sequence (Lower.fills_functions _)
      (Lower.fills_decls _ (.none rfl) (Nat.lt_succ_self _))) <| .leave (Register.above_nil _)
  unfold Program.lower at h
  dsimp only at h
  split at h
  next c hc =>
    cases h
    let σ : Pending := ⟨fun _ => [], fun _ => []⟩
    obtain ⟨σ', hσ', -, hp, -⟩ := hfills _ _ _ _ hc (Builder.filled_new _ _ σ) rfl
      (Builder.expects_nil _ _) (Nat.zero_le _)
    have hstart : c.block.codeStart = 0 := (htame.extends hc).head.codeStart
    have hzero : σ'.position 0 = [] := List.subset_nil.mp (hp.position 0 (Nat.zero_le _))
    exact hσ'.finish hfits hzero (by rw [hstart]; exact hzero)
  next => cases h

end Reified
