import Reified.Proofs.Lowering.Builder

/-!
# Lowering extends the builder

The code for a type, an expression, a pattern or a statement leaves alone everything that was there
before: it only binds labels of its own, and gives back only registers that it has been handed out.
-/

namespace Reified

/-- The binary operator is a value. -/
def BinOp.IsValue (op : BinOp) : Prop :=
  op ≠ .and ∧ op ≠ .or ∧ op ≠ .equal

theorem BinOp.sort (op : BinOp) : op = .and ∨ op = .or ∨ op = .equal ∨ op.IsValue := by
  cases op <;> simp [IsValue]

namespace Lower

variable {n u : Nat}

/-! ## Types -/

theorem safe_declareVars : (vs : List TyVar) → (done : List (Nat × Register)) →
    Safe n u (declareVars done vs)
  | [], done => .pure done
  | v :: vs, done => .bind .allocate fun r => .bind (.identifier _) fun _ => .bind (.emit _) fun _ =>
      safe_declareVars vs ((v.id, r) :: done)

theorem safe_declaredVar (registers : List (Nat × Register)) (v : TyVar) (dst : Register) :
    Safe n u (declaredVar registers v dst) := by
  rw [declaredVar]
  split
  · exact .emit _
  · exact .throw _

theorem safe_paramVar (params : ImplicitParams) (v : TyVar) (dst : Register) :
    Safe n u (paramVar params v dst) := by
  rw [paramVar]
  split
  · exact .bind (.identifier _) fun _ => .emit _
  · exact .throw _

section ty

set_option linter.unusedSectionVars false

variable {var : TyVar → Register → Lower Unit} (hvar : ∀ v r, Safe n u (var v r))

include hvar

mutual

theorem safe_ty : (t : Ty) → (dst : Register) → Safe n u (ty var t dst)
  | .var v, dst => by
    rw [ty]
    exact hvar v dst
  | .name x, dst => by
    rw [ty]
    exact .bind (.identifier x) fun _ => .emit _
  | .array t, dst => by
    rw [ty]
    exact .bind .allocate fun r => .bind (safe_ty t r) fun _ => .emit _
  | .tuple ts, dst => by
    rw [ty]
    exact .bind (.allocateRange _) fun r => .bind (safe_tys ts r 0) fun _ => .emit _
  | .record fs, dst => by
    rw [ty]
    exact .bind (.allocateRange _) fun r => .bind (.allocateRange _) fun r' =>
      .bind (safe_tyFields fs r r' 0) fun _ => .emit _
  | .fn ps t k, dst => by
    rw [ty]
    exact .bind (.allocateRange _) fun r => .bind (safe_tys ps r 0) fun _ =>
      .bind .allocate fun r' => .bind (safe_ty t r') fun _ => .emit _
  | .union a b, dst => by
    rw [ty]
    exact .bind (safe_ty a dst) fun _ => .bind .allocate fun r => .bind (safe_ty b r) fun _ =>
      .emit _
  | .binding x t, dst => by
    rw [ty]
    exact .bind .allocate fun r => .bind (safe_ty t r) fun _ => .bind (.identifier x) fun _ =>
      .emit _

theorem safe_tys : (ts : List Ty) → (first : Register) → (index : Nat) →
    Safe n u (tys var first index ts)
  | [], first, index => by
    rw [tys]
    exact .pure ()
  | t :: ts, first, index => by
    rw [tys]
    exact .bind (safe_ty t _) fun _ => safe_tys ts first (index + 1)

theorem safe_tyFields : (fs : List (String × Ty)) → (firstKey firstType : Register) →
    (index : Nat) → Safe n u (tyFields var firstKey firstType index fs)
  | [], _, _, _ => by
    rw [tyFields]
    exact .pure ()
  | (name, t) :: fs, firstKey, firstType, index => by
    rw [tyFields]
    exact .bind (.load _ _) fun _ => .bind (safe_ty t _) fun _ =>
      safe_tyFields fs firstKey firstType (index + 1)

end

end ty

mutual

theorem safe_typeExpr : (t : TypeExpr) → (dst : Register) → Safe n u (typeExpr t dst)
  | .name x _, dst => by
    rw [typeExpr]
    exact .bind (.identifier x) fun _ => .emit _
  | .array t, dst => by
    rw [typeExpr]
    exact .bind .allocate fun r => .bind (safe_typeExpr t r) fun _ => .emit _
  | .tuple ts, dst => by
    rw [typeExpr]
    exact .bind (.allocateRange _) fun r => .bind (safe_typeExprs ts r 0) fun _ => .emit _
  | .record fs, dst => by
    rw [typeExpr]
    exact .bind (.allocateRange _) fun r => .bind (.allocateRange _) fun r' =>
      .bind (safe_typeExprFields fs r r' 0) fun _ => .emit _
  | .fn ps t, dst => by
    rw [typeExpr]
    exact .bind (.allocateRange _) fun r => .bind (safe_typeExprs ps r 0) fun _ =>
      .bind .allocate fun r' => .bind (safe_typeExpr t r') fun _ => .emit _
  | .union a b, dst => by
    rw [typeExpr]
    exact .bind (safe_typeExpr a dst) fun _ => .bind .allocate fun r =>
      .bind (safe_typeExpr b r) fun _ => .emit _

theorem safe_typeExprs : (ts : List TypeExpr) → (first : Register) → (index : Nat) →
    Safe n u (typeExprs first index ts)
  | [], _, _ => by
    rw [typeExprs]
    exact .pure ()
  | t :: ts, first, index => by
    rw [typeExprs]
    exact .bind (safe_typeExpr t _) fun _ => safe_typeExprs ts first (index + 1)

theorem safe_typeExprFields : (fs : List (String × TypeExpr)) → (firstKey firstType : Register) →
    (index : Nat) → Safe n u (typeExprFields firstKey firstType index fs)
  | [], _, _, _ => by
    rw [typeExprFields]
    exact .pure ()
  | (name, t) :: fs, firstKey, firstType, index => by
    rw [typeExprFields]
    exact .bind (.load _ _) fun _ => .bind (safe_typeExpr t _) fun _ =>
      safe_typeExprFields fs firstKey firstType (index + 1)

end

/-! ## Expressions -/

theorem safe_callOrHole (dst callee : Register) (argc : Nat) (first : Register) :
    Safe n u (callOrHole dst callee argc first) :=
  .bind .allocate fun _ => .newLabel fun _ hhole => .newLabel fun _ hdone =>
    .bind (.emit _) fun _ => .bind (.jumpIfFalse _ _) fun _ => .bind (.emit _) fun _ =>
      .bind (.jump _) fun _ => .bind (.bindLabel hhole) fun _ => .bind (.emit _) fun _ =>
        .bindLabel hdone

theorem safe_fieldOrHole (dst object : Register) (field : UInt32) :
    Safe n u (fieldOrHole dst object field) :=
  .newLabel fun _ hfallback => .newLabel fun _ hdone => .bind (.emitJump _ _) fun _ =>
    .bind (.jump _) fun _ => .bind (.bindLabel hfallback) fun _ => .bind (.emit _) fun _ =>
      .bindLabel hdone

theorem safe_elementOrHole (dst target index : Register) :
    Safe n u (elementOrHole dst target index) :=
  .bind .allocate fun _ => .newLabel fun _ hhole => .newLabel fun _ hdone =>
    .bind (.emit _) fun _ => .bind (.jumpIfFalse _ _) fun _ => .bind (.emit _) fun _ =>
      .bind (.jump _) fun _ => .bind (.bindLabel hhole) fun _ => .bind (.emit _) fun _ =>
        .bindLabel hdone

variable {params : ImplicitParams}

theorem safe_implicitArgs (baked : Bool) (first : Register) (slots : List Ty) :
    Safe n u (implicitArgs params baked first slots) :=
  .ite (safe_tys (safe_paramVar params) slots first 0) (.pure ())

theorem safe_inferArgs (baked : Bool) (callee : Register) (count : Nat) (first : Register) :
    Safe n u (inferArgs baked callee count first) :=
  .ite (.pure ()) (.bind (.emit _) fun _ => .bind (.emit _) fun _ => .emit _)

/-- An operator that is neither a connective nor the equality is looked up. -/
theorem expr_operator {op : BinOp} (hop : op.IsValue) (note : Note) (l r : Expr) (dst : Register) :
    expr params (.binary note op l r) dst = (do
      let callee ← allocate
      emit (.getLocal callee (← identifier op.symbol))
      let first ← allocateRange 2
      expr params l first
      expr params r (first.offset 1)
      emit (.call dst callee 2 first)) := by
  rw [expr]
  · exact hop.1
  · exact hop.2.1
  · exact hop.2.2

mutual

theorem safe_expr : (e : Expr) → (dst : Register) → Safe n u (expr params e dst)
  | .ident _ x, dst => by
    rw [expr]
    exact .bind (.identifier x) fun _ => .emit _
  | .literal _ v, dst => by
    rw [expr]
    exact .load dst _
  | .paren _ e, dst => by
    rw [expr]
    exact safe_expr e dst
  | .binary _ op l r, dst => by
    have hl : ∀ dst, Safe n u (expr params l dst) := safe_expr l
    have hr : ∀ dst, Safe n u (expr params r dst) := safe_expr r
    rcases op.sort with rfl | rfl | rfl | hop
    · rw [expr]
      exact .newLabel fun _ hdone => .bind (hl dst) fun _ => .bind (.jumpIfFalse _ _) fun _ =>
        .bind (hr dst) fun _ => .bindLabel hdone
    · rw [expr]
      exact .newLabel fun _ hright => .newLabel fun _ hdone => .bind (hl dst) fun _ =>
        .bind (.jumpIfFalse _ _) fun _ => .bind (.jump _) fun _ => .bind (.bindLabel hright) fun _ =>
          .bind (hr dst) fun _ => .bindLabel hdone
    · rw [expr]
      exact .bind .allocate fun a => .bind .allocate fun b => .bind (hl a) fun _ =>
        .bind (hr b) fun _ => .emit _
    · rw [expr_operator hop]
      exact .bind .allocate fun _ => .bind (.identifier _) fun _ => .bind (.emit _) fun _ =>
        .bind (.allocateRange 2) fun a => .bind (hl a) fun _ => .bind (hr _) fun _ => .emit _
  | .object _ fs, dst => by
    rw [expr]
    exact .bind (.emit _) fun _ => .bind .allocate fun r => safe_fields fs dst r
  | .array _ es, dst => by
    rw [expr]
    exact .bind (.emit _) fun _ => .bind .allocate fun _ => safe_each (fun _ => .emit _) es _ 0
  | .tuple _ es, dst => by
    rw [expr]
    exact .bind (.emit _) fun _ => .bind .allocate fun _ => safe_each (fun _ => .emit _) es _ 0
  | .call _ f es implicit, dst => by
    rw [expr]
    refine .bind .allocate fun callee => .bind (safe_expr f callee) fun _ => ?_
    split
    · exact .bind (.allocateRange _) fun _ => .bind (safe_implicitArgs ..) fun _ =>
        .bind (safe_each (fun _ => .pure ()) es _ 0) fun _ => .bind (safe_inferArgs ..) fun _ =>
          .emit _
    · exact .bind (.allocateRange _) fun _ => .bind (safe_each (fun _ => .pure ()) es _ 0) fun _ =>
        safe_callOrHole ..
  | .member _ o x, dst => by
    rw [expr]
    exact .bind .allocate fun r => .bind (safe_expr o r) fun _ => .bind (.identifier x) fun _ =>
      .ite (.emit _) (safe_fieldOrHole ..)
  | .subscript _ t i, dst => by
    have hi : ∀ dst, Safe n u (expr params i dst) := safe_expr i
    rw [expr]
    refine .bind .allocate fun r => .bind (safe_expr t r) fun _ => ?_
    split
    · exact .emit _
    · exact .bind .allocate fun r' => .bind (hi r') fun _ => .emit _
    · exact .bind .allocate fun r' => .bind (hi r') fun _ => safe_elementOrHole ..
  | .type _ t, dst => by
    rw [expr]
    exact safe_typeExpr t dst

theorem safe_each {after : Nat → Lower Unit} (hafter : ∀ i, Safe n u (after i)) :
    (es : List Expr) → (dst : Nat → Register) → (index : Nat) →
    Safe n u (each params dst after index es)
  | [], _, _ => by
    rw [each]
    exact .pure ()
  | e :: es, dst, index => by
    rw [each]
    exact .bind (safe_expr e _) fun _ => .bind (hafter index) fun _ =>
      safe_each hafter es dst (index + 1)

theorem safe_fields : (fs : List (String × Expr)) → (object value : Register) →
    Safe n u (fields params object value fs)
  | [], _, _ => by
    rw [fields]
    exact .pure ()
  | (name, e) :: fs, object, value => by
    rw [fields]
    exact .bind (safe_expr e value) fun _ => .bind (.identifier name) fun _ => .bind (.emit _) fun _ =>
      safe_fields fs object value

end

/-! ## Declarations of variables, and patterns -/

theorem safe_typeTest (value : Register) (t : Ty) : Safe n u (typeTest params value t) :=
  .bind .allocate fun _ => .bind (.emit _) fun _ => .bind .allocate fun r =>
    .bind (safe_ty (safe_paramVar params) t r) fun _ => .emit _

theorem safe_classTest (value : Register) (t : Ty) : Safe n u (classTest params value t) :=
  .newLabel fun _ hfailed => .newLabel fun _ hdone => .bind .allocate fun _ =>
    .bind (.emit _) fun _ => .bind (.jumpIfFalse _ _) fun _ => .bind (safe_typeTest value t) fun _ =>
      .bind (.jump _) fun _ => .bind (.bindLabel hfailed) fun _ => .bind (.constant _) fun _ =>
        .bind (.emit _) fun _ => .bindLabel hdone

theorem safe_anyTest (value : Register) (t : Ty) : Safe n u (anyTest params value t) := by
  rw [anyTest]
  split
  · exact safe_typeTest value t
  · exact safe_typeTest value t
  · exact safe_classTest value t

theorem safe_runTimeCheck (value : Register) (t : Ty) : Safe n u (runTimeCheck params value t) :=
  .ite (.mark fun _ hm => .bind (safe_anyTest value t) fun _ => .release hm) (.pure ())

theorem safe_initCheck (p : Place) (d : LetDecl) (value : Register) :
    Safe n u (initCheck p d value) := by
  rw [initCheck]
  split
  · exact .ite (safe_runTimeCheck value _) (.pure ())
  · exact .pure ()

theorem safe_letDecl (p : Place) (d : LetDecl) (dst : Register) : Safe n u (letDecl p d dst) :=
  .bind (safe_expr d.init dst) fun _ => .bind (safe_initCheck p d dst) fun _ =>
    .bind (.identifier _) fun _ => .bind (.emit _) fun _ => .loadUnit dst

mutual

theorem safe_pattern : (p : Pattern) → (value : Register) → (failed : Label) →
    Safe n u (pattern value failed p)
  | .ident _ _, value, failed => by
    rw [pattern]
    exact .bind (.identifier _) fun _ => .emit _
  | .any _, value, failed => by
    rw [pattern]
    exact .pure ()
  | .literal _ _, value, failed => by
    rw [pattern]
    exact .bind .allocate fun _ => .bind (.load _ _) fun _ => .bind .allocate fun _ =>
      .bind (.emit _) fun _ => .jumpIfFalse _ _
  | .object entries _, value, failed => by
    rw [pattern]
    exact .bind .allocate fun _ => .bind (.emit _) fun _ => .bind (.jumpIfFalse _ _) fun _ =>
      safe_patternEntries entries value failed

theorem safe_patternEntries : (entries : List (String × Pattern)) → (value : Register) →
    (failed : Label) → Safe n u (patternEntries value failed entries)
  | [], _, _ => by
    rw [patternEntries]
    exact .pure ()
  | (_, p) :: entries, value, failed => by
    rw [patternEntries]
    exact .bind .allocate fun _ => .bind (.identifier _) fun _ => .bind (.emitJump _ _) fun _ =>
      .bind (safe_pattern p _ failed) fun _ => safe_patternEntries entries value failed

end

/-! ## Functions -/

theorem safe_argumentTest (argument : Register) (name : String) :
    Safe n u (argumentTest argument name) :=
  .mark fun _ hm => .bind .allocate fun _ => .newLabel fun _ hfailed => .newLabel fun _ hok =>
    .bind (.emit _) fun _ => .bind (.jumpIfFalse _ _) fun _ => .bind (.jump _) fun _ =>
      .bind (.bindLabel hfailed) fun _ => .bind (.constant _) fun _ => .bind (.emit _) fun _ =>
        .bind (.bindLabel hok) fun _ => .release hm

theorem safe_param (p : Param) (argument : Register) : Safe n u (param p argument) :=
  .bind (.ite (safe_argumentTest _ _) (.pure ())) fun _ => .bind (.identifier _) fun _ => .emit _

theorem safe_params : (ps : List Param) → (index : Nat) → Safe n u (Lower.params index ps)
  | [], _ => .pure ()
  | p :: ps, index => .bind (safe_param p _) fun _ => safe_params ps (index + 1)

theorem safe_signature (t : Ty) : Safe n u (signature t) :=
  .bind .allocate fun dst => .bind (.emit _) fun _ => .bind (.emit _) fun _ =>
    .bind (safe_declareVars _ _) fun registers =>
      .bind (safe_ty (safe_declaredVar registers) t dst) fun _ => .bind (.emit _) fun _ =>
        .bind (.emit _) fun _ => .bind (.emit _) fun _ => .emit _

theorem safe_createFunction (name : String) (block : Block) :
    Safe n u (createFunction name block) :=
  .bind (.function block) fun _ => .mark fun _ hm => .bind .allocate fun _ =>
    .bind (.emit _) fun _ => .bind (.identifier _) fun _ => .bind (.emit _) fun _ => .release hm

/-- A block of its own leaves the block around it as it is. -/
theorem isolated_eq_ok {name : String} {count : UInt32} {act : Lower Unit} {b b' : Builder}
    {B : Block} (h : isolated name count act b = .ok B b') :
    b' = b ∧ ∃ c, act (.new name count) = .ok () c ∧ B = c.finish := by
  unfold isolated at h
  split at h
  next hc =>
    cases h
    exact ⟨rfl, _, hc, rfl⟩
  next => cases h

theorem functionBlock_eq_ok {checks : Bool} {head : FnHead} {body : Place → Register → Lower Unit}
    {b b' : Builder} {B : Block} (h : functionBlock checks head body b = .ok B b') : b' = b := by
  unfold functionBlock at h
  match head.signature, h with
  | some (.fn types result implicit), h => exact (isolated_eq_ok h).1

theorem safe_functionBlock (checks : Bool) (head : FnHead) (body : Place → Register → Lower Unit) :
    Safe n u (functionBlock checks head body) := by
  intro b b' B _ hu h
  rw [functionBlock_eq_ok h]
  exact .refl hu

/-! ## Statements -/

theorem safe_sequence {functions declarations : Lower Unit} (hf : Safe n u functions)
    (hd : Safe n u declarations) (isEmpty : Bool) (dst : Register) :
    Safe n u (sequence isEmpty functions declarations dst) :=
  .bind hf fun _ => .ite (.loadUnit dst) hd

theorem safe_closeScopes : (count : Nat) → Safe n u (closeScopes count)
  | 0 => .pure ()
  | count + 1 => .bind (.emit _) fun _ => safe_closeScopes count

theorem safe_leaveScopes (p : Place) (choose : LoopLabels → Label) :
    Safe n u (leaveScopes p choose) := by
  rw [leaveScopes]
  split
  · exact .bind .blockName fun _ => .throw _
  · exact .bind (safe_closeScopes _) fun _ => .jump _

theorem safe_forInit (p : Place) (dst : Register) : (init : Option ForInit) →
    Safe n u (forInit p dst init)
  | none => .pure ()
  | some (.expr e) => safe_expr e dst
  | some (.letDecl d) => safe_letDecl p d dst

theorem safe_exprOrUnit (dst : Register) : (e : Option Expr) →
    Safe n u (exprOrUnit params dst e)
  | some e => safe_expr e dst
  | none => .loadUnit dst

theorem safe_loopTest (scratch : Register) (exit : Label) : (c : Option Expr) →
    Safe n u (loopTest params scratch exit c)
  | some e => .bind (safe_expr e scratch) fun _ => .jumpIfFalse _ _
  | none => .pure ()

theorem safe_forNext (scratch : Register) : (e : Option Expr) →
    Safe n u (forNext params scratch e)
  | some e => safe_expr e scratch
  | none => .pure ()

theorem safe_noMatch : Safe n u noMatch :=
  .bind (.constant _) fun _ => .emit _

theorem safe_loopBody {body : Register → Lower Unit} (hbody : ∀ r, Safe n u (body r)) :
    Safe n u (loopBody body) :=
  .mark fun _ hm => .bind .allocate fun r => .bind (hbody r) fun _ => .release hm

mutual

theorem safe_stmt : (s : Stmt) → (p : Place) → (dst : Register) → Safe n u (stmt p s dst)
  | .empty _, p, dst => by
    rw [stmt]
    exact .loadUnit dst
  | .block body _, p, dst => by
    rw [stmt]
    exact .bind (.emit _) fun _ =>
      .bind (safe_sequence (safe_functions body _) (safe_decls body _ dst) _ dst) fun _ => .emit _
  | .ret value _, p, dst => by
    rw [stmt]
    exact .bind .allocate fun r => .bind (safe_exprOrUnit r value) fun _ => .emit _
  | .cond c s none _, p, dst => by
    rw [stmt]
    exact .bind .allocate fun r => .bind (safe_expr c r) fun _ => .newLabel fun _ hotherwise =>
      .newLabel fun _ hdone => .bind (.jumpIfFalse _ _) fun _ => .bind (safe_stmt s p dst) fun _ =>
        .bind (.jump _) fun _ => .bind (.bindLabel hotherwise) fun _ => .bind (.loadUnit dst) fun _ =>
          .bindLabel hdone
  | .cond c s (some t) _, p, dst => by
    rw [stmt]
    exact .bind .allocate fun r => .bind (safe_expr c r) fun _ => .newLabel fun _ hotherwise =>
      .newLabel fun _ hdone => .bind (.jumpIfFalse _ _) fun _ => .bind (safe_stmt s p dst) fun _ =>
        .bind (.jump _) fun _ => .bind (.bindLabel hotherwise) fun _ =>
          .bind (safe_stmt t p dst) fun _ => .bindLabel hdone
  | .whileLoop c body _, p, dst => by
    rw [stmt]
    exact .newLabel fun _ hstart => .newLabel fun _ hexit => .bind (.bindLabel hstart) fun _ =>
      .bind .allocate fun r => .bind (safe_expr c r) fun _ => .bind (.jumpIfFalse _ _) fun _ =>
        .bind (safe_loopBody fun r => safe_stmt body _ r) fun _ => .bind (.jump _) fun _ =>
          .bind (.bindLabel hexit) fun _ => .loadUnit dst
  | .forLoop init c increment body _, p, dst => by
    rw [stmt]
    exact .bind (.emit _) fun _ => .bind .allocate fun r => .bind (safe_forInit _ r init) fun _ =>
      .newLabel fun _ hstart => .newLabel fun _ hnext => .newLabel fun _ hexit =>
        .bind (.bindLabel hstart) fun _ => .bind (safe_loopTest r _ c) fun _ =>
          .bind (safe_loopBody fun r => safe_stmt body _ r) fun _ =>
            .bind (.bindLabel hnext) fun _ => .bind (safe_forNext r increment) fun _ =>
              .bind (.jump _) fun _ => .bind (.bindLabel hexit) fun _ => .bind (.emit _) fun _ =>
                .loadUnit dst
  | .breakLoop _, p, dst => by
    rw [stmt]
    exact safe_leaveScopes p _
  | .continueLoop _, p, dst => by
    rw [stmt]
    exact safe_leaveScopes p _
  | .cases scrutinee cs none _, p, dst => by
    rw [stmt]
    exact .bind .allocate fun r => .bind (safe_expr scrutinee r) fun _ => .newLabel fun _ hdone =>
      .bind (safe_matchCases cs p r _ dst) fun _ => .bind safe_noMatch fun _ => .bindLabel hdone
  | .cases scrutinee cs (some s) _, p, dst => by
    rw [stmt]
    exact .bind .allocate fun r => .bind (safe_expr scrutinee r) fun _ => .newLabel fun _ hdone =>
      .bind (safe_matchCases cs p r _ dst) fun _ => .bind (safe_stmt s p dst) fun _ =>
        .bindLabel hdone
  | .expr e, p, dst => by
    rw [stmt]
    exact safe_expr e dst

theorem safe_matchCases : (cs : List (Pattern × Stmt)) → (p : Place) → (r : Register) →
    (done : Label) → (dst : Register) → Safe n u (matchCases p r done cs dst)
  | [], _, _, _, _ => by
    rw [matchCases]
    exact .pure ()
  | (pat, s) :: cs, p, r, done, dst => by
    rw [matchCases]
    exact .mark fun _ hm => .newLabel fun _ hfailed => .bind (.emit _) fun _ =>
      .bind (safe_pattern pat r _) fun _ => .bind (safe_stmt s _ dst) fun _ => .bind (.emit _) fun _ =>
        .bind (.jump _) fun _ => .bind (.bindLabel hfailed) fun _ => .bind (.emit _) fun _ =>
          .bind (.release hm) fun _ => safe_matchCases cs p r done dst

theorem safe_functions : (ds : List Decl) → (p : Place) → Safe n u (functions p ds)
  | [], _ => by
    rw [functions]
    exact .pure ()
  | .fn head body :: ds, p => by
    rw [functions]
    exact .bind (safe_functionBlock ..) fun _ => .bind (safe_createFunction ..) fun _ =>
      safe_functions ds p
  | .letDecl _ :: ds, p => by
    rw [functions_letDecl]
    exact safe_functions ds p
  | .stmt _ :: ds, p => by
    rw [functions_stmt]
    exact safe_functions ds p

theorem safe_decls : (ds : List Decl) → (p : Place) → (dst : Register) →
    Safe n u (decls p ds dst)
  | [], _, _ => by
    rw [decls]
    exact .pure ()
  | d :: ds, p, dst => by
    rw [decls]
    exact .mark fun _ hm => .bind (safe_decl d p dst) fun _ => .bind (.release hm) fun _ =>
      safe_decls ds p dst

theorem safe_decl : (d : Decl) → (p : Place) → (dst : Register) → Safe n u (decl p d dst)
  | .letDecl d, p, dst => by
    rw [decl]
    exact safe_letDecl p d dst
  | .fn .., p, dst => by
    rw [decl]
    exact .loadUnit dst
  | .stmt s, p, dst => by
    rw [decl]
    exact safe_stmt s p dst

end

end Lower

end Reified
