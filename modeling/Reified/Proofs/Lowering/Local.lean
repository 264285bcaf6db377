import Reified.Proofs.Lowering.Safe

/-!
# Code that stays in its scope

The code for a type, an expression or a pattern is put together from few kinds of actions: it emits
instructions that go on with the next one, jumps to labels of its own, and binds these labels. It opens
and closes no scope, and a frame only around the inference of arguments. The names that it defines are
those of declarations, patterns and parameters. Whatever can be said of these actions and is kept by
putting them together can therefore be said of all such code.

A variable of a type is looked up only where it has a value: types that cannot be built at run time are
not built.

## Main definitions

* `Instr.Local`, `Instr.Jumps` — instructions inside a scope
* `Pattern.names` — the variables of a pattern
* `Lower.Local` — what can be said of all code inside a scope

## Main results

* `Lower.Local.ty`, `Lower.Local.expr`, `Lower.Local.letDecl`, `Lower.Local.pattern`
-/

namespace Reified

/-- The instruction goes on with the next one, if it does not fail, in the same scope and frame, and defines
no name. -/
def Instr.Local : Instr → Prop
  | .leave _ | .newFunction .. | .jump _ | .jumpIfFalse .. | .tryGetField .. | .pushScope | .popScope
  | .pushFrame | .popFrame | .setLocal .. => False
  | _ => True

/-- The instruction waits for a target. -/
inductive Instr.Jumps : Instr → Prop
  | always : Jumps (.jump unknownTarget)
  | ifFalse (r : Register) : Jumps (.jumpIfFalse r unknownTarget)
  | noField (dst object : Register) (field : UInt32) :
      Jumps (.tryGetField dst object field unknownTarget)

mutual

/-- The variables of a pattern. -/
def Pattern.names : Pattern → List String
  | .ident name _ => [name]
  | .any _ | .literal .. => []
  | .object entries _ => Pattern.namesEntries entries

/-- The variables of the patterns of entries. -/
def Pattern.namesEntries : List (String × Pattern) → List String
  | [] => []
  | (_, p) :: entries => p.names ++ Pattern.namesEntries entries

end

namespace Lower

/-- Something can be said of all code inside a scope that defines only names of `N`: of actions that may go to
the labels of one list and bind those of another one. -/
structure Local (N : String → Prop) (K : List Label → List Label → {α : Type} → Lower α → Prop) : Prop where
  pure : ∀ {S : List Label} {α : Type} (a : α), K S [] (Pure.pure a)
  bind : ∀ {S L : List Label} {α β : Type} {x : Lower α} {g : α → Lower β}, K S [] x →
    (∀ a, K S L (g a)) → K S L (x >>= g)
  emit : ∀ {S : List Label} {i : Instr}, i.Local → K S [] (emit i)
  define : ∀ {S : List Label} {name : String} (r : Register), N name → K S [] do
    Lower.emit (.setLocal (← Lower.identifier name) r)
  infer : ∀ {S : List Label} (callee : Register) (count : UInt32) (first : Register), K S [] do
    Lower.emit .pushFrame
    Lower.emit (.inferImplicit callee count first)
    Lower.emit .popFrame
  emitJump : ∀ {S : List Label} {i : Instr} {l : Label}, i.Jumps → l ∈ S → K S [] (emitJump i l)
  newLabel : ∀ {S L : List Label} {α : Type} {g : Label → Lower α},
    (∀ l, K (l :: S) (L ++ [l]) (g l)) → K S L (newLabel >>= g)
  bindLabel : ∀ {S : List Label} {l : Label}, l ∈ S → K S [l] (Lower.bind l)
  bindLabel_seq : ∀ {S L : List Label} {l : Label} {α : Type} {x : Unit → Lower α}, l ∈ S →
    K S L (x ()) → K S (l :: L) (Lower.bind l >>= x)
  identifier : ∀ {S : List Label} (name : String), K S [] (identifier name)
  constant : ∀ {S : List Label} (c : Constant), K S [] (constant c)
  allocateRange : ∀ {S : List Label} (count : Nat), K S [] (allocateRange count)
  giveBack : ∀ {S : List Label} {x : Lower Unit}, K S [] x → K S [] do
    let m ← Lower.mark
    x
    Lower.release m

namespace Local

variable {N : String → Prop} {K : List Label → List Label → {α : Type} → Lower α → Prop} (hK : Local N K)
  {S L : List Label} {params : ImplicitParams}

include hK

set_option linter.unusedSectionVars false

theorem seq {α : Type} {x : Lower Unit} {g : Unit → Lower α} (hx : K S [] x) (hg : K S L (g ())) :
    K S L (x >>= g) :=
  hK.bind hx fun _ => hg

theorem ite {α : Type} {c : Prop} [Decidable c] {x y : Lower α} (hx : c → K S L x)
    (hy : ¬c → K S L y) : K S L (if c then x else y) := by
  split
  next hc => exact hx hc
  next hc => exact hy hc

theorem allocate : K S [] Lower.allocate := hK.allocateRange 1

theorem load (dst : Register) (c : Constant) : K S [] (Lower.load dst c) :=
  hK.bind (hK.constant c) fun _ => hK.emit trivial

theorem loadUnit (dst : Register) : K S [] (Lower.loadUnit dst) := hK.load dst .unit

theorem jump {l : Label} (hl : l ∈ S) : K S [] (Lower.jump l) := hK.emitJump .always hl

theorem jumpIfFalse {l : Label} (r : Register) (hl : l ∈ S) : K S [] (Lower.jumpIfFalse r l) :=
  hK.emitJump (.ifFalse r) hl

/-! ## Types -/

section ty

variable {var : TyVar → Register → Lower Unit}

mutual

/-- The code for a type, if something can be said of the code for its variables. -/
theorem ty : (t : Ty) → (∀ v ∈ t.vars, ∀ r, K S [] (var v r)) → (dst : Register) →
    K S [] (Lower.ty var t dst)
  | .var v, h, dst => by
    rw [Lower.ty]
    exact h v List.mem_cons_self dst
  | .name x, _, dst => by
    rw [Lower.ty]
    exact hK.bind (hK.identifier x) fun _ => hK.emit trivial
  | .array t, h, dst => by
    rw [Lower.ty]
    exact hK.bind hK.allocate fun r => hK.seq (ty t h r) <| hK.emit trivial
  | .tuple ts, h, dst => by
    rw [Lower.ty]
    exact hK.bind (hK.allocateRange _) fun r => hK.seq (tys ts h r 0) <| hK.emit trivial
  | .record fs, h, dst => by
    rw [Lower.ty]
    exact hK.bind (hK.allocateRange _) fun r => hK.bind (hK.allocateRange _) fun r' =>
      hK.seq (tyFields fs h r r' 0) <| hK.emit trivial
  | .fn ps t k, h, dst => by
    rw [Lower.ty]
    exact hK.bind (hK.allocateRange _) fun r =>
      hK.seq (tys ps (fun v hv => h v (List.mem_append_left _ hv)) r 0) <|
        hK.bind hK.allocate fun r' =>
          hK.seq (ty t (fun v hv => h v (List.mem_append_right _ hv)) r') <| hK.emit trivial
  | .union a b, h, dst => by
    rw [Lower.ty]
    exact hK.seq (ty a (fun v hv => h v (List.mem_append_left _ hv)) dst) <|
      hK.bind hK.allocate fun r =>
        hK.seq (ty b (fun v hv => h v (List.mem_append_right _ hv)) r) <| hK.emit trivial
  | .binding x t, h, dst => by
    rw [Lower.ty]
    exact hK.bind hK.allocate fun r => hK.seq (ty t h r) <|
      hK.bind (hK.identifier x) fun _ => hK.emit trivial

theorem tys : (ts : List Ty) → (∀ v ∈ Ty.varsList ts, ∀ r, K S [] (var v r)) →
    (first : Register) → (index : Nat) → K S [] (Lower.tys var first index ts)
  | [], _, first, index => by
    rw [Lower.tys]
    exact hK.pure ()
  | t :: ts, h, first, index => by
    rw [Lower.tys]
    exact hK.seq (ty t (fun v hv => h v (List.mem_append_left _ hv)) _) <|
      tys ts (fun v hv => h v (List.mem_append_right _ hv)) first (index + 1)

theorem tyFields : (fs : List (String × Ty)) → (∀ v ∈ Ty.varsFields fs, ∀ r, K S [] (var v r)) →
    (firstKey firstType : Register) → (index : Nat) →
    K S [] (Lower.tyFields var firstKey firstType index fs)
  | [], _, _, _, _ => by
    rw [Lower.tyFields]
    exact hK.pure ()
  | (name, t) :: fs, h, firstKey, firstType, index => by
    rw [Lower.tyFields]
    exact hK.seq (hK.load _ _) <|
      hK.seq (ty t (fun v hv => h v (List.mem_append_left _ hv)) _) <|
        tyFields fs (fun v hv => h v (List.mem_append_right _ hv)) firstKey firstType (index + 1)

end

end ty

theorem paramVar {v : TyVar} (hv : (params.lookup v.id).isSome = true) (dst : Register) :
    K S [] (Lower.paramVar params v dst) := by
  rw [Lower.paramVar]
  split
  next => exact hK.bind (hK.identifier _) fun _ => hK.emit trivial
  next hnone =>
    rw [hnone] at hv
    cases hv

theorem declareVars : (vs : List TyVar) → (done : List (Nat × Register)) →
    K S [] (Lower.declareVars done vs)
  | [], done => hK.pure done
  | v :: vs, done => hK.bind hK.allocate fun r => hK.bind (hK.identifier v.name) fun _ =>
      hK.seq (hK.emit trivial) <| declareVars vs ((v.id, r) :: done)

/-- A type that can be built at run time. -/
theorem baked {t : Ty} (h : bakeable params t = true) (dst : Register) :
    K S [] (Lower.ty (Lower.paramVar params) t dst) :=
  hK.ty t (fun v hv r => hK.paramVar (List.all_eq_true.mp h v hv) r) dst

mutual

theorem typeExpr : (t : TypeExpr) → (dst : Register) → K S [] (Lower.typeExpr t dst)
  | .name x _, dst => by
    rw [Lower.typeExpr]
    refine hK.bind (hK.identifier x) fun _ => hK.emit ?_
    split <;> trivial
  | .array t, dst => by
    rw [Lower.typeExpr]
    exact hK.bind hK.allocate fun r => hK.seq (typeExpr t r) <| hK.emit trivial
  | .tuple ts, dst => by
    rw [Lower.typeExpr]
    exact hK.bind (hK.allocateRange _) fun r => hK.seq (typeExprs ts r 0) <| hK.emit trivial
  | .record fs, dst => by
    rw [Lower.typeExpr]
    exact hK.bind (hK.allocateRange _) fun r => hK.bind (hK.allocateRange _) fun r' =>
      hK.seq (typeExprFields fs r r' 0) <| hK.emit trivial
  | .fn ps t, dst => by
    rw [Lower.typeExpr]
    exact hK.bind (hK.allocateRange _) fun r => hK.seq (typeExprs ps r 0) <|
      hK.bind hK.allocate fun r' => hK.seq (typeExpr t r') <| hK.emit trivial
  | .union a b, dst => by
    rw [Lower.typeExpr]
    exact hK.seq (typeExpr a dst) <| hK.bind hK.allocate fun r => hK.seq (typeExpr b r) <|
      hK.emit trivial

theorem typeExprs : (ts : List TypeExpr) → (first : Register) → (index : Nat) →
    K S [] (Lower.typeExprs first index ts)
  | [], first, index => by
    rw [Lower.typeExprs]
    exact hK.pure ()
  | t :: ts, first, index => by
    rw [Lower.typeExprs]
    exact hK.seq (typeExpr t _) <| typeExprs ts first (index + 1)

theorem typeExprFields : (fs : List (String × TypeExpr)) → (firstKey firstType : Register) →
    (index : Nat) → K S [] (Lower.typeExprFields firstKey firstType index fs)
  | [], _, _, _ => by
    rw [Lower.typeExprFields]
    exact hK.pure ()
  | (name, t) :: fs, firstKey, firstType, index => by
    rw [Lower.typeExprFields]
    exact hK.seq (hK.load _ _) <| hK.seq (typeExpr t _) <|
      typeExprFields fs firstKey firstType (index + 1)

end

/-! ## Expressions -/

theorem callOrHole (dst callee : Register) (argc : Nat) (first : Register) :
    K S [] (Lower.callOrHole dst callee argc first) :=
  hK.bind hK.allocate fun _ => hK.newLabel fun _ => hK.newLabel fun _ =>
    hK.seq (hK.emit trivial) <| hK.seq (hK.jumpIfFalse _ (.tail _ (.head _))) <|
    hK.seq (hK.emit trivial) <| hK.seq (hK.jump (.head _)) <|
    hK.bindLabel_seq (.tail _ (.head _)) <| hK.seq (hK.emit trivial) <| hK.bindLabel (.head _)

theorem fieldOrHole (dst object : Register) (field : UInt32) :
    K S [] (Lower.fieldOrHole dst object field) :=
  hK.newLabel fun _ => hK.newLabel fun _ =>
    hK.seq (hK.emitJump (.noField ..) (.tail _ (.head _))) <| hK.seq (hK.jump (.head _)) <|
    hK.bindLabel_seq (.tail _ (.head _)) <| hK.seq (hK.emit trivial) <| hK.bindLabel (.head _)

theorem elementOrHole (dst target index : Register) :
    K S [] (Lower.elementOrHole dst target index) :=
  hK.bind hK.allocate fun _ => hK.newLabel fun _ => hK.newLabel fun _ =>
    hK.seq (hK.emit trivial) <| hK.seq (hK.jumpIfFalse _ (.tail _ (.head _))) <|
    hK.seq (hK.emit trivial) <| hK.seq (hK.jump (.head _)) <|
    hK.bindLabel_seq (.tail _ (.head _)) <| hK.seq (hK.emit trivial) <| hK.bindLabel (.head _)

theorem implicitArgs (first : Register) (slots : List Ty) :
    K S [] (Lower.implicitArgs params (slots.all (bakeable params)) first slots) := by
  refine hK.ite (fun hbaked => hK.tys slots (fun v hv r => hK.paramVar ?_ r) first 0)
    fun _ => hK.pure ()
  induction slots with
  | nil => cases hv
  | cons t ts ih =>
    rw [List.all_cons, Bool.and_eq_true] at hbaked
    rcases List.mem_append.mp hv with hv | hv
    · exact List.all_eq_true.mp hbaked.1 v hv
    · exact ih hbaked.2 hv

theorem inferArgs (baked : Bool) (callee : Register) (count : Nat) (first : Register) :
    K S [] (Lower.inferArgs baked callee count first) :=
  hK.ite (fun _ => hK.pure ()) fun _ => hK.infer callee (.ofNat count) first

mutual

/-- The code for an expression. -/
theorem expr {S : List Label} : (e : Expr) → (dst : Register) → K S [] (Lower.expr params e dst)
  | .ident _ x, dst => by
    rw [Lower.expr]
    exact hK.bind (hK.identifier x) fun _ => hK.emit trivial
  | .literal _ v, dst => by
    rw [Lower.expr]
    exact hK.load dst _
  | .paren _ e, dst => by
    rw [Lower.expr]
    exact expr e dst
  | .binary _ op l r, dst => by
    have hl {S : List Label} (dst : Register) : K S [] (Lower.expr params l dst) := expr l dst
    have hr {S : List Label} (dst : Register) : K S [] (Lower.expr params r dst) := expr r dst
    rcases op.sort with rfl | rfl | rfl | hop
    · rw [Lower.expr]
      exact hK.newLabel fun _ => hK.seq (hl dst) <| hK.seq (hK.jumpIfFalse _ (.head _)) <|
        hK.seq (hr dst) <| hK.bindLabel (.head _)
    · rw [Lower.expr]
      exact hK.newLabel fun _ => hK.newLabel fun _ => hK.seq (hl dst) <|
        hK.seq (hK.jumpIfFalse _ (.tail _ (.head _))) <| hK.seq (hK.jump (.head _)) <|
          hK.bindLabel_seq (.tail _ (.head _)) <| hK.seq (hr dst) <| hK.bindLabel (.head _)
    · rw [Lower.expr]
      exact hK.bind hK.allocate fun a => hK.bind hK.allocate fun b => hK.seq (hl a) <|
        hK.seq (hr b) <| hK.emit trivial
    · rw [expr_operator hop]
      exact hK.bind hK.allocate fun _ => hK.bind (hK.identifier _) fun _ =>
        hK.seq (hK.emit trivial) <| hK.bind (hK.allocateRange 2) fun a => hK.seq (hl a) <|
          hK.seq (hr _) <| hK.emit trivial
  | .object _ fs, dst => by
    rw [Lower.expr]
    exact hK.seq (hK.emit trivial) <| hK.bind hK.allocate fun r => fields fs dst r
  | .array _ es, dst => by
    rw [Lower.expr]
    exact hK.seq (hK.emit trivial) <| hK.bind hK.allocate fun _ =>
      each (fun _ => hK.emit (by trivial)) es _ 0
  | .tuple _ es, dst => by
    rw [Lower.expr]
    exact hK.seq (hK.emit trivial) <| hK.bind hK.allocate fun _ =>
      each (fun _ => hK.emit (by trivial)) es _ 0
  | .call _ f es implicit, dst => by
    rw [Lower.expr]
    refine hK.bind hK.allocate fun callee => hK.seq (expr f callee) ?_
    split
    · exact hK.bind (hK.allocateRange _) fun _ => hK.seq (hK.implicitArgs _ _) <|
        hK.seq (each (fun _ => hK.pure ()) es _ 0) <| hK.seq (hK.inferArgs ..) <| hK.emit trivial
    · exact hK.bind (hK.allocateRange _) fun _ => hK.seq (each (fun _ => hK.pure ()) es _ 0) <|
        hK.callOrHole ..
  | .member _ o x, dst => by
    rw [Lower.expr]
    exact hK.bind hK.allocate fun r => hK.seq (expr o r) <| hK.bind (hK.identifier x) fun _ =>
      hK.ite (fun _ => hK.emit trivial) fun _ => hK.fieldOrHole ..
  | .subscript _ t i, dst => by
    have hi {S : List Label} (dst : Register) : K S [] (Lower.expr params i dst) := expr i dst
    rw [Lower.expr]
    refine hK.bind hK.allocate fun r => hK.seq (expr t r) ?_
    split
    · exact hK.emit trivial
    · exact hK.bind hK.allocate fun r' => hK.seq (hi r') <| hK.emit trivial
    · exact hK.bind hK.allocate fun r' => hK.seq (hi r') <| hK.elementOrHole ..
  | .type _ t, dst => by
    rw [Lower.expr]
    exact hK.typeExpr t dst

theorem each {S : List Label} {after : Nat → Lower Unit} (hafter : ∀ i, K S [] (after i)) :
    (es : List Expr) → (dst : Nat → Register) → (index : Nat) →
    K S [] (Lower.each params dst after index es)
  | [], _, _ => by
    rw [Lower.each]
    exact hK.pure ()
  | e :: es, dst, index => by
    rw [Lower.each]
    exact hK.seq (expr e _) <| hK.seq (hafter index) <| each hafter es dst (index + 1)

theorem fields {S : List Label} : (fs : List (String × Expr)) → (object value : Register) →
    K S [] (Lower.fields params object value fs)
  | [], _, _ => by
    rw [Lower.fields]
    exact hK.pure ()
  | (name, e) :: fs, object, value => by
    rw [Lower.fields]
    exact hK.seq (expr e value) <| hK.bind (hK.identifier name) fun _ => hK.seq (hK.emit trivial) <|
      fields fs object value

end

theorem exprOrUnit (dst : Register) : (e : Option Expr) → K S [] (Lower.exprOrUnit params dst e)
  | some e => hK.expr e dst
  | none => hK.loadUnit dst

theorem forNext (scratch : Register) : (e : Option Expr) → K S [] (Lower.forNext params scratch e)
  | some e => hK.expr e scratch
  | none => hK.pure ()

theorem loopTest {exit : Label} (hexit : exit ∈ S) (scratch : Register) : (c : Option Expr) →
    K S [] (Lower.loopTest params scratch exit c)
  | some e => hK.seq (hK.expr e scratch) <| hK.jumpIfFalse _ hexit
  | none => hK.pure ()

theorem noMatch : K S [] Lower.noMatch := hK.bind (hK.constant _) fun _ => hK.emit trivial

/-! ## Tests -/

theorem typeTest {t : Ty} (h : bakeable params t = true) (value : Register) :
    K S [] (Lower.typeTest params value t) :=
  hK.bind hK.allocate fun _ => hK.seq (hK.emit trivial) <| hK.bind hK.allocate fun r =>
    hK.seq (hK.baked h r) <| hK.emit trivial

theorem classTest {t : Ty} (h : bakeable params t = true) (value : Register) :
    K S [] (Lower.classTest params value t) :=
  hK.newLabel fun _ => hK.newLabel fun _ => hK.bind hK.allocate fun _ =>
    hK.seq (hK.emit trivial) <| hK.seq (hK.jumpIfFalse _ (.tail _ (.head _))) <|
    hK.seq (hK.typeTest h value) <| hK.seq (hK.jump (.head _)) <|
    hK.bindLabel_seq (.tail _ (.head _)) <| hK.bind (hK.constant _) fun _ =>
    hK.seq (hK.emit trivial) <| hK.bindLabel (.head _)

theorem anyTest {t : Ty} (h : bakeable params t = true) (value : Register) :
    K S [] (Lower.anyTest params value t) := by
  rw [Lower.anyTest]
  split
  · exact hK.typeTest h value
  · exact hK.typeTest h value
  · exact hK.classTest h value

theorem runTimeCheck (value : Register) (t : Ty) : K S [] (Lower.runTimeCheck params value t) :=
  hK.ite (fun h => hK.giveBack (hK.anyTest h value)) fun _ => hK.pure ()

theorem initCheck (p : Place) (d : LetDecl) (value : Register) :
    K S [] (Lower.initCheck p d value) := by
  rw [Lower.initCheck]
  split
  · exact hK.ite (fun _ => hK.runTimeCheck value _) fun _ => hK.pure ()
  · exact hK.pure ()

theorem argumentTest (argument : Register) (name : String) :
    K S [] (Lower.argumentTest argument name) := by
  have h : K S [] (do
      let isType ← Lower.allocate
      let failed ← Lower.newLabel
      let ok ← Lower.newLabel
      Lower.emit (.checkType isType argument .anyType)
      Lower.jumpIfFalse isType failed
      Lower.jump ok
      Lower.bind failed
      let message ← Lower.constant (.string ("Inferred parameter `" ++ name ++ "` expects a type"))
      Lower.emit (.typeError message)
      Lower.bind ok) :=
    hK.bind hK.allocate fun _ => hK.newLabel fun _ => hK.newLabel fun _ =>
      hK.seq (hK.emit trivial) <| hK.seq (hK.jumpIfFalse _ (.tail _ (.head _))) <|
      hK.seq (hK.jump (.head _)) <| hK.bindLabel_seq (.tail _ (.head _)) <|
      hK.bind (hK.constant _) fun _ => hK.seq (hK.emit trivial) <| hK.bindLabel (.head _)
  have hback := hK.giveBack h
  simp only [bind_assoc] at hback
  exact hback

/-! ## Names -/

/-- A name is defined, and the code goes on. -/
theorem define_seq {α : Type} {name : String} (hname : N name) (r : Register) {x : Unit → Lower α}
    (hx : K S L (x ())) : K S L (do
      let j ← Lower.identifier name
      let u ← Lower.emit (.setLocal j r)
      x u) := by
  rw [← bind_assoc]
  exact hK.seq (hK.define r hname) hx

theorem letDecl (p : Place) {d : LetDecl} (hd : N d.name) (dst : Register) : K S [] (Lower.letDecl p d dst) :=
  hK.seq (hK.expr d.init dst) <| hK.seq (hK.initCheck p d dst) <| hK.define_seq hd dst <| hK.loadUnit dst

theorem forInit (p : Place) (dst : Register) : (init : Option ForInit) →
    (∀ d, init = some (.letDecl d) → N d.name) → K S [] (Lower.forInit p dst init)
  | none, _ => hK.pure ()
  | some (.expr e), _ => hK.expr e dst
  | some (.letDecl d), h => hK.letDecl p (h d rfl) dst

mutual

theorem pattern : (p : Pattern) → (∀ x ∈ p.names, N x) → (value : Register) → {failed : Label} →
    failed ∈ S → K S [] (Lower.pattern value failed p)
  | .ident _ _, hp, value, _, _ => by
    rw [Lower.pattern]
    exact hK.define value (hp _ List.mem_cons_self)
  | .any _, _, value, _, _ => by
    rw [Lower.pattern]
    exact hK.pure ()
  | .literal _ _, _, value, _, hfailed => by
    rw [Lower.pattern]
    exact hK.bind hK.allocate fun _ => hK.seq (hK.load _ _) <| hK.bind hK.allocate fun _ =>
      hK.seq (hK.emit trivial) <| hK.jumpIfFalse _ hfailed
  | .object entries _, hp, value, _, hfailed => by
    rw [Lower.pattern]
    exact hK.bind hK.allocate fun _ => hK.seq (hK.emit trivial) <|
      hK.seq (hK.jumpIfFalse _ hfailed) <| patternEntries entries hp value hfailed

theorem patternEntries : (entries : List (String × Pattern)) → (∀ x ∈ Pattern.namesEntries entries, N x) →
    (value : Register) → {failed : Label} → failed ∈ S → K S [] (Lower.patternEntries value failed entries)
  | [], _, _, _, _ => by
    rw [Lower.patternEntries]
    exact hK.pure ()
  | (_, p) :: entries, hp, value, _, hfailed => by
    rw [Lower.patternEntries]
    exact hK.bind hK.allocate fun _ => hK.bind (hK.identifier _) fun _ =>
      hK.seq (hK.emitJump (.noField ..) hfailed) <|
      hK.seq (pattern p (fun x hx => hp x (List.mem_append_left _ hx)) _ hfailed) <|
      patternEntries entries (fun x hx => hp x (List.mem_append_right _ hx)) value hfailed

end

theorem param {p : Param} (hp : N p.name) (argument : Register) : K S [] (Lower.param p argument) :=
  hK.seq (hK.ite (fun _ => hK.argumentTest argument p.name) fun _ => hK.pure ()) <| hK.define argument hp

theorem allParams : (ps : List Param) → (∀ p ∈ ps, N p.name) → (index : Nat) → K S [] (Lower.params index ps)
  | [], _, _ => hK.pure ()
  | p :: ps, h, index => hK.seq (hK.param (h p List.mem_cons_self) _) <|
      allParams ps (fun q hq => h q (List.mem_cons_of_mem p hq)) (index + 1)

end Local

end Lower

end Reified
