import Reified.Proofs.Lowering.Safe
import Reified.Proofs.Machine.Inside

/-!
# Code that is confined to its registers

Registers are handed out from the first free one on, and nothing is given back that was handed out before the code
for a part of a program is begun. So all that this code uses for its own is free at its beginning: apart from the
register for the result, which has been given to it, it writes only registers that are not handed out yet.

The bound `u` is below all registers that are free, at the beginning and later, and the registers `W` contain all
from `u` on. That the one for the result is among them is what each part of the code asks for.

## Main definitions

* `Builder.Confines` — what has been emitted since writes only certain registers
* `Lower.Confined` — what an action emits writes only certain registers

## Main results

* `Lower.Confined.bind` — one action after the other
* `Lower.confined_ty`, `Lower.confined_typeExpr`, `Lower.confined_expr`, `Lower.confined_pattern`,
  `Lower.confined_stmt`, `Lower.confined_body` — the code for all parts of a program
* `Lower.next_body` — the code for declarations gives all its registers back
-/

namespace Reified

/-- A target does not matter for what is written. -/
theorem Instr.writes_withTarget (i : Instr) (t : Int32) : (i.withTarget t).Writes = i.Writes := by
  cases i <;> rfl

namespace Builder

/-- What has been emitted since writes only registers `W`. The registers below `u` are still handed out. -/
structure Confines (u : Nat) (W : Nat → Prop) (b b' : Builder) : Prop where
  items : ∃ ys : Array Item, b'.items = b.items ++ ys ∧ ∀ y ∈ ys, ∀ j, y.instr.Writes j → W j
  next : u ≤ b'.next.toNat

variable {u : Nat} {W : Nat → Prop} {b b₁ b' F : Builder}

/-- Nothing has been emitted. -/
theorem Confines.of_items (hitems : b'.items = b.items) (hnext : u ≤ b'.next.toNat) : b.Confines u W b' :=
  ⟨⟨#[], by rw [hitems, Array.append_empty], nofun⟩, hnext⟩

theorem Confines.trans (h : b.Confines u W b₁) (h' : b₁.Confines u W b') : b.Confines u W b' := by
  obtain ⟨ys, hys, hwrites⟩ := h.items
  obtain ⟨zs, hzs, hwrites'⟩ := h'.items
  refine ⟨⟨ys ++ zs, by rw [hzs, hys, Array.append_assoc], fun y hy => ?_⟩, h'.next⟩
  exact (Array.mem_append.mp hy).elim (hwrites y) (hwrites' y)

/-- The instructions of the finished block that have been emitted since write only registers `W`. -/
theorem Confines.code (h : b.Confines u W b') (hF : b'.Before F) {p : Nat} {i : Instr}
    (hstart : b.items.size ≤ p) (hstop : p < b'.items.size) (hi : F.finish.code[p]? = some i) :
    ∀ j, i.Writes j → W j := by
  obtain ⟨ys, hys, hwrites⟩ := h.items
  obtain ⟨y, hy⟩ : ∃ y, b'.items[p]? = some y := ⟨_, Array.getElem?_eq_getElem hstop⟩
  have hmem : y ∈ ys := by
    rw [hys, Array.getElem?_append_right hstart] at hy
    exact Array.mem_of_getElem? hy
  rw [code_finish, hF.items hy, Option.map_some, Option.some_inj] at hi
  have hsame : i.Writes = y.instr.Writes := by
    rw [← hi, resolve]
    split
    · exact Instr.writes_withTarget _ _
    · rfl
  rw [hsame]
  exact hwrites y hmem

end Builder

namespace Lower

open Builder

/-- What the action emits writes only registers `W`, and the registers below `u` stay handed out. -/
def Confined (u : Nat) (W : Nat → Prop) {α : Type} (x : Lower α) : Prop :=
  ∀ ⦃b b' : Builder⦄ ⦃a : α⦄, x b = .ok a b' → u ≤ b.next.toNat → b.Confines u W b'

namespace Confined

variable {α β : Type} {u : Nat} {W : Nat → Prop} {x : Lower α} {g : α → Lower β} {dst : Register} {i : Instr}

theorem pure (a : α) : Confined u W (Pure.pure a : Lower α) := by
  intro b b' c h hu
  obtain ⟨_, rfl⟩ := pure_eq_ok h
  exact .of_items rfl hu

/-- **One action after the other.** -/
theorem bind (hx : Confined u W x) (hg : ∀ a, Confined u W (g a)) : Confined u W (x >>= g) := by
  intro b b' c h hu
  obtain ⟨a, b₁, hxb, hgb⟩ := bind_eq_ok h
  have hfirst := hx hxb hu
  exact hfirst.trans (hg a hgb hfirst.next)

theorem seq {x : Lower Unit} {g : Unit → Lower β} (hx : Confined u W x) (hg : Confined u W (g ())) :
    Confined u W (x >>= g) :=
  hx.bind fun _ => hg

theorem throw (e : LowerError) : Confined u W (throw e : Lower α) := by
  intro b b' a h
  cases h

theorem ite {c : Prop} [Decidable c] {x y : Lower α} (hx : Confined u W x) (hy : Confined u W y) :
    Confined u W (if c then x else y) := by
  split
  · exact hx
  · exact hy

/-! ### Pools, labels and registers -/

/-- Nothing is emitted, and no register is given back. -/
theorem of_items (h : ∀ b a b', x b = .ok a b' → b'.items = b.items ∧ b'.next = b.next) : Confined u W x := by
  intro b b' a hx hu
  obtain ⟨hitems, hnext⟩ := h b a b' hx
  exact .of_items hitems (hnext ▸ hu)

theorem identifier (name : String) : Confined u W (Lower.identifier name) :=
  of_items fun b a b' h => by
    cases h
    exact ⟨rfl, rfl⟩

theorem constant (c : Constant) : Confined u W (Lower.constant c) :=
  of_items fun b a b' h => by
    cases h
    exact ⟨rfl, rfl⟩

theorem function (f : Block) : Confined u W (Lower.function f) :=
  of_items fun b a b' h => by
    cases h
    exact ⟨rfl, rfl⟩

theorem blockName : Confined u W Lower.blockName :=
  of_items fun b a b' h => by
    cases h
    exact ⟨rfl, rfl⟩

theorem newLabel : Confined u W Lower.newLabel :=
  of_items fun b a b' h => by
    cases h
    exact ⟨rfl, rfl⟩

theorem bindLabel (l : Label) : Confined u W (Lower.bind l) :=
  of_items fun b a b' h => by
    cases h
    exact ⟨rfl, rfl⟩

/-- **Registers are handed out** from the first free one on. -/
theorem allocateRange {count : Nat} {g : Register → Lower α}
    (hg : ∀ r : Register, u ≤ r.index → Confined u W (g r)) :
    Confined u W (Lower.allocateRange count >>= g) := by
  intro b b' a h hu
  obtain ⟨r, b₁, hr, hgb⟩ := bind_eq_ok h
  obtain ⟨-, hindex, hnext, -, -, hitems⟩ := allocateRange_spec hr (.refl b₁)
  have hfirst : b.Confines u W b₁ := .of_items hitems (by omega)
  exact hfirst.trans (hg r (by omega) hgb hfirst.next)

theorem allocate {g : Register → Lower α} (hg : ∀ r : Register, u ≤ r.index → Confined u W (g r)) :
    Confined u W (Lower.allocate >>= g) :=
  allocateRange hg

/-- A mark is a register that is free. -/
theorem mark {g : UInt16 → Lower α} (hg : ∀ m : UInt16, u ≤ m.toNat → Confined u W (g m)) :
    Confined u W (Lower.mark >>= g) := by
  intro b b' a h hu
  exact hg b.next hu h hu

theorem release {m : UInt16} (hm : u ≤ m.toNat) : Confined u W (Lower.release m) := by
  intro b b' a h _
  cases h
  exact .of_items rfl hm

/-! ### Code -/

theorem emitItem {y : Item} (hy : ∀ j, y.instr.Writes j → W j) : Confined u W (Lower.emitItem y) := by
  intro b b' a h hu
  cases h
  refine ⟨⟨#[y], Array.push_eq_append, fun z hz => ?_⟩, hu⟩
  obtain rfl := Array.mem_singleton.mp hz
  exact hy

/-- An instruction that writes one register. -/
theorem emit (hi : i.Writes = (· = dst.index)) (hdst : W dst.index) : Confined u W (Lower.emit i) :=
  emitItem fun j hj => by
    rw [hi] at hj
    exact hj ▸ hdst

/-- An instruction that writes none. -/
theorem quiet (hi : i.Writes = fun _ => False) : Confined u W (Lower.emit i) :=
  emitItem fun j hj => False.elim (by rwa [hi] at hj)

theorem jump (l : Label) : Confined u W (Lower.jump l) := emitItem fun _ => False.elim

theorem jumpIfFalse (r : Register) (l : Label) : Confined u W (Lower.jumpIfFalse r l) :=
  emitItem fun _ => False.elim

theorem load (hdst : W dst.index) (c : Constant) : Confined u W (Lower.load dst c) :=
  .bind (constant c) fun _ => .emit rfl hdst

theorem loadUnit (hdst : W dst.index) : Confined u W (Lower.loadUnit dst) := load hdst _

end Confined

/-! ## Types -/

section code

set_option linter.unusedSectionVars false

variable {u : Nat} {W : Nat → Prop} (hW : ∀ j, u ≤ j → W j)

include hW

/-- Registers behind one that is free are free. -/
theorem writes_offset {first : Register} (h : u ≤ first.index) (k : Nat) : W (first.offset k).index :=
  hW _ (Nat.le_trans h (first.le_index_offset k))

section ty

variable {var : TyVar → Register → Lower Unit}
  (hvar : ∀ (v : TyVar) {r : Register}, W r.index → Confined u W (var v r))

include hvar

mutual

/-- The code for a type, given what the code for its variables does. -/
theorem confined_ty : (t : Ty) → ∀ {dst : Register}, W dst.index → Confined u W (ty var t dst)
  | .var v, _, hdst => by
    rw [ty]
    exact hvar v hdst
  | .name x, _, hdst => by
    rw [ty]
    exact .bind (.identifier x) fun _ => .emit rfl hdst
  | .array t, _, hdst => by
    rw [ty]
    exact .allocate fun r hr => .seq (confined_ty t (hW _ hr)) <| .emit rfl hdst
  | .tuple ts, _, hdst => by
    rw [ty]
    exact .allocateRange fun r hr => .seq (confined_tys ts hr 0) <| .emit rfl hdst
  | .record fs, _, hdst => by
    rw [ty]
    exact .allocateRange fun r hr => .allocateRange fun r' hr' =>
      .seq (confined_tyFields fs hr hr' 0) <| .emit rfl hdst
  | .fn ps t _, _, hdst => by
    rw [ty]
    exact .allocateRange fun r hr => .seq (confined_tys ps hr 0) <| .allocate fun r' hr' =>
      .seq (confined_ty t (hW _ hr')) <| .emit rfl hdst
  | .union a b, _, hdst => by
    rw [ty]
    exact .seq (confined_ty a hdst) <| .allocate fun r hr => .seq (confined_ty b (hW _ hr)) <| .emit rfl hdst
  | .binding x t, _, hdst => by
    rw [ty]
    exact .allocate fun r hr => .seq (confined_ty t (hW _ hr)) <| .bind (.identifier x) fun _ => .emit rfl hdst

theorem confined_tys : (ts : List Ty) → ∀ {first : Register}, u ≤ first.index →
    ∀ index, Confined u W (tys var first index ts)
  | [], _, _, _ => by
    rw [tys]
    exact .pure ()
  | t :: ts, _, hfirst, index => by
    rw [tys]
    exact .seq (confined_ty t (writes_offset hW hfirst index)) <| confined_tys ts hfirst (index + 1)

theorem confined_tyFields : (fs : List (String × Ty)) → ∀ {firstKey firstType : Register},
    u ≤ firstKey.index → u ≤ firstType.index → ∀ index, Confined u W (tyFields var firstKey firstType index fs)
  | [], _, _, _, _, _ => by
    rw [tyFields]
    exact .pure ()
  | (_, t) :: fs, _, _, hkey, htype, index => by
    rw [tyFields]
    exact .seq (.load (writes_offset hW hkey index) _) <|
      .seq (confined_ty t (writes_offset hW htype index)) <| confined_tyFields fs hkey htype (index + 1)

end

end ty

omit hW in
theorem confined_declaredVar (registers : List (Nat × Register)) (v : TyVar) {dst : Register}
    (hdst : W dst.index) : Confined u W (declaredVar registers v dst) := by
  rw [declaredVar]
  split
  · exact .emit rfl hdst
  · exact .throw _

omit hW in
theorem confined_paramVar (params : ImplicitParams) (v : TyVar) {dst : Register} (hdst : W dst.index) :
    Confined u W (paramVar params v dst) := by
  rw [paramVar]
  split
  · exact .bind (.identifier _) fun _ => .emit rfl hdst
  · exact .throw _

mutual

theorem confined_typeExpr : (t : TypeExpr) → ∀ {dst : Register}, W dst.index → Confined u W (typeExpr t dst)
  | .name x _, _, hdst => by
    rw [typeExpr]
    refine .bind (.identifier x) fun _ => ?_
    split
    · exact .emit rfl hdst
    · exact .emit rfl hdst
  | .array t, _, hdst => by
    rw [typeExpr]
    exact .allocate fun r hr => .seq (confined_typeExpr t (hW _ hr)) <| .emit rfl hdst
  | .tuple ts, _, hdst => by
    rw [typeExpr]
    exact .allocateRange fun r hr => .seq (confined_typeExprs ts hr 0) <| .emit rfl hdst
  | .record fs, _, hdst => by
    rw [typeExpr]
    exact .allocateRange fun r hr => .allocateRange fun r' hr' =>
      .seq (confined_typeExprFields fs hr hr' 0) <| .emit rfl hdst
  | .fn ps t, _, hdst => by
    rw [typeExpr]
    exact .allocateRange fun r hr => .seq (confined_typeExprs ps hr 0) <| .allocate fun r' hr' =>
      .seq (confined_typeExpr t (hW _ hr')) <| .emit rfl hdst
  | .union a b, _, hdst => by
    rw [typeExpr]
    exact .seq (confined_typeExpr a hdst) <| .allocate fun r hr =>
      .seq (confined_typeExpr b (hW _ hr)) <| .emit rfl hdst

theorem confined_typeExprs : (ts : List TypeExpr) → ∀ {first : Register}, u ≤ first.index →
    ∀ index, Confined u W (typeExprs first index ts)
  | [], _, _, _ => by
    rw [typeExprs]
    exact .pure ()
  | t :: ts, _, hfirst, index => by
    rw [typeExprs]
    exact .seq (confined_typeExpr t (writes_offset hW hfirst index)) <| confined_typeExprs ts hfirst (index + 1)

theorem confined_typeExprFields : (fs : List (String × TypeExpr)) → ∀ {firstKey firstType : Register},
    u ≤ firstKey.index → u ≤ firstType.index → ∀ index, Confined u W (typeExprFields firstKey firstType index fs)
  | [], _, _, _, _, _ => by
    rw [typeExprFields]
    exact .pure ()
  | (_, t) :: fs, _, _, hkey, htype, index => by
    rw [typeExprFields]
    exact .seq (.load (writes_offset hW hkey index) _) <|
      .seq (confined_typeExpr t (writes_offset hW htype index)) <|
      confined_typeExprFields fs hkey htype (index + 1)

end

/-! ## Expressions -/

variable {params : ImplicitParams}

theorem confined_callOrHole {dst : Register} (hdst : W dst.index) (callee : Register) (argc : Nat)
    (first : Register) : Confined u W (callOrHole dst callee argc first) :=
  .allocate fun r hr => .bind .newLabel fun _ => .bind .newLabel fun _ => .seq (.emit rfl (hW _ hr)) <|
    .seq (.jumpIfFalse r _) <| .seq (.emit rfl hdst) <| .seq (.jump _) <| .seq (.bindLabel _) <|
    .seq (.emit rfl hdst) <| .bindLabel _

omit hW in
theorem confined_tryGetField {dst : Register} (hdst : W dst.index) (object : Register) (field : UInt32)
    (t : Int32) (l : Label) : Confined u W (emitJump (.tryGetField dst object field t) l) :=
  .emitItem fun _ hj => hj ▸ hdst

omit hW in
theorem confined_fieldOrHole {dst : Register} (hdst : W dst.index) (object : Register) (field : UInt32) :
    Confined u W (fieldOrHole dst object field) :=
  .bind .newLabel fun _ => .bind .newLabel fun _ => .seq (confined_tryGetField hdst ..) <| .seq (.jump _) <|
    .seq (.bindLabel _) <| .seq (.emit rfl hdst) <| .bindLabel _

theorem confined_elementOrHole {dst : Register} (hdst : W dst.index) (target index : Register) :
    Confined u W (elementOrHole dst target index) :=
  .allocate fun r hr => .bind .newLabel fun _ => .bind .newLabel fun _ => .seq (.emit rfl (hW _ hr)) <|
    .seq (.jumpIfFalse r _) <| .seq (.emit rfl hdst) <| .seq (.jump _) <| .seq (.bindLabel _) <|
    .seq (.emit rfl hdst) <| .bindLabel _

theorem confined_implicitArgs {first : Register} (hfirst : u ≤ first.index) (baked : Bool) (slots : List Ty) :
    Confined u W (implicitArgs params baked first slots) :=
  .ite (confined_tys hW (confined_paramVar params) slots hfirst 0) (.pure ())

/-- The inferred arguments of a call are written to the first of the registers for its arguments. -/
theorem confined_inferArgs {first : Register} (hfirst : u ≤ first.index) (baked : Bool) (callee : Register)
    (count : Nat) : Confined u W (inferArgs baked callee count first) :=
  .ite (.pure ()) <| .seq (.quiet rfl) <|
    .seq (.emitItem fun j hj => hW j (Nat.le_trans hfirst hj.1)) <| .quiet rfl

mutual

/-- **The code for an expression** writes its destination and registers that are free. -/
theorem confined_expr : (e : Expr) → ∀ {dst : Register}, W dst.index → Confined u W (expr params e dst)
  | .ident _ x, _, hdst => by
    rw [expr]
    exact .bind (.identifier x) fun _ => .emit rfl hdst
  | .literal _ v, _, hdst => by
    rw [expr]
    exact .load hdst _
  | .paren _ e, _, hdst => by
    rw [expr]
    exact confined_expr e hdst
  | .binary _ op l r, _, hdst => by
    have hl {dst : Register} (hdst : W dst.index) : Confined u W (expr params l dst) := confined_expr l hdst
    have hr {dst : Register} (hdst : W dst.index) : Confined u W (expr params r dst) := confined_expr r hdst
    rcases op.sort with rfl | rfl | rfl | hop
    · rw [expr]
      exact .bind .newLabel fun _ => .seq (hl hdst) <| .seq (.jumpIfFalse _ _) <| .seq (hr hdst) <| .bindLabel _
    · rw [expr]
      exact .bind .newLabel fun _ => .bind .newLabel fun _ => .seq (hl hdst) <| .seq (.jumpIfFalse _ _) <|
        .seq (.jump _) <| .seq (.bindLabel _) <| .seq (hr hdst) <| .bindLabel _
    · rw [expr]
      exact .allocate fun a ha => .allocate fun b hb => .seq (hl (hW _ ha)) <| .seq (hr (hW _ hb)) <|
        .emit rfl hdst
    · rw [expr_operator hop]
      exact .allocate fun callee hcallee => .bind (.identifier _) fun _ => .seq (.emit rfl (hW _ hcallee)) <|
        .allocateRange fun first hfirst => .seq (hl (hW _ hfirst)) <|
        .seq (hr (writes_offset hW hfirst 1)) <| .emit rfl hdst
  | .object _ fs, _, hdst => by
    rw [expr]
    exact .seq (.emit rfl hdst) <| .allocate fun r hr => confined_fields fs (hW _ hr)
  | .array _ es, _, hdst => by
    rw [expr]
    exact .seq (.emit rfl hdst) <| .allocate fun r hr =>
      confined_each (fun _ => .quiet rfl) es (fun _ => hW _ hr) 0
  | .tuple _ es, _, hdst => by
    rw [expr]
    exact .seq (.emit rfl hdst) <| .allocate fun r hr =>
      confined_each (fun _ => .quiet rfl) es (fun _ => hW _ hr) 0
  | .call _ f es implicit, _, hdst => by
    rw [expr]
    refine .allocate fun callee hcallee => .seq (confined_expr f (hW _ hcallee)) ?_
    split
    next slots _ =>
      exact .allocateRange fun first hfirst => .seq (confined_implicitArgs hW hfirst _ slots) <|
        .seq (confined_each (fun _ => .pure ()) es (fun _ => writes_offset hW hfirst _) 0) <|
        .seq (confined_inferArgs hW hfirst _ callee _) <| .emit rfl hdst
    next =>
      exact .allocateRange fun first hfirst =>
        .seq (confined_each (fun _ => .pure ()) es (fun i => writes_offset hW hfirst i) 0) <|
        confined_callOrHole hW hdst callee _ first
  | .member _ o x, _, hdst => by
    rw [expr]
    exact .allocate fun r hr => .seq (confined_expr o (hW _ hr)) <| .bind (.identifier x) fun field =>
      .ite (.emit rfl hdst) (confined_fieldOrHole hdst r field)
  | .subscript _ t i, _, hdst => by
    have hi {dst : Register} (hdst : W dst.index) : Confined u W (expr params i dst) := confined_expr i hdst
    rw [expr]
    refine .allocate fun r hr => .seq (confined_expr t (hW _ hr)) ?_
    split
    · exact .emit rfl hdst
    · exact .allocate fun r' hr' => .seq (hi (hW _ hr')) <| .emit rfl hdst
    · exact .allocate fun r' hr' => .seq (hi (hW _ hr')) <| confined_elementOrHole hW hdst r r'
  | .type _ t, _, hdst => by
    rw [expr]
    exact confined_typeExpr hW t hdst

theorem confined_each {after : Nat → Lower Unit} (hafter : ∀ i, Confined u W (after i)) : (es : List Expr) →
    ∀ {dst : Nat → Register}, (∀ i, W (dst i).index) → ∀ index, Confined u W (each params dst after index es)
  | [], _, _, _ => by
    rw [each]
    exact .pure ()
  | e :: es, _, hdst, index => by
    rw [each]
    exact .seq (confined_expr e (hdst index)) <| .seq (hafter index) <| confined_each hafter es hdst (index + 1)

theorem confined_fields : (fs : List (String × Expr)) → ∀ {object value : Register}, W value.index →
    Confined u W (fields params object value fs)
  | [], _, _, _ => by
    rw [fields]
    exact .pure ()
  | (name, e) :: fs, _, _, hvalue => by
    rw [fields]
    exact .seq (confined_expr e hvalue) <| .bind (.identifier name) fun _ => .seq (.quiet rfl) <|
      confined_fields fs hvalue

end

/-! ## Tests and patterns -/

theorem confined_exprOrUnit {dst : Register} (hdst : W dst.index) : (e : Option Expr) →
    Confined u W (exprOrUnit params dst e)
  | some e => confined_expr hW e hdst
  | none => .loadUnit hdst

theorem confined_forNext {scratch : Register} (hscratch : W scratch.index) : (e : Option Expr) →
    Confined u W (forNext params scratch e)
  | some e => confined_expr hW e hscratch
  | none => .pure ()

theorem confined_loopTest {scratch : Register} (hscratch : W scratch.index) (exit : Label) : (c : Option Expr) →
    Confined u W (loopTest params scratch exit c)
  | some e => .seq (confined_expr hW e hscratch) <| .jumpIfFalse _ _
  | none => .pure ()

omit hW in
theorem confined_noMatch : Confined u W noMatch := .bind (.constant _) fun _ => .quiet rfl

theorem confined_typeTest (value : Register) (t : Ty) : Confined u W (typeTest params value t) :=
  .allocate fun _ hr => .seq (.emit rfl (hW _ hr)) <| .allocate fun _ hr' =>
    .seq (confined_ty hW (confined_paramVar params) t (hW _ hr')) <| .quiet rfl

theorem confined_classTest (value : Register) (t : Ty) : Confined u W (classTest params value t) :=
  .bind .newLabel fun _ => .bind .newLabel fun _ => .allocate fun _ hr => .seq (.emit rfl (hW _ hr)) <|
    .seq (.jumpIfFalse _ _) <| .seq (confined_typeTest hW value t) <| .seq (.jump _) <| .seq (.bindLabel _) <|
    .bind (.constant _) fun _ => .seq (.quiet rfl) <| .bindLabel _

theorem confined_runTimeCheck (value : Register) (t : Ty) : Confined u W (runTimeCheck params value t) := by
  refine .ite (.mark fun m hm => .seq ?_ <| .release hm) (.pure ())
  rw [anyTest]
  split
  · exact confined_typeTest hW value t
  · exact confined_typeTest hW value t
  · exact confined_classTest hW value t

theorem confined_initCheck (p : Place) (d : LetDecl) (value : Register) : Confined u W (initCheck p d value) := by
  rw [initCheck]
  split
  · exact .ite (confined_runTimeCheck hW value _) (.pure ())
  · exact .pure ()

theorem confined_letDecl (p : Place) (d : LetDecl) {dst : Register} (hdst : W dst.index) :
    Confined u W (letDecl p d dst) :=
  .seq (confined_expr hW d.init hdst) <| .seq (confined_initCheck hW p d dst) <| .bind (.identifier _) fun _ =>
    .seq (.quiet rfl) <| .loadUnit hdst

theorem confined_forInit (p : Place) {dst : Register} (hdst : W dst.index) : (init : Option ForInit) →
    Confined u W (forInit p dst init)
  | none => .pure ()
  | some (.expr e) => confined_expr hW e hdst
  | some (.letDecl d) => confined_letDecl hW p d hdst

mutual

/-- **The code for a pattern** writes registers that are free, and no others. -/
theorem confined_pattern : (p : Pattern) → (value : Register) → (failed : Label) →
    Confined u W (pattern value failed p)
  | .ident _ _, _, _ => by
    rw [pattern]
    exact .bind (.identifier _) fun _ => .quiet rfl
  | .any _, _, _ => by
    rw [pattern]
    exact .pure ()
  | .literal _ _, _, _ => by
    rw [pattern]
    exact .allocate fun _ hr => .seq (.load (hW _ hr) _) <| .allocate fun _ hr' => .seq (.emit rfl (hW _ hr')) <|
      .jumpIfFalse _ _
  | .object entries _, value, failed => by
    rw [pattern]
    exact .allocate fun _ hr => .seq (.emit rfl (hW _ hr)) <| .seq (.jumpIfFalse _ _) <|
      confined_patternEntries entries value failed

theorem confined_patternEntries : (entries : List (String × Pattern)) → (value : Register) → (failed : Label) →
    Confined u W (patternEntries value failed entries)
  | [], _, _ => by
    rw [patternEntries]
    exact .pure ()
  | (_, p) :: entries, value, failed => by
    rw [patternEntries]
    exact .allocate fun field hr => .bind (.identifier _) fun _ => .seq (confined_tryGetField (hW _ hr) ..) <|
      .seq (confined_pattern p field failed) <| confined_patternEntries entries value failed

end

/-! ## Statements -/

theorem confined_createFunction (name : String) (B : Block) : Confined u W (createFunction name B) :=
  .bind (.function B) fun _ => .mark fun _ hm => .allocate fun _ hr => .seq (.emit rfl (hW _ hr)) <|
    .bind (.identifier name) fun _ => .seq (.quiet rfl) <| .release hm

/-- The functions of a block are blocks of their own, with registers of their own. -/
theorem confined_functions (p : Place) : (ds : List Decl) → Confined u W (functions p ds)
  | [] => by
    rw [functions]
    exact .pure ()
  | .fn head body :: ds => by
    rw [functions]
    intro b b' a h hu
    obtain ⟨B, b₁, hB, hrest⟩ := bind_eq_ok h
    obtain rfl := functionBlock_eq_ok hB
    exact Confined.seq (confined_createFunction hW head.name B) (confined_functions p ds) hrest hu
  | .letDecl _ :: ds => by
    rw [functions_letDecl]
    exact confined_functions p ds
  | .stmt _ :: ds => by
    rw [functions_stmt]
    exact confined_functions p ds

omit hW in
theorem confined_sequence {functions declarations : Lower Unit} {isEmpty : Bool} {dst : Register}
    (hf : Confined u W functions) (hd : Confined u W declarations) (hdst : W dst.index) :
    Confined u W (sequence isEmpty functions declarations dst) :=
  .seq hf <| .ite (.loadUnit hdst) hd

omit hW in
theorem confined_closeScopes : (count : Nat) → Confined u W (closeScopes count)
  | 0 => .pure ()
  | count + 1 => .seq (.quiet rfl) <| confined_closeScopes count

omit hW in
theorem confined_leaveScopes (p : Place) (choose : LoopLabels → Label) : Confined u W (leaveScopes p choose) := by
  rw [leaveScopes]
  split
  · exact .bind .blockName fun _ => .throw _
  · exact .seq (confined_closeScopes _) <| .jump _

theorem confined_loopBody {body : Register → Lower Unit}
    (hbody : ∀ r : Register, W r.index → Confined u W (body r)) : Confined u W (loopBody body) :=
  .mark fun _ hm => .allocate fun r hr => .seq (hbody r (hW _ hr)) <| .release hm

mutual

/-- **The code for a statement** writes its destination and registers that are free. -/
theorem confined_stmt : (s : Stmt) → ∀ {p : Place} {dst : Register}, W dst.index → Confined u W (stmt p s dst)
  | .empty _, _, _, hdst => by
    rw [stmt]
    exact .loadUnit hdst
  | .block body _, _, _, hdst => by
    rw [stmt]
    exact .seq (.quiet rfl) <|
      .seq (confined_sequence (confined_functions hW _ body) (confined_decls body hdst) hdst) <| .quiet rfl
  | .ret value _, _, _, _ => by
    rw [stmt]
    exact .allocate fun _ hr => .seq (confined_exprOrUnit hW (hW _ hr) value) <| .quiet rfl
  | .cond c s alternate _, _, _, hdst => by
    rw [stmt.eq_def]
    refine .allocate fun _ hr => .seq (confined_expr hW c (hW _ hr)) <| .bind .newLabel fun _ =>
      .bind .newLabel fun _ => .seq (.jumpIfFalse _ _) <| .seq (confined_stmt s hdst) <| .seq (.jump _) <|
      .seq (.bindLabel _) <| .seq ?_ <| .bindLabel _
    cases alternate with
    | none => exact .loadUnit hdst
    | some t => exact confined_stmt t hdst
  | .whileLoop c body _, _, _, hdst => by
    rw [stmt]
    exact .bind .newLabel fun _ => .bind .newLabel fun _ => .seq (.bindLabel _) <| .allocate fun _ hr =>
      .seq (confined_expr hW c (hW _ hr)) <| .seq (.jumpIfFalse _ _) <|
      .seq (confined_loopBody hW fun _ hr => confined_stmt body hr) <| .seq (.jump _) <| .seq (.bindLabel _) <|
      .loadUnit hdst
  | .forLoop init c increment body _, _, _, hdst => by
    rw [stmt]
    exact .seq (.quiet rfl) <| .allocate fun _ hr => .seq (confined_forInit hW _ (hW _ hr) init) <|
      .bind .newLabel fun _ => .bind .newLabel fun _ => .bind .newLabel fun _ => .seq (.bindLabel _) <|
      .seq (confined_loopTest hW (hW _ hr) _ c) <|
      .seq (confined_loopBody hW fun _ hr => confined_stmt body hr) <|
      .seq (.bindLabel _) <| .seq (confined_forNext hW (hW _ hr) increment) <| .seq (.jump _) <|
      .seq (.bindLabel _) <| .seq (.quiet rfl) <| .loadUnit hdst
  | .breakLoop _, _, _, _ => by
    rw [stmt]
    exact confined_leaveScopes _ _
  | .continueLoop _, _, _, _ => by
    rw [stmt]
    exact confined_leaveScopes _ _
  | .cases scrutinee cs default _, _, _, hdst => by
    rw [stmt.eq_def]
    refine .allocate fun _ hr => .seq (confined_expr hW scrutinee (hW _ hr)) <| .bind .newLabel fun _ =>
      .seq (confined_matchCases cs hdst) <| .seq ?_ <| .bindLabel _
    cases default with
    | none => exact confined_noMatch
    | some s => exact confined_stmt s hdst
  | .expr e, _, _, hdst => by
    rw [stmt]
    exact confined_expr hW e hdst

theorem confined_matchCases : (cs : List (Pattern × Stmt)) → ∀ {p : Place} {scrutinee dst : Register}
    {done : Label}, W dst.index → Confined u W (matchCases p scrutinee done cs dst)
  | [], _, _, _, _, _ => by
    rw [matchCases]
    exact .pure ()
  | (pat, s) :: cs, _, scrutinee, _, _, hdst => by
    rw [matchCases]
    exact .mark fun _ hm => .bind .newLabel fun failed => .seq (.quiet rfl) <|
      .seq (confined_pattern hW pat scrutinee failed) <| .seq (confined_stmt s hdst) <| .seq (.quiet rfl) <|
      .seq (.jump _) <| .seq (.bindLabel _) <| .seq (.quiet rfl) <| .seq (.release hm) <|
      confined_matchCases cs hdst

theorem confined_decls : (ds : List Decl) → ∀ {p : Place} {dst : Register}, W dst.index →
    Confined u W (decls p ds dst)
  | [], _, _, _ => by
    rw [decls]
    exact .pure ()
  | d :: ds, _, _, hdst => by
    rw [decls]
    exact .mark fun _ hm => .seq (confined_decl d hdst) <| .seq (.release hm) <| confined_decls ds hdst

theorem confined_decl : (d : Decl) → ∀ {p : Place} {dst : Register}, W dst.index → Confined u W (decl p d dst)
  | .letDecl d, p, _, hdst => by
    rw [decl]
    exact confined_letDecl hW p d hdst
  | .fn .., _, _, hdst => by
    rw [decl]
    exact .loadUnit hdst
  | .stmt s, _, _, hdst => by
    rw [decl]
    exact confined_stmt s hdst

end

/-- **The code for declarations**, and for the functions among them. -/
theorem confined_body (p : Place) (ds : List Decl) {dst : Register} (hdst : W dst.index) :
    Confined u W (body p ds dst) :=
  confined_sequence (confined_functions hW p ds) (confined_decls hW ds hdst) hdst

end code

/-! ## Registers that are given back -/

section next

variable {b b' : Builder} {dst : Register}

theorem next_loadUnit (h : loadUnit dst b = .ok () b') : b'.next = b.next := by
  obtain ⟨_, b₁, hconstant, hemit⟩ := bind_eq_ok h
  cases hconstant
  cases hemit
  rfl

theorem next_createFunction {name : String} {B : Block} (h : createFunction name B b = .ok () b') :
    b'.next = b.next := by
  obtain ⟨_, b₁, hfunction, h⟩ := bind_eq_ok h
  obtain ⟨m, b₂, hmark, h⟩ := bind_eq_ok h
  obtain ⟨_, _, -, h⟩ := bind_eq_ok h
  obtain ⟨_, _, -, h⟩ := bind_eq_ok h
  obtain ⟨_, _, -, h⟩ := bind_eq_ok h
  obtain ⟨_, _, -, hrelease⟩ := bind_eq_ok h
  cases hfunction
  cases hmark
  cases hrelease
  rfl

theorem next_functions {p : Place} {ds : List Decl} (h : functions p ds b = .ok () b') : b'.next = b.next := by
  induction ds generalizing b with
  | nil =>
    rw [functions] at h
    obtain ⟨-, rfl⟩ := pure_eq_ok h
    rfl
  | cons d ds ih =>
    cases d with
    | fn head body =>
      rw [functions] at h
      obtain ⟨B, b₁, hB, hrest⟩ := bind_eq_ok h
      obtain ⟨_, b₂, hcreate, hlast⟩ := bind_eq_ok hrest
      rw [ih hlast, next_createFunction hcreate, functionBlock_eq_ok hB]
    | letDecl d =>
      rw [functions_letDecl] at h
      exact ih h
    | stmt s =>
      rw [functions_stmt] at h
      exact ih h

theorem next_decls {p : Place} {ds : List Decl} (h : decls p ds dst b = .ok () b') : b'.next = b.next := by
  induction ds generalizing b with
  | nil =>
    rw [decls] at h
    obtain ⟨-, rfl⟩ := pure_eq_ok h
    rfl
  | cons d ds ih =>
    rw [decls] at h
    obtain ⟨m, b₁, hmark, h⟩ := bind_eq_ok h
    obtain ⟨_, b₂, -, h⟩ := bind_eq_ok h
    obtain ⟨_, b₃, hrelease, h⟩ := bind_eq_ok h
    obtain ⟨-, -, hnext⟩ := release_spec hrelease (.refl b₃)
    rw [ih h, hnext, (mark_spec hmark).2]

/-- **The code for declarations gives all its registers back.** -/
theorem next_body {p : Place} {ds : List Decl} (h : body p ds dst b = .ok () b') : b'.next = b.next := by
  obtain ⟨_, b₁, hfunctions, h⟩ := bind_eq_ok h
  have hfirst := next_functions hfunctions
  split at h
  · exact (next_loadUnit h).trans hfirst
  · exact (next_decls h).trans hfirst

end next

end Lower

end Reified
