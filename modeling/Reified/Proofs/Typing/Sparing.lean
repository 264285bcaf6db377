import Reified.Proofs.Table.Omits
import Reified.Proofs.Typing.Quiet

/-!
# A name whose variable is spared

A name may stand for a variable that is unbound and occurs nowhere else. A use of the name as what is called,
indexed or asked for a field does nothing to the variable: about such an access nothing is known. As long as the
name is used in no other way, the variable remains unbound, and the name remains the only way to it.

## Main definitions

* `Expr.Names`, `Expr.OnlyAccesses` — an expression that is a name, or one that uses it for accesses only
* `Checker.Spares` — the variable is unbound and occurs nowhere else

## Main results

* `Check.spares_typing` — an expression in which the name is used for accesses only
* `Check.spares_access` — what is called, indexed or asked for a field
-/

namespace Reified

/-! ## Accesses -/

/-- The expression is the name, in parentheses perhaps. -/
def Expr.Names (f : String) : Expr → Prop
  | .ident _ x => x = f
  | .paren _ e => e.Names f
  | _ => False

mutual

/-- The name is used as what is called, indexed or asked for a field, if at all. -/
def Expr.OnlyAccesses (f : String) : Expr → Prop
  | .ident _ x => x ≠ f
  | .literal .. | .type .. => True
  | .paren _ e => e.OnlyAccesses f
  | .binary _ _ l r => l.OnlyAccesses f ∧ r.OnlyAccesses f
  | .object _ fs => Expr.OnlyAccessesFields f fs
  | .array _ es | .tuple _ es => Expr.OnlyAccessesList f es
  | .call _ callee args _ => (callee.Names f ∨ callee.OnlyAccesses f) ∧ Expr.OnlyAccessesList f args
  | .subscript _ target index => (target.Names f ∨ target.OnlyAccesses f) ∧ index.OnlyAccesses f
  | .member _ o _ => o.Names f ∨ o.OnlyAccesses f

def Expr.OnlyAccessesList (f : String) : List Expr → Prop
  | [] => True
  | e :: es => e.OnlyAccesses f ∧ Expr.OnlyAccessesList f es

def Expr.OnlyAccessesFields (f : String) : List (String × Expr) → Prop
  | [] => True
  | (_, e) :: fs => e.OnlyAccesses f ∧ Expr.OnlyAccessesFields f fs

end

/-! ## Checkers -/

/-- The variable occurs in no type in scope, but the name may stand for it. -/
structure Scope.Spares (f : String) (v : TyVar) (S : Scope) : Prop where
  values : ∀ frame ∈ S.frames, ∀ x ∈ frame.values, x.2.Omits v.id ∨ x = (f, .var v)
  types : ∀ frame ∈ S.frames, ∀ x ∈ frame.types, x.2.Omits v.id

namespace Scope.Spares

variable {f : String} {v : TyVar} {S : Scope} {t : Ty}

theorem push (h : S.Spares f v) : S.push.Spares f v where
  values := List.forall_mem_cons.mpr ⟨nofun, h.values⟩
  types := List.forall_mem_cons.mpr ⟨nofun, h.types⟩

theorem pop (h : S.Spares f v) : S.pop.Spares f v where
  values frame hframe := h.values frame (List.mem_of_mem_tail hframe)
  types frame hframe := h.types frame (List.mem_of_mem_tail hframe)

theorem truncate (h : S.Spares f v) (depth : Nat) : (S.truncate depth).Spares f v where
  values frame hframe := h.values frame (List.mem_of_mem_drop hframe)
  types frame hframe := h.types frame (List.mem_of_mem_drop hframe)

theorem insert (h : S.Spares f v) {name : String} (ht : t.Omits v.id ∨ (name, t) = (f, .var v)) :
    (S.insert name t).Spares f v := by
  obtain ⟨frames⟩ := S
  cases frames with
  | nil => exact h
  | cons frame frames =>
    obtain ⟨hframe, hframes⟩ := List.forall_mem_cons.mp h.values
    refine ⟨List.forall_mem_cons.mpr ⟨fun x hx => ?_, hframes⟩,
      List.forall_mem_cons.mpr (List.forall_mem_cons.mp h.types)⟩
    rcases Fields.mem_of_mem_insert hx with rfl | hx
    · exact ht
    · exact hframe x hx

theorem insertType (h : S.Spares f v) (name : String) (ht : t.Omits v.id) : (S.insertType name t).Spares f v := by
  obtain ⟨frames⟩ := S
  cases frames with
  | nil => exact h
  | cons frame frames =>
    obtain ⟨hframe, hframes⟩ := List.forall_mem_cons.mp h.types
    refine ⟨List.forall_mem_cons.mpr (List.forall_mem_cons.mp h.values),
      List.forall_mem_cons.mpr ⟨fun x hx => ?_, hframes⟩⟩
    rcases Fields.mem_of_mem_insert hx with rfl | hx
    · exact ht
    · exact hframe x hx

theorem lookup (h : S.Spares f v) {name : String} (ht : S.lookup name = some t) :
    t.Omits v.id ∨ name = f ∧ t = .var v := by
  obtain ⟨frame, hframe, hget⟩ := List.exists_of_findSome?_eq_some ht
  exact (h.values frame hframe _ (Fields.mem_of_get?_eq_some hget)).imp_right Prod.mk.inj

theorem lookupType (h : S.Spares f v) {name : String} (ht : S.lookupType name = some t) : t.Omits v.id := by
  obtain ⟨frame, hframe, hget⟩ := List.exists_of_findSome?_eq_some ht
  exact h.types frame hframe _ (Fields.mem_of_get?_eq_some hget)

mutual

/-- The variable does not occur in what a written type stands for. -/
theorem interpret (h : S.Spares f v) : (t : TypeExpr) → ∀ {u : Ty}, S.interpret t = .ok u → u.Omits v.id
  | .name n span, u, hu => by
    rw [Scope.interpret] at hu
    split at hu
    · next t ht =>
      cases hu
      exact h.lookupType ht
    · split at hu
      · cases hu
        exact Ty.omits_name n
      · cases hu
  | .array t, u, hu => by
    rw [Scope.interpret] at hu
    obtain ⟨w, hw, hu⟩ := exists_of_bind_eq_ok hu
    cases hu
    exact (interpret h t hw).array
  | .tuple ts, u, hu => by
    rw [Scope.interpret] at hu
    obtain ⟨ws, hws, hu⟩ := exists_of_bind_eq_ok hu
    cases hu
    exact Ty.omits_tuple (interpretList h ts hws)
  | .record fs, u, hu => by
    rw [Scope.interpret] at hu
    obtain ⟨ws, hws, hu⟩ := exists_of_bind_eq_ok hu
    cases hu
    exact Ty.omits_record (interpretFields h fs hws)
  | .fn ps r, u, hu => by
    rw [Scope.interpret] at hu
    obtain ⟨ws, hws, hu⟩ := exists_of_bind_eq_ok hu
    obtain ⟨w, hw, hu⟩ := exists_of_bind_eq_ok hu
    cases hu
    exact Ty.omits_fn (interpretList h ps hws) (interpret h r hw)
  | .union a b, u, hu => by
    rw [Scope.interpret] at hu
    obtain ⟨w, hw, hu⟩ := exists_of_bind_eq_ok hu
    obtain ⟨w', hw', hu⟩ := exists_of_bind_eq_ok hu
    cases hu
    exact Ty.omits_union (interpret h a hw) (interpret h b hw')

theorem interpretList (h : S.Spares f v) : (ts : List TypeExpr) → ∀ {us : List Ty},
    S.interpretList ts = .ok us → ∀ u ∈ us, u.Omits v.id
  | [], us, hus => by
    cases hus
    exact List.forall_mem_nil _
  | t :: ts, us, hus => by
    rw [Scope.interpretList] at hus
    obtain ⟨w, hw, hus⟩ := exists_of_bind_eq_ok hus
    obtain ⟨ws, hws, hus⟩ := exists_of_bind_eq_ok hus
    cases hus
    exact List.forall_mem_cons.mpr ⟨interpret h t hw, interpretList h ts hws⟩

theorem interpretFields (h : S.Spares f v) : (fs : List (String × TypeExpr)) → ∀ {us : List (String × Ty)},
    S.interpretFields fs = .ok us → ∀ u ∈ us, u.2.Omits v.id
  | [], us, hus => by
    cases hus
    exact List.forall_mem_nil _
  | (name, t) :: fs, us, hus => by
    rw [Scope.interpretFields] at hus
    obtain ⟨w, hw, hus⟩ := exists_of_bind_eq_ok hus
    obtain ⟨ws, hws, hus⟩ := exists_of_bind_eq_ok hus
    cases hus
    exact List.forall_mem_cons.mpr ⟨interpret h t hw, interpretFields h fs hws⟩

end

end Scope.Spares

/-- The variable is unbound, and occurs nowhere but as the type of the name. -/
structure Checker.Spares (f : String) (v : TyVar) (s : Checker) : Prop where
  table : s.table.Omits v.id
  scope : s.scope.Spares f v
  returns : ∀ t ∈ s.returns, t.Omits v.id

namespace Check

open Checker (Spares)

variable {α β : Type} {f : String} {v : TyVar}

/-! ## Elementary actions -/

section elementary

variable {t u : Ty} {post : α → Prop}

theorem spares_onTable {act : Table → α × Table} (h : ∀ T, T.Omits v.id → post (act T).1 ∧ (act T).2.Omits v.id) :
    Ensures (Spares f v) post (onTable act) := fun s hs =>
  have h := h s.table hs.table
  ⟨⟨h.2, hs.scope, hs.returns⟩, h.1⟩

theorem spares_onFrames {act : Frames → Table → α × Frames × Table}
    (h : ∀ F T, T.Omits v.id → post (act F T).1 ∧ (act F T).2.2.Omits v.id) :
    Ensures (Spares f v) post (onFrames act) := fun s hs =>
  have h := h s.frames s.table hs.table
  ⟨⟨h.2, hs.scope, hs.returns⟩, h.1⟩

theorem spares_onScope {act : Scope → Scope} (h : ∀ S : Scope, S.Spares f v → (act S).Spares f v) :
    Ensures (Spares f v) (fun _ => True) (onScope act) :=
  fun s hs => ⟨⟨hs.table, h s.scope hs.scope, hs.returns⟩, trivial⟩

theorem spares_resolve (ht : t.Omits v.id) : Ensures (Spares f v) (Ty.Omits v.id) (resolve t) :=
  spares_onTable fun _ hT => hT.resolve ht

theorem spares_resolveDeep (ht : t.Omits v.id) : Ensures (Spares f v) (Ty.Omits v.id) (resolveDeep t) :=
  spares_onTable fun _ hT => hT.resolveDeep ht

theorem spares_substitute {image : List (Nat × Ty)} (himage : ∀ x ∈ image, x.2.Omits v.id) (ht : t.Omits v.id) :
    Ensures (Spares f v) (Ty.Omits v.id) (substitute image t) :=
  spares_onTable fun _ hT => hT.substitute ht himage

theorem spares_unify (ht : t.Omits v.id) (hu : u.Omits v.id) (span : Span) :
    Ensures (Spares f v) (fun _ => True) (unify t u span) := by
  rintro ⟨T, S, F, D, R, L⟩ hs
  have hT := hs.table.unify ht hu
  simp only [unify]
  cases hunify : T.unify t u with
  | ok _ T' =>
    rw [hunify] at hT
    exact ⟨⟨hT, hs.scope, hs.returns⟩, trivial⟩
  | error e T' =>
    rw [hunify] at hT
    exact ⟨hT, hs.scope, hs.returns⟩

theorem spares_newVar (name : String) (inferred rigid : Bool) :
    Ensures (Spares f v) (Ty.Omits v.id) (newVar name inferred rigid) :=
  spares_onFrames fun F _ hT => ⟨Ty.omits_var.mpr hT.known.ne', hT.newVar name inferred rigid F.depth⟩

theorem spares_freshVar (name : String) : Ensures (Spares f v) (Ty.Omits v.id) (freshVar name) :=
  spares_newVar name false false

theorem spares_instantiate (ht : t.Omits v.id) : Ensures (Spares f v) (Ty.Omits v.id) (instantiate t) :=
  spares_onFrames fun F _ hT => hT.instantiate ht F.depth

theorem spares_pushScope : Ensures (Spares f v) (fun _ => True) pushScope := spares_onScope fun _ h => h.push

theorem spares_popScope : Ensures (Spares f v) (fun _ => True) popScope := spares_onScope fun _ h => h.pop

theorem spares_bindValue (name : String) (ht : t.Omits v.id) :
    Ensures (Spares f v) (fun _ => True) (bindValue name t) := spares_onScope fun _ h => h.insert (.inl ht)

theorem spares_bindType (name : String) (ht : t.Omits v.id) :
    Ensures (Spares f v) (fun _ => True) (bindType name t) := spares_onScope fun _ h => h.insertType name ht

theorem spares_pushFrame : Ensures (Spares f v) (fun _ => True) pushFrame :=
  spares_onFrames fun _ _ hT => ⟨trivial, hT⟩

/-- Closing a frame only marks variables as generalized. -/
theorem omits_settle {id : Nat} (depth : Nat) (ids done : List Nat) (F : Frames) {T : Table} (h : T.Omits id) :
    (Frames.settle depth ids F T done).2.2.Omits id := by
  induction ids generalizing F T done with
  | nil => exact h
  | cons w ids ih =>
    rw [Frames.settle]
    split
    · exact ih _ _ h
    · split
      · exact ih _ _ (h.generalize w)
      · exact ih _ _ h

theorem omits_pop {id : Nat} (F : Frames) {T : Table} (h : T.Omits id) : (F.pop T).2.2.Omits id := by
  unfold Frames.pop
  split
  · exact h
  · exact omits_settle _ _ _ _ h

theorem spares_popFrame : Ensures (Spares f v) (fun _ => True) popFrame :=
  spares_onFrames fun F _ hT => ⟨trivial, omits_pop F hT⟩

theorem spares_enterBody (ht : t.Omits v.id) : Ensures (Spares f v) (fun _ => True) (enterBody t) :=
  fun _ hs => ⟨⟨hs.table, hs.scope, List.forall_mem_cons.mpr ⟨ht, hs.returns⟩⟩, trivial⟩

theorem spares_leaveBody (loopDepth : Nat) : Ensures (Spares f v) (fun _ => True) (leaveBody loopDepth) :=
  fun _ hs => ⟨⟨hs.table, hs.scope, fun t ht => hs.returns t (List.mem_of_mem_tail ht)⟩, trivial⟩

theorem spares_setLoopDepth (g : Nat → Nat) : Ensures (Spares f v) (fun _ => True) (setLoopDepth g) :=
  fun _ hs => ⟨⟨hs.table, hs.scope, hs.returns⟩, trivial⟩

theorem spares_jump (keyword : String) (span : Span) : Ensures (Spares f v) (fun _ => True) (jump keyword span) :=
  Ensures.get.bind fun _ _ => by
    split
    · exact .fail _ _
    · exact .pure trivial

theorem spares_typeExpr (t : TypeExpr) : Ensures (Spares f v) (Ty.Omits v.id) (typeExpr t) := by
  intro s hs
  cases hi : s.scope.interpret t with
  | ok u =>
    rw [typeExpr_of_ok hi]
    exact ⟨hs, hs.scope.interpret t hi⟩
  | error e =>
    rw [typeExpr_of_error hi]
    exact hs

theorem spares_optionalType (name : String) (t : Option TypeExpr) :
    Ensures (Spares f v) (Ty.Omits v.id) (optionalType name t) := by
  cases t with
  | some t => exact spares_typeExpr t
  | none => exact spares_freshVar name

theorem spares_typeValue (t : TypeExpr) (span : Span) : Ensures (Spares f v) (fun _ => True) (typeValue t span) := by
  refine (spares_typeExpr t).bind fun _ _ => Ensures.get.bind fun s _ => ?_
  dsimp only
  split
  · exact .fail _ _
  · exact .pure trivial

theorem spares_unknown [Policy] (span : Span) : Ensures (Spares f v) (fun _ => True) (unknown span) := by
  unfold unknown
  split
  · exact .fail _ _
  · exact .pure trivial

theorem spares_hole [Policy] (name : String) (span : Span) :
    Ensures (Spares f v) (Ty.Omits v.id) (hole name span) :=
  (spares_unknown span).bind fun _ _ => spares_freshVar name

end elementary

/-! ## Implicit parameters and expected types -/

theorem spares_openSlots (span : Span) {types slots : List Ty} {image : List (Nat × Ty)}
    (htypes : ∀ t ∈ types, t.Omits v.id) (himage : ∀ x ∈ image, x.2.Omits v.id) :
    Ensures (Spares f v) (fun r => ∀ x ∈ r.1, x.2.Omits v.id) (openSlots span types image slots) := by
  induction types generalizing image slots with
  | nil => exact .pure himage
  | cons slot rest ih =>
    obtain ⟨hslot, hrest⟩ := List.forall_mem_cons.mp htypes
    have hinner : slot.slotType.2.Omits v.id := by
      cases slot <;> exact hslot
    rw [openSlots_cons]
    refine (spares_resolve hinner).bind fun inner hinner => ?_
    refine (spares_newVar slot.slotType.1 true false).bind fun w hw => ?_
    split
    · exact ih hrest (List.forall_mem_cons.mpr ⟨hw, himage⟩)
    · exact (spares_unify hw hinner span).bind fun _ _ => ih hrest himage

theorem spares_substituteAll {image : List (Nat × Ty)} {done types : List Ty}
    (himage : ∀ x ∈ image, x.2.Omits v.id) (hdone : ∀ t ∈ done, t.Omits v.id)
    (htypes : ∀ t ∈ types, t.Omits v.id) :
    Ensures (Spares f v) (fun r => ∀ t ∈ r, t.Omits v.id) (substituteAll image done types) := by
  induction types generalizing done with
  | nil => exact .pure fun t ht => hdone t (List.mem_reverse.mp ht)
  | cons t types ih =>
    obtain ⟨ht, hrest⟩ := List.forall_mem_cons.mp htypes
    rw [substituteAll]
    exact (spares_substitute himage ht).bind fun u hu => ih (List.forall_mem_cons.mpr ⟨hu, hdone⟩) hrest

theorem spares_instantiateImplicit {params : List Ty} {result : Ty} (implicit : Nat) (span : Span)
    (hparams : ∀ t ∈ params, t.Omits v.id) (hresult : result.Omits v.id) :
    Ensures (Spares f v) (fun r => (∀ t ∈ r.1, t.Omits v.id) ∧ r.2.1.Omits v.id)
      (instantiateImplicit params result implicit span) := by
  unfold instantiateImplicit
  split
  · exact .pure ⟨hparams, hresult⟩
  · refine (spares_openSlots span (fun t ht => hparams t (List.mem_of_mem_take ht))
      (List.forall_mem_nil _)).bind fun r himage => ?_
    refine (spares_substituteAll himage (List.forall_mem_nil _) hparams).bind fun ts hts => ?_
    exact (spares_substitute himage hresult).bind fun u hu => .pure ⟨hts, hu⟩

theorem spares_expectedForm {expected : Option Ty} (h : ∀ t ∈ expected, t.Omits v.id) :
    Ensures (Spares f v) (fun r => ∀ t ∈ r, t.Omits v.id) (expectedForm expected) := by
  cases expected with
  | some t =>
    refine (spares_resolve (h t rfl)).map fun u hu => ?_
    rintro _ ⟨⟩
    exact hu
  | none => exact .pure nofun

theorem spares_completion {expected : Ty} (rest : List Decl) (h : expected.Omits v.id) :
    Ensures (Spares f v) (Ty.Omits v.id) (completion expected rest) := by
  unfold completion
  split
  · exact .pure h
  · exact spares_freshVar ""

theorem spares_conclude {expected : Option Ty} {found : Ty} {e : Expr} (h : ∀ t ∈ expected, t.Omits v.id)
    (hfound : found.Omits v.id) : Ensures (Spares f v) (fun r => r.1.Omits v.id) (conclude expected found e) := by
  unfold conclude
  split
  · exact (spares_unify (h _ rfl) hfound _).bind fun _ _ => .pure hfound
  · exact .pure hfound

/-! ## Functions and patterns -/

theorem spares_hoist (ds : List Decl) : Ensures (Spares f v) (fun _ => True) (hoist ds) := by
  induction ds with
  | nil => exact .pure trivial
  | cons d ds ih =>
    cases d with
    | fn head body =>
      rw [hoist]
      exact (spares_freshVar _).bind fun _ ht => (spares_bindValue _ ht).bind fun _ _ => ih
    | letDecl d => rw [hoist_letDecl]; exact ih
    | stmt s => rw [hoist_stmt]; exact ih

theorem spares_bindTypeParams (names : List String) :
    Ensures (Spares f v) (fun _ => True) (bindTypeParams names) := by
  induction names with
  | nil => exact .pure trivial
  | cons name names ih =>
    rw [bindTypeParams]
    exact (spares_newVar name false true).bind fun _ ht => (spares_bindType name ht).bind fun _ _ => ih

theorem spares_paramTypes {done : List Ty} (implicit : Nat) (ps : List Param) (hdone : ∀ t ∈ done, t.Omits v.id) :
    Ensures (Spares f v) (fun r => ∀ t ∈ r.1, t.Omits v.id) (paramTypes done implicit ps) := by
  induction ps generalizing done implicit with
  | nil => exact .pure fun t ht => hdone t (List.mem_reverse.mp ht)
  | cons param ps ih =>
    have hbind : Ensures (Spares f v) (fun r => ∀ t ∈ r.1, t.Omits v.id) (do
        let v ← newVar param.name true true
        bindType param.name v
        paramTypes (.binding param.name v :: done) (implicit + 1) ps) := by
      refine (spares_newVar param.name true true).bind fun w hw => ?_
      refine (spares_bindType param.name hw).bind fun _ _ => ?_
      exact ih (implicit + 1) (List.forall_mem_cons.mpr ⟨hw.binding param.name, hdone⟩)
    rw [paramTypes]
    split
    · split
      · exact (Ensures.fail _ _ : Ensures (Spares f v) (fun _ => True) _).bind fun _ _ => hbind
      · exact hbind
    · refine (spares_optionalType param.name param.annotation).bind fun t ht => ?_
      exact ih implicit (List.forall_mem_cons.mpr ⟨ht, hdone⟩)

theorem spares_bindParams (ps : List Param) {types : List Ty} (htypes : ∀ t ∈ types, t.Omits v.id) :
    Ensures (Spares f v) (fun _ => True) (bindParams ps types) := by
  induction ps generalizing types with
  | nil => exact .pure trivial
  | cons param ps ih =>
    cases types with
    | nil => exact .pure trivial
    | cons t types =>
      obtain ⟨ht, hrest⟩ := List.forall_mem_cons.mp htypes
      rw [bindParams]
      refine (spares_bindValue _ ?_).bind fun _ _ => ih hrest
      split
      · exact Ty.omits_name _
      · exact ht

theorem omits_none {id : Nat} : ∀ t ∈ (none : Option Ty), t.Omits id := nofun

theorem omits_some {id : Nat} {t : Ty} (h : t.Omits id) : ∀ u ∈ some t, u.Omits id := by
  rintro _ ⟨⟩
  exact h

theorem omits_literal {id : Nat} (l : Literal) : l.ty.Omits id := by
  cases l <;> exact Ty.omits_name _

section pattern

variable [Policy]

mutual

theorem spares_pattern : (p : Pattern) → ∀ {t : Ty}, t.Omits v.id →
    Ensures (Spares f v) (fun _ => True) (pattern t p)
  | .ident name _, t, ht => by
    rw [pattern]
    exact spares_bindValue name ht
  | .any _, t, ht => by
    rw [pattern]
    exact .pure trivial
  | .literal l span, t, ht => by
    rw [pattern]
    exact spares_unify ht (omits_literal l) span
  | .object entries span, t, ht => by
    rw [pattern]
    refine (spares_resolve ht).bind fun u hu => ?_
    split
    · exact spares_entryPatterns entries ht fun field hfield => Ty.Part.omits (.record hfield) hu
    · exact (spares_unknown span).bind fun _ _ => spares_freshPatterns entries
    · exact (spares_unknown span).bind fun _ _ => spares_freshPatterns entries
    · exact (spares_resolveDeep hu).bind fun _ _ => .fail _ _

theorem spares_entryPatterns : (entries : List (String × Pattern)) → ∀ {t : Ty} {fs : List (String × Ty)}
    {span : Span}, t.Omits v.id → (∀ field ∈ fs, field.2.Omits v.id) →
    Ensures (Spares f v) (fun _ => True) (entryPatterns t fs span entries)
  | [], t, fs, span, _, _ => by
    rw [entryPatterns]
    exact .pure trivial
  | (name, p) :: entries, t, fs, span, ht, hfs => by
    rw [entryPatterns]
    split
    · exact (spares_resolveDeep ht).bind fun _ _ => .fail _ _
    · next u hu =>
      refine (spares_pattern p (hfs _ (Fields.mem_of_get?_eq_some hu))).bind fun _ _ => ?_
      exact spares_entryPatterns entries ht hfs

theorem spares_freshPatterns : (entries : List (String × Pattern)) →
    Ensures (Spares f v) (fun _ => True) (freshPatterns entries)
  | [] => by
    rw [freshPatterns]
    exact .pure trivial
  | (name, p) :: entries => by
    rw [freshPatterns]
    exact (spares_freshVar name).bind fun t ht => (spares_pattern p ht).bind fun _ _ =>
      spares_freshPatterns entries

end

end pattern

/-! ## Expressions -/

/-- The variable is spared, and the scope is the given one. -/
abbrev SparesIn (f : String) (v : TyVar) (S : Scope) (s : Checker) : Prop := s.Spares f v ∧ s.scope = S

/-- The variable does not occur in the type, or it is the type. -/
abbrev Reads (v : TyVar) (t : Ty) : Prop := t.Omits v.id ∨ t = .var v

section inScope

variable {S : Scope} {t : Ty}

/-- Whatever leaves the scope as it is. -/
theorem Ensures.inScope {post : α → Prop} {act : Check α} (h : Ensures (Spares f v) post act) (hquiet : Quiet act) :
    Ensures (SparesIn f v S) post act := by
  rintro s ⟨hs, rfl⟩
  have h1 := h s hs
  cases hact : act s with
  | ok a s' =>
    rw [hact] at h1
    exact ⟨⟨h1.1, congrArg Checker.Setting.scope (hquiet.eq_of_ok hact)⟩, h1.2⟩
  | error e s' =>
    rw [hact] at h1
    exact ⟨h1, congrArg Checker.Setting.scope (hquiet.eq_of_error hact)⟩

theorem spares_lookup_self (name : String) (span : Span) :
    Ensures (SparesIn f v S) (Reads v) (lookup name span) := by
  refine Ensures.get.bind fun s hs => ?_
  cases ht : s.scope.lookup name with
  | none => exact .fail _ _
  | some t =>
    rcases hs.1.scope.lookup ht with ht | ⟨-, rfl⟩
    · exact ((spares_instantiate ht).inScope (quiet_instantiate t)).mono fun _ => .inl
    · have hinstance : Ensures (Spares f v) (Reads v) (instantiate (.var v)) := spares_onFrames fun F T hT => by
        have h := hT.instantiate_self (v := v) rfl F.depth
        exact ⟨h.1.symm, h.2⟩
      exact hinstance.inScope (quiet_instantiate _)

theorem spares_lookup {name : String} (span : Span) (h : S.lookup f = some (.var v) → name ≠ f) :
    Ensures (SparesIn f v S) (Ty.Omits v.id) (lookup name span) := by
  refine Ensures.get.bind fun s hs => ?_
  cases ht : s.scope.lookup name with
  | none => exact .fail _ _
  | some t =>
    rcases hs.1.scope.lookup ht with ht' | ⟨rfl, rfl⟩
    · exact (spares_instantiate ht').inScope (quiet_instantiate t)
    · exact absurd rfl (h (hs.2 ▸ ht))

/-- The variable is its own representative. -/
theorem spares_resolve_self (ht : Reads v t) :
    Ensures (SparesIn f v S) (fun r => t.Omits v.id ∧ r.Omits v.id ∨ t = .var v ∧ r = .var v) (resolve t) := by
  rcases ht with ht | rfl
  · exact ((spares_resolve ht).inScope (quiet_resolve t)).mono fun _ hr => .inl ⟨ht, hr⟩
  · refine Ensures.inScope (spares_onTable fun T hT => ?_) (quiet_resolve _)
    have hself : T.resolve (.var v) = (.var v, T) := Table.follow_of_unbound hT.unbound T.size
    rw [hself]
    exact ⟨.inr ⟨rfl, rfl⟩, hT⟩

variable [Policy]

theorem spares_fieldType {object : Ty} (field : String) (span : Span) (h : Reads v object) :
    Ensures (SparesIn f v S) (Ty.Omits v.id) (fieldType object field span) := by
  unfold fieldType
  refine (spares_resolve_self h).bind fun r hr => ?_
  have hhole : Ensures (SparesIn f v S) (Ty.Omits v.id) (hole field span) :=
    (spares_hole field span).inScope (quiet_hole field span)
  split
  · obtain ⟨hobject, hfs⟩ := hr.resolve_right fun h => by cases h.2
    split
    · next t ht => exact .pure (Ty.Part.omits (.record (Fields.mem_of_get?_eq_some ht)) hfs)
    · exact ((spares_resolveDeep hobject).inScope (quiet_resolveDeep _)).bind fun _ _ => .fail _ _
  · exact hhole
  · exact hhole
  · next hvar _ =>
    have hr : r.Omits v.id := (hr.resolve_right fun h => hvar v h.2).2
    exact ((spares_resolveDeep hr).inScope (quiet_resolveDeep _)).bind fun _ _ => .fail _ _

/-- An expression that is the name answers the variable. -/
theorem spares_names : (e : Expr) → e.Names f →
    Ensures (SparesIn f v S) (fun r => Reads v r.1) (typing none e)
  | .ident n x, _ => by
    rw [typing]
    refine ((spares_expectedForm omits_none).inScope (quiet_expectedForm _)).bind fun _ _ => ?_
    exact (spares_lookup_self x n.span).bind fun t ht => .pure ht
  | .paren n e, h => by
    rw [typing]
    refine ((spares_expectedForm omits_none).inScope (quiet_expectedForm _)).bind fun _ _ => ?_
    exact (spares_names e h).bind fun r hr => .pure hr

/-- What is called, indexed or asked for a field is the name, or an expression that uses it for accesses only. -/
theorem spares_access {e : Expr} (he : S.lookup f = some (.var v) → e.Names f ∨ e.OnlyAccesses f)
    (h : (S.lookup f = some (.var v) → e.OnlyAccesses f) →
      Ensures (SparesIn f v S) (fun r => r.1.Omits v.id) (typing none e)) :
    Ensures (SparesIn f v S) (fun r => Reads v r.1) (typing none e) := by
  by_cases hf : S.lookup f = some (.var v)
  · rcases he hf with he | he
    · exact spares_names e he
    · exact (h fun _ => he).mono fun _ => .inl
  · exact (h fun h => absurd h hf).mono fun _ => .inl

mutual

/-- **An expression that uses the name for accesses only** leaves its variable alone, and has a type without it. -/
theorem spares_typing : (e : Expr) → (S.lookup f = some (.var v) → e.OnlyAccesses f) → ∀ {expected : Option Ty},
    (∀ t ∈ expected, t.Omits v.id) →
    Ensures (SparesIn f v S) (fun r => r.1.Omits v.id) (typing expected e)
  | .ident n x, he, expected, h => by
    rw [typing]
    refine ((spares_expectedForm h).inScope (quiet_expectedForm _)).bind fun _ _ => ?_
    refine (spares_lookup n.span he).bind fun t ht => ?_
    exact (spares_conclude h ht).inScope (quiet_conclude _ _ _)
  | .literal n l, _, expected, h => by
    rw [typing]
    refine ((spares_expectedForm h).inScope (quiet_expectedForm _)).bind fun _ _ => ?_
    exact (spares_conclude h (omits_literal l)).inScope (quiet_conclude _ _ _)
  | .paren n e, he, expected, h => by
    rw [typing]
    refine ((spares_expectedForm h).inScope (quiet_expectedForm _)).bind fun _ _ => ?_
    refine (spares_typing e he h).bind fun r hr => .pure ?_
    cases expected with
    | none => exact hr
    | some t => exact h t rfl
  | .binary n op l r, he, expected, h => by
    have hl : S.lookup f = some (.var v) → l.OnlyAccesses f := fun hf => (he hf).1
    have hr : S.lookup f = some (.var v) → r.OnlyAccesses f := fun hf => (he hf).2
    have hbool : ∀ u ∈ some Ty.bool, u.Omits v.id := omits_some (Ty.omits_name _)
    have hend : ∀ {t : Ty} {e : Expr}, t.Omits v.id →
        Ensures (SparesIn f v S) (fun r => r.1.Omits v.id) (conclude expected t e) := fun ht =>
      (spares_conclude h ht).inScope (quiet_conclude _ _ _)
    have hboth : Ensures (SparesIn f v S) (fun r => r.1.Omits v.id) (do
        let (_, l) ← typing (some .bool) l
        let (_, r) ← typing (some .bool) r
        conclude expected .bool (.binary n op l r)) :=
      (spares_typing l hl hbool).bind fun _ _ => (spares_typing r hr hbool).bind fun _ _ => hend (Ty.omits_name _)
    rw [typing]
    refine ((spares_expectedForm h).inScope (quiet_expectedForm _)).bind fun _ _ => ?_
    dsimp only
    split
    · exact hboth
    · exact hboth
    · refine (spares_typing l hl omits_none).bind fun l' hl' => ?_
      exact (spares_typing r hr (omits_some hl')).bind fun _ _ => hend (Ty.omits_name _)
    · refine (spares_lookup_self op.symbol n.span).bind fun t ht => ?_
      refine (spares_resolve_self ht).bind fun u hu => ?_
      split
      · next p q result _ =>
        have hfn := (hu.resolve_right fun h => by cases h.2).2
        have hparam : ∀ {t : Ty}, t ∈ [p, q] → t.Omits v.id := fun ht => Ty.Part.omits (.param ht) hfn
        refine (spares_typing l hl (omits_some (hparam (by simp)))).bind fun _ _ => ?_
        refine (spares_typing r hr (omits_some (hparam (by simp)))).bind fun _ _ => ?_
        exact hend (Ty.Part.omits .result hfn)
      · exact .fail _ _
  | .object n fs, he, expected, h => by
    have hinfer : Ensures (SparesIn f v S) (fun r => r.1.Omits v.id) (do
        let (ts, fs) ← typingFields [] [] [] fs
        conclude expected (.record ts) (.object n fs)) :=
      (spares_typingFields fs he (List.forall_mem_nil _) (List.forall_mem_nil _)).bind fun r hr =>
        (spares_conclude h (Ty.omits_record hr)).inScope (quiet_conclude _ _ _)
    rw [typing]
    refine ((spares_expectedForm h).inScope (quiet_expectedForm _)).bind fun form hform => ?_
    dsimp only
    split
    · next t ts =>
      split
      · have hts : ∀ u ∈ ts.map Prod.snd, u.Omits v.id := fun u hu => by
          obtain ⟨field, hfield, rfl⟩ := List.mem_map.mp hu
          exact Ty.Part.omits (.record hfield) (hform _ rfl)
        refine (spares_typingFields fs he hts (List.forall_mem_nil _)).bind fun _ _ => ?_
        exact .pure (h t rfl)
      · exact hinfer
    · exact hinfer
  | .array n es, he, expected, h => by
    have hend : ∀ {t : Ty} {e : Expr}, t.Omits v.id →
        Ensures (SparesIn f v S) (fun r => r.1.Omits v.id) (conclude expected t e) := fun ht =>
      (spares_conclude h ht).inScope (quiet_conclude _ _ _)
    have hitems : ∀ {t : Ty} {k : Nat}, t.Omits v.id → ∀ u ∈ List.replicate k t, u.Omits v.id :=
      fun ht u hu => List.eq_of_mem_replicate hu ▸ ht
    rw [typing]
    refine ((spares_expectedForm h).inScope (quiet_expectedForm _)).bind fun form hform => ?_
    dsimp only
    split
    · next t item =>
      have hitem : item.Omits v.id := Ty.Part.omits .array (hform _ rfl)
      refine (spares_typingList es he (hitems hitem) (List.forall_mem_nil _)).bind fun _ _ => ?_
      exact .pure (h t rfl)
    · cases es with
      | nil => exact ((spares_freshVar "").inScope (quiet_freshVar "")).bind fun t ht => hend ht.array
      | cons first rest =>
        refine (spares_typing first (fun hf => (he hf).1) omits_none).bind fun r hr => ?_
        refine (spares_typingList rest (fun hf => (he hf).2) (hitems hr) (List.forall_mem_nil _)).bind fun _ _ => ?_
        exact hend hr.array
  | .tuple n es, he, expected, h => by
    have hinfer : Ensures (SparesIn f v S) (fun r => r.1.Omits v.id) (do
        let (ts, es) ← typingList [] [] [] es
        conclude expected (.tuple ts) (.tuple n es)) :=
      (spares_typingList es he (List.forall_mem_nil _) (List.forall_mem_nil _)).bind fun r hr =>
        (spares_conclude h (Ty.omits_tuple hr)).inScope (quiet_conclude _ _ _)
    rw [typing]
    refine ((spares_expectedForm h).inScope (quiet_expectedForm _)).bind fun form hform => ?_
    dsimp only
    split
    · next t ts =>
      split
      · have hts : ∀ u ∈ ts, u.Omits v.id := fun u hu => Ty.Part.omits (.tuple hu) (hform _ rfl)
        exact (spares_typingList es he hts (List.forall_mem_nil _)).bind fun _ _ => .pure (h t rfl)
      · exact hinfer
    · exact hinfer
  | .call n callee args slots, he, expected, h => by
    have hend : ∀ {t : Ty} {e : Expr}, t.Omits v.id →
        Ensures (SparesIn f v S) (fun r => r.1.Omits v.id) (conclude expected t e) := fun ht =>
      (spares_conclude h ht).inScope (quiet_conclude _ _ _)
    have hargs : S.lookup f = some (.var v) → Expr.OnlyAccessesList f args := fun hf => (he hf).2
    rw [typing]
    refine ((spares_expectedForm h).inScope (quiet_expectedForm _)).bind fun _ _ => ?_
    refine (spares_access (fun hf => (he hf).1) fun hc => spares_typing callee hc omits_none).bind fun r hr => ?_
    refine (spares_resolve_self hr).bind fun u hu => ?_
    split
    · next params result implicit =>
      have hfn := (hu.resolve_right fun h => by cases h.2).2
      have hrest : Ensures (SparesIn f v S) (fun r => r.1.Omits v.id) (do
          let (params, result, slots) ← instantiateImplicit params result implicit n.span
          let (_, args) ← typingList (params.drop implicit) [] [] args
          conclude expected result (.call n r.2 args (some slots))) := by
        refine ((spares_instantiateImplicit implicit n.span (fun t ht => Ty.Part.omits (.param ht) hfn)
          (Ty.Part.omits .result hfn)).inScope (quiet_instantiateImplicit _ _ _ _)).bind fun p hp => ?_
        refine (spares_typingList args hargs (fun t ht => hp.1 t (List.mem_of_mem_drop ht))
          (List.forall_mem_nil _)).bind fun _ _ => ?_
        exact hend hp.2
      dsimp only
      split
      · exact (Ensures.fail _ _ : Ensures (SparesIn f v S) (fun _ => True) _).bind fun _ _ => hrest
      · exact hrest
    · refine (spares_typingList args hargs (List.forall_mem_nil _) (List.forall_mem_nil _)).bind fun _ _ => ?_
      exact ((spares_hole "" n.span).inScope (quiet_hole _ _)).bind fun t ht => hend ht
    · next _ hvar =>
      have hr : u.Omits v.id := (hu.resolve_right fun h => hvar v h.2).2
      exact ((spares_resolveDeep hr).inScope (quiet_resolveDeep _)).bind fun _ _ => .fail _ _
  | .subscript n target index, he, expected, h => by
    have hend : ∀ {t : Ty} {e : Expr}, t.Omits v.id →
        Ensures (SparesIn f v S) (fun r => r.1.Omits v.id) (conclude expected t e) := fun ht =>
      (spares_conclude h ht).inScope (quiet_conclude _ _ _)
    have hindex : S.lookup f = some (.var v) → index.OnlyAccesses f := fun hf => (he hf).2
    have hnumber : ∀ u ∈ some Ty.number, u.Omits v.id := omits_some (Ty.omits_name _)
    rw [typing]
    refine ((spares_expectedForm h).inScope (quiet_expectedForm _)).bind fun _ _ => ?_
    refine (spares_access (fun hf => (he hf).1) fun ht => spares_typing target ht omits_none).bind fun r hr => ?_
    refine (spares_resolve_self hr).bind fun u hu => ?_
    split
    · next item =>
      have harray := (hu.resolve_right fun h => by cases h.2).2
      exact (spares_typing index hindex hnumber).bind fun _ _ => hend (Ty.Part.omits .array harray)
    · next items =>
      obtain ⟨htarget, htuple⟩ := hu.resolve_right fun h => by cases h.2
      refine ((spares_resolveDeep htarget).inScope (quiet_resolveDeep _)).bind fun whole _ => ?_
      split
      · exact .fail _ _
      · split
        · exact .fail _ _
        · next item hitem =>
          refine (spares_typing index hindex omits_none).bind fun _ _ => ?_
          exact hend (Ty.Part.omits (.tuple (List.mem_of_getElem? hitem)) htuple)
    · refine (spares_typing index hindex omits_none).bind fun _ _ => ?_
      exact ((spares_hole "" n.span).inScope (quiet_hole _ _)).bind fun t ht => hend ht
    · next _ _ hvar =>
      have hr : u.Omits v.id := (hu.resolve_right fun h => hvar v h.2).2
      refine ((spares_freshVar "").inScope (quiet_freshVar "")).bind fun _ _ => ?_
      exact ((spares_resolveDeep hr).inScope (quiet_resolveDeep _)).bind fun _ _ => .fail _ _
  | .member n o field, he, expected, h => by
    rw [typing]
    refine ((spares_expectedForm h).inScope (quiet_expectedForm _)).bind fun _ _ => ?_
    refine (spares_access he fun ho => spares_typing o ho omits_none).bind fun r hr => ?_
    refine (spares_fieldType field n.span hr).bind fun t ht => ?_
    exact (spares_conclude h ht).inScope (quiet_conclude _ _ _)
  | .type n t, _, expected, h => by
    rw [typing]
    refine ((spares_expectedForm h).inScope (quiet_expectedForm _)).bind fun _ _ => ?_
    refine ((spares_typeValue t n.span).inScope (quiet_typeValue _ _)).bind fun _ _ => ?_
    exact (spares_conclude h (Ty.omits_name _)).inScope (quiet_conclude _ _ _)

theorem spares_typingList : (es : List Expr) → (S.lookup f = some (.var v) → Expr.OnlyAccessesList f es) →
    ∀ {expected found : List Ty} {done : List Expr}, (∀ t ∈ expected, t.Omits v.id) →
    (∀ t ∈ found, t.Omits v.id) →
    Ensures (SparesIn f v S) (fun r => ∀ t ∈ r.1, t.Omits v.id) (typingList expected found done es)
  | [], _, expected, found, done, _, hfound => by
    rw [typingList]
    exact .pure fun t ht => hfound t (List.mem_reverse.mp ht)
  | e :: es, hes, expected, found, done, h, hfound => by
    rw [typingList]
    have hfirst := spares_typing e (fun hf => (hes hf).1) fun t ht => h t (List.mem_of_mem_head? ht)
    refine hfirst.bind fun r hr => ?_
    exact spares_typingList es (fun hf => (hes hf).2) (fun t ht => h t (List.mem_of_mem_tail ht))
      (List.forall_mem_cons.mpr ⟨hr, hfound⟩)

theorem spares_typingFields : (fs : List (String × Expr)) →
    (S.lookup f = some (.var v) → Expr.OnlyAccessesFields f fs) → ∀ {expected : List Ty}
    {found : List (String × Ty)} {done : List (String × Expr)}, (∀ t ∈ expected, t.Omits v.id) →
    (∀ field ∈ found, field.2.Omits v.id) →
    Ensures (SparesIn f v S) (fun r => ∀ field ∈ r.1, field.2.Omits v.id) (typingFields expected found done fs)
  | [], _, expected, found, done, _, hfound => by
    rw [typingFields]
    exact .pure fun field hfield => hfound field (List.mem_reverse.mp hfield)
  | (name, e) :: fs, hfs, expected, found, done, h, hfound => by
    rw [typingFields]
    have hfirst := spares_typing e (fun hf => (hfs hf).1) fun t ht => h t (List.mem_of_mem_head? ht)
    refine hfirst.bind fun r hr => ?_
    exact spares_typingFields fs (fun hf => (hfs hf).2) (fun t ht => h t (List.mem_of_mem_tail ht))
      (List.forall_mem_cons.mpr ⟨hr, hfound⟩)

end

end inScope

end Check

end Reified
