import Reified.Proofs.Typing.Binders

/-!
# Checks are contained

Checking an expression, a statement or a declaration computes with live types only, whatever it comes to,
and leaves what is below its base alone. Only the declaration of a variable or a function adds to the scope
it stands in, and that is the last thing it does.

## Main definitions

* `Check.Expecting` — the expected type, if there is one, is live
* `Check.letType`, `Check.fnType` — the parts of declarations that come before the name is bound

## Main results

* `Check.contains_typing`, `Check.contains_stmt` — at any place above any base
* `Check.contains_letType`, `Check.contains_fnType` — declarations up to the binding of the name
* `Check.contains_decl` — declarations inside a scope above the base
-/

namespace Reified

namespace Check

variable {α β : Type} {B : Base} {p : Position} {known : Table → Prop}

/-- The expected type is live, if there is one. -/
abbrev Expecting (B : Base) (known : Table → Prop) (expected : Option Ty) : Prop :=
  ∀ T, known T → ∀ t ∈ expected, B.Live T t

theorem Expecting.some {t : Ty} (h : ∀ T, known T → B.Live T t) : Expecting B known (some t) := by
  rintro T hk _ ⟨⟩
  exact h T hk

theorem Expecting.none : Expecting B known none := fun _ _ t ht => absurd ht (Option.not_mem_none t)

theorem contains_conclude {expected : Option Ty} {found : Ty} {e : Expr}
    (h : Expecting B known expected) (hfound : ∀ T, known T → B.Live T found) :
    Contains B p p known (fun r T => B.Live T r.1) (conclude expected found e) := by
  unfold conclude
  split
  · exact (contains_unify _ (fun T hk => h T hk _ rfl) hfound).bind fun _ => .pure fun T hk => hfound T hk.1
  · exact .pure hfound

theorem contains_mapM {f : Expr → Check Expr} (hf : ∀ e, Contains B p p known Anything (f e))
    (e : Option Expr) : Contains B p p known Anything (e.mapM f) := by
  cases e with
  | none => exact .pure fun _ _ => trivial
  | some e => exact (hf e).map fun _ _ _ _ => trivial

/-! ## Blocks and functions -/

theorem contains_inBlock {t : Ty} {body : List Decl} {span : Span} {declarations : Check (List Decl)}
    (ht : ∀ T, known T → B.Live T t)
    (h : ∀ {known : Table → Prop}, (∀ T, known T → B.Live T t) →
      Contains B p.inScope p.inScope known Anything declarations) :
    Contains B p p known Anything (inBlock t body span declarations) := by
  have hrest : ∀ {known : Table → Prop}, (∀ T, known T → B.Live T t) →
      Contains B p.inScope p known Anything (do
        let body ← declarations
        popScope
        return body) := fun ht =>
    (h ht).bind fun _ => contains_popScope.bind fun _ => .pure fun _ _ => trivial
  unfold inBlock
  refine contains_pushScope.bind fun _ => (contains_hoist body).bind fun _ => ?_
  dsimp only
  split
  · refine (contains_unify span (fun T hk => ht T hk.1.1) fun _ _ => Table.Remains.name _).bind fun _ => ?_
    exact hrest fun T hk => ht T hk.1.1.1
  · exact hrest fun T hk => ht T hk.1.1

/-- The signature of a function and its body, as they are found inside its frame. -/
def fnBody (head : FnHead) (body : Ty → Check (List Decl)) : Check (Ty × List Decl) := do
  pushScope
  bindTypeParams head.typeParams
  let (params, implicit) ← paramTypes [] 0 head.params
  let result ← optionalType "" head.result
  let signature := Ty.fn params result implicit
  bindValue head.name signature
  bindParams head.params params
  let loopDepth ← enterBody result
  let body ← body result
  leaveBody loopDepth
  popScope
  return (signature, body)

/-- The declaration of a function up to the binding of its name outside. -/
def fnType (head : FnHead) (body : Ty → Check (List Decl)) : Check (Ty × List Decl) := do
  let (signature, body) ← (do
    pushFrame
    let r ← fnBody head body
    popFrame
    return r)
  return (← resolveDeep signature, body)

theorem function_eq (head : FnHead) (body : Ty → Check (List Decl)) : function head body = do
    let (signature, body) ← fnType head body
    bindValue head.name signature
    return ({ head with signature := some signature }, body) := by
  unfold function fnType fnBody
  simp only [bind_assoc, pure_bind]

theorem contains_fnBody {head : FnHead} {body : Ty → Check (List Decl)}
    (h : ∀ {p : Position} {known : Table → Prop} t, (∀ T, known T → B.Live T t) →
      Contains B p p known Anything (body t)) :
    Contains B p p known (fun r T => B.Live T r.1) (fnBody head body) := by
  unfold fnBody
  refine contains_pushScope.bind fun _ => (contains_bindTypeParams head.typeParams).bind fun _ => ?_
  refine (contains_paramTypes [] 0 head.params fun _ _ => List.forall_mem_nil _).bind fun r => ?_
  refine (contains_optionalType "" head.result).bind fun result => ?_
  have hsignature : ∀ {known : Table → Prop}, (∀ T, known T → ∀ t ∈ r.1, B.Live T t) →
      (∀ T, known T → B.Live T result) → ∀ T, known T → B.Live T (.fn r.1 result r.2) :=
    fun hparams hresult T hk => .fn (hparams T hk) (hresult T hk)
  refine (contains_bindValue head.name fun T hk =>
    (hsignature (fun T hk => hk.1.2) (fun T hk => hk.2) T hk).scheme).bind fun _ => ?_
  refine (contains_bindParams head.params r.1 fun T hk => hk.1.1.2).bind fun _ => ?_
  refine (contains_enterBody fun T hk => hk.1.1.2).bind fun loopDepth => ?_
  refine (h result fun T hk => hk.1.1.1.2).bind fun body' => (contains_leaveBody loopDepth).bind fun _ => ?_
  refine contains_popScope.bind fun _ => .pure ?_
  exact hsignature (fun T hk => hk.1.1.1.1.1.1.1.2) fun T hk => hk.1.1.1.1.1.1.2

/-- **Checking a function** up to the binding of its name gives it a scheme for a type. -/
theorem contains_fnType {head : FnHead} {body : Ty → Check (List Decl)}
    (h : ∀ {B : Base} {p : Position} {known : Table → Prop} t, (∀ T, known T → B.Live T t) →
      Contains B p p known Anything (body t)) :
    Contains B p p known (fun r T => B.Scheme T r.1) (fnType head body) := by
  unfold fnType
  refine (contains_inFrame fun B => contains_fnBody h).bind fun r => ?_
  exact (contains_resolveDeep fun T hk => hk.2).bind fun t => .pure fun T hk => hk.2

theorem contains_function {head : FnHead} {body : Ty → Check (List Decl)}
    (h : ∀ {B : Base} {p : Position} {known : Table → Prop} t, (∀ T, known T → B.Live T t) →
      Contains B p p known Anything (body t)) :
    Contains B p.inScope p.inScope known Anything (function head body) := by
  rw [function_eq]
  refine (contains_fnType h).bind fun r => ?_
  exact (contains_bindValue head.name fun T hk => hk.2).bind fun _ => .pure fun _ _ => trivial

variable [Policy]

theorem contains_fieldType {object : Ty} (field : String) (span : Span)
    (h : ∀ T, known T → B.Live T object) :
    Contains B p p known (fun r T => B.Live T r) (fieldType object field span) := by
  unfold fieldType
  refine (contains_resolve h).bind fun r => ?_
  split
  · split
    · next t ht =>
      exact .pure fun T hk => hk.2.part (.record (Fields.mem_of_get?_eq_some ht))
    · exact (contains_resolveDeep fun T hk => (h T hk.1).scheme).bind fun _ => .fail _ _
  · exact contains_hole field span
  · exact contains_hole field span
  · exact (contains_resolveDeep fun T hk => hk.2.scheme).bind fun _ => .fail _ _

/-! ## Expressions -/

mutual

/-- **Checking an expression** gives it a live type. -/
theorem contains_typing : (e : Expr) → ∀ {known : Table → Prop} {expected : Option Ty},
    Expecting B known expected →
    Contains B p p known (fun r T => B.Live T r.1) (typing expected e)
  | .ident n x, known, expected, h => by
    rw [typing]
    refine (contains_expectedForm h).bind fun _ => (contains_lookup x n.span).bind fun t => ?_
    exact contains_conclude (fun T hk => h T hk.1.1) fun T hk => hk.2
  | .literal n v, known, expected, h => by
    rw [typing]
    refine (contains_expectedForm h).bind fun _ => contains_conclude (fun T hk => h T hk.1) fun T _ => ?_
    cases v <;> exact Table.Remains.name _
  | .paren n inner, known, expected, h => by
    rw [typing]
    refine (contains_expectedForm h).bind fun _ => ?_
    refine (contains_typing inner fun T hk => h T hk.1).bind fun r => .pure fun T hk => ?_
    cases expected with
    | none => exact hk.2
    | some t => exact h T hk.1.1 t rfl
  | .binary n op l r, known, expected, h => by
    have hbool : ∀ {known}, Expecting B known (some .bool) := .some fun _ _ => Table.Remains.name _
    have hboth : ∀ {known}, Expecting B known expected →
        Contains B p p known (fun r T => B.Live T r.1) (do
          let (_, l) ← typing (some .bool) l
          let (_, r) ← typing (some .bool) r
          conclude expected .bool (.binary n op l r)) := fun h =>
      (contains_typing l hbool).bind fun _ => (contains_typing r hbool).bind fun _ =>
        contains_conclude (fun T hk => h T hk.1.1) fun _ _ => Table.Remains.name _
    rw [typing]
    refine (contains_expectedForm h).bind fun _ => ?_
    dsimp only
    split
    · exact hboth fun T hk => h T hk.1
    · exact hboth fun T hk => h T hk.1
    · refine (contains_typing l .none).bind fun l' => ?_
      refine (contains_typing r (.some fun T hk => hk.2)).bind fun r' => ?_
      exact contains_conclude (fun T hk => h T hk.1.1.1) fun _ _ => Table.Remains.name _
    · refine (contains_lookup _ n.span).bind fun t => (contains_resolve fun T hk => hk.2).bind fun u => ?_
      split
      · next a b result _ =>
        refine (contains_typing l (.some fun T hk => hk.2.part (.param (by simp)))).bind fun l' => ?_
        refine (contains_typing r (.some fun T hk => hk.1.2.part (.param (by simp)))).bind fun r' => ?_
        exact contains_conclude (fun T hk => h T hk.1.1.1.1.1) fun T hk => hk.1.1.2.part .result
      · exact .fail _ _
  | .object n fs, known, expected, h => by
    have hinfer : ∀ {known}, Expecting B known expected →
        Contains B p p known (fun r T => B.Live T r.1) (do
          let (ts, fs) ← typingFields [] [] [] fs
          conclude expected (.record ts) (.object n fs)) := fun h =>
      (contains_typingFields fs (fun _ _ => List.forall_mem_nil _) fun _ _ => List.forall_mem_nil _).bind fun r =>
        contains_conclude (fun T hk => h T hk.1) fun T hk => .record hk.2
    rw [typing]
    refine (contains_expectedForm h).bind fun form => ?_
    dsimp only
    split
    · next t ts =>
      split
      · refine (contains_typingFields fs (fun T hk u hu => ?_) fun _ _ => List.forall_mem_nil _).bind fun r => ?_
        · obtain ⟨f, hf, rfl⟩ := List.mem_map.mp hu
          exact (hk.2 _ rfl).part (.record hf)
        · exact .pure fun T hk => h T hk.1.1 t rfl
      · exact hinfer fun T hk => h T hk.1
    · exact hinfer fun T hk => h T hk.1
  | .array n es, known, expected, h => by
    rw [typing]
    refine (contains_expectedForm h).bind fun form => ?_
    dsimp only
    split
    · next t item =>
      refine (contains_typingList es (fun T hk u hu => ?_) fun _ _ => List.forall_mem_nil _).bind fun r => ?_
      · obtain rfl := List.eq_of_mem_replicate hu
        exact (hk.2 _ rfl).part .array
      · exact .pure fun T hk => h T hk.1.1 t rfl
    · cases es with
      | nil =>
        refine (contains_freshVar "").bind fun t => ?_
        exact contains_conclude (fun T hk => h T hk.1.1) fun T hk => .array hk.2
      | cons first rest =>
        refine (contains_typing first .none).bind fun r => ?_
        refine (contains_typingList rest (fun T hk u hu => ?_) fun _ _ => List.forall_mem_nil _).bind fun rs => ?_
        · exact List.eq_of_mem_replicate hu ▸ hk.2
        · exact contains_conclude (fun T hk => h T hk.1.1.1) fun T hk => .array hk.1.2
  | .tuple n es, known, expected, h => by
    have hinfer : ∀ {known}, Expecting B known expected →
        Contains B p p known (fun r T => B.Live T r.1) (do
          let (ts, es) ← typingList [] [] [] es
          conclude expected (.tuple ts) (.tuple n es)) := fun h =>
      (contains_typingList es (fun _ _ => List.forall_mem_nil _) fun _ _ => List.forall_mem_nil _).bind fun r =>
        contains_conclude (fun T hk => h T hk.1) fun T hk => .tuple hk.2
    rw [typing]
    refine (contains_expectedForm h).bind fun form => ?_
    dsimp only
    split
    · next t ts =>
      split
      · refine (contains_typingList es (fun T hk u hu => ?_) fun _ _ => List.forall_mem_nil _).bind fun r => ?_
        · exact (hk.2 _ rfl).part (.tuple hu)
        · exact .pure fun T hk => h T hk.1.1 t rfl
      · exact hinfer fun T hk => h T hk.1
    · exact hinfer fun T hk => h T hk.1
  | .call n callee args implicit, known, expected, h => by
    rw [typing]
    refine (contains_expectedForm h).bind fun _ => (contains_typing callee .none).bind fun f => ?_
    refine (contains_resolve fun T hk => hk.2).bind fun t => ?_
    split
    · next params result count =>
      have hargs : ∀ {known}, Expecting B known expected →
          (∀ T, known T → B.Live T (.fn params result count)) →
          Contains B p p known (fun r T => B.Live T r.1) (do
            let (params, result, slots) ← instantiateImplicit params result count n.span
            let (_, args) ← typingList (params.drop count) [] [] args
            conclude expected result (.call n f.2 args (some slots))) := fun h hfn => by
        refine (contains_instantiateImplicit params result count n.span
          (fun T hk t ht => (hfn T hk).part (.param ht)) fun T hk => (hfn T hk).part .result).bind
          fun r => ?_
        refine (contains_typingList args (fun T hk u hu => ?_) fun _ _ => List.forall_mem_nil _).bind fun as => ?_
        · exact hk.2.1 u (List.mem_of_mem_drop hu)
        · exact contains_conclude (fun T hk => h T hk.1.1) fun T hk => hk.1.2.2
      dsimp only
      split
      · exact (Contains.fail _ _ : Contains B p p _ Anything _).bind fun _ =>
          hargs (fun T hk => h T hk.1.1.1.1) fun T hk => hk.1.2
      · exact hargs (fun T hk => h T hk.1.1.1) fun T hk => hk.2
    · refine (contains_typingList args (fun _ _ => List.forall_mem_nil _) fun _ _ => List.forall_mem_nil _).bind fun as => ?_
      refine (contains_hole "" n.span).bind fun t => ?_
      exact contains_conclude (fun T hk => h T hk.1.1.1.1.1) fun T hk => hk.2
    · exact (contains_resolveDeep fun T hk => hk.2.scheme).bind fun _ => .fail _ _
  | .subscript n target index, known, expected, h => by
    rw [typing]
    refine (contains_expectedForm h).bind fun _ => (contains_typing target .none).bind fun r => ?_
    refine (contains_resolve fun T hk => hk.2).bind fun t => ?_
    split
    · next item =>
      refine (contains_typing index (.some fun _ _ => Table.Remains.name _)).bind fun i => ?_
      exact contains_conclude (fun T hk => h T hk.1.1.1.1) fun T hk => hk.1.2.part .array
    · next items =>
      refine (contains_resolveDeep fun T hk => hk.1.2.scheme).bind fun whole => ?_
      split
      · exact .fail _ _
      · split
        · exact .fail _ _
        · next item hitem =>
          refine (contains_typing index .none).bind fun i => ?_
          exact contains_conclude (fun T hk => h T hk.1.1.1.1.1) fun T hk =>
            hk.1.1.2.part (.tuple (List.mem_of_getElem? hitem))
    · refine (contains_typing index .none).bind fun i => (contains_hole "" n.span).bind fun u => ?_
      exact contains_conclude (fun T hk => h T hk.1.1.1.1.1) fun T hk => hk.2
    · refine (contains_freshVar "").bind fun _ => ?_
      exact (contains_resolveDeep fun T hk => hk.1.2.scheme).bind fun _ => .fail _ _
  | .member n object field, known, expected, h => by
    rw [typing]
    refine (contains_expectedForm h).bind fun _ => (contains_typing object .none).bind fun r => ?_
    refine (contains_fieldType field n.span fun T hk => hk.2).bind fun u => ?_
    exact contains_conclude (fun T hk => h T hk.1.1.1) fun T hk => hk.2
  | .type n t, known, expected, h => by
    rw [typing]
    refine (contains_expectedForm h).bind fun _ => (contains_typeValue t n.span).bind fun _ => ?_
    exact contains_conclude (fun T hk => h T hk.1.1) fun _ _ => Table.Remains.name _

theorem contains_typingList : (es : List Expr) → ∀ {known : Table → Prop}
    {expected found : List Ty} {done : List Expr}, (∀ T, known T → ∀ t ∈ expected, B.Live T t) →
    (∀ T, known T → ∀ t ∈ found, B.Live T t) →
    Contains B p p known (fun r T => ∀ t ∈ r.1, B.Live T t) (typingList expected found done es)
  | [], known, expected, found, done, _, hfound => by
    rw [typingList]
    exact .pure fun T hk t ht => hfound T hk t (List.mem_reverse.mp ht)
  | e :: es, known, expected, found, done, h, hfound => by
    rw [typingList]
    refine (contains_typing e fun T hk t ht => h T hk t (List.mem_of_mem_head? ht)).bind fun r => ?_
    refine contains_typingList es (fun T hk t ht => h T hk.1 t (List.mem_of_mem_tail ht)) fun T hk => ?_
    exact List.forall_mem_cons.mpr ⟨hk.2, hfound T hk.1⟩

theorem contains_typingFields : (fs : List (String × Expr)) → ∀ {known : Table → Prop}
    {expected : List Ty} {found : List (String × Ty)} {done : List (String × Expr)},
    (∀ T, known T → ∀ t ∈ expected, B.Live T t) → (∀ T, known T → ∀ f ∈ found, B.Live T f.2) →
    Contains B p p known (fun r T => ∀ f ∈ r.1, B.Live T f.2) (typingFields expected found done fs)
  | [], known, expected, found, done, _, hfound => by
    rw [typingFields]
    exact .pure fun T hk f hf => hfound T hk f (List.mem_reverse.mp hf)
  | (name, e) :: fs, known, expected, found, done, h, hfound => by
    rw [typingFields]
    refine (contains_typing e fun T hk t ht => h T hk t (List.mem_of_mem_head? ht)).bind fun r => ?_
    refine contains_typingFields fs (fun T hk t ht => h T hk.1 t (List.mem_of_mem_tail ht)) fun T hk => ?_
    exact List.forall_mem_cons.mpr ⟨hk.2, hfound T hk.1⟩

end

theorem contains_infer (e : Expr) : Contains B p p known (fun r T => B.Live T r.1) (infer e) :=
  contains_typing e .none

theorem contains_check (e : Expr) {t : Ty} (h : ∀ T, known T → B.Live T t) :
    Contains B p p known Anything (check e t) :=
  (contains_typing e (.some h)).map fun _ _ _ _ => trivial

theorem contains_condition (e : Expr) : Contains B p p known Anything (condition e) :=
  contains_check e fun _ _ => Table.Remains.name _

/-! ## Declarations of variables -/

/-- The declaration of a variable up to the binding of its name. -/
def letType (d : LetDecl) : Check (Ty × LetDecl) := do
  match d.annotation with
  | some a => do
    let t ← typeExpr a
    let init ← check d.init t
    return (t, { d with init := init })
  | none => do
    let (t, init) ← infer d.init
    return (t, { d with init := init })

theorem letDecl_eq (d : LetDecl) : letDecl d = do
    let (t, d') ← letType d
    bindValue d.name t
    return d' := by
  unfold letDecl letType
  cases d.annotation <;> simp only [bind_assoc, pure_bind]

theorem contains_letType (d : LetDecl) :
    Contains B p p known (fun r T => B.Live T r.1) (letType d) := by
  unfold letType
  split
  · refine (contains_typeExpr _).bind fun t => (contains_check d.init fun T hk => hk.2).bind fun init => ?_
    exact .pure fun T hk => hk.1.2
  · exact (contains_infer d.init).bind fun r => .pure fun T hk => hk.2

theorem contains_letDecl (d : LetDecl) :
    Contains B p.inScope p.inScope known Anything (letDecl d) := by
  rw [letDecl_eq]
  refine (contains_letType d).bind fun r => ?_
  exact (contains_bindValue d.name fun T hk => hk.2.scheme).bind fun _ => .pure fun _ _ => trivial

theorem contains_forInit (init : Option ForInit) :
    Contains B p.inScope p.inScope known Anything (forInit init) := by
  unfold forInit
  split
  · exact .pure fun _ _ => trivial
  · exact (contains_infer _).bind fun _ => .pure fun _ _ => trivial
  · exact (contains_letDecl _).bind fun _ => .pure fun _ _ => trivial

/-! ## Statements and declarations -/

mutual

/-- **Checking a statement** leaves the scope it stands in alone. -/
theorem contains_stmt : (s : Stmt) → ∀ {B : Base} {p : Position} {known : Table → Prop} {t : Ty},
    (∀ T, known T → B.Live T t) → Contains B p p known Anything (stmt t s)
  | .empty span, B, p, known, t, ht => by
    rw [stmt]
    exact (contains_unify span ht fun _ _ => Table.Remains.name _).bind fun _ => .pure fun _ _ => trivial
  | .block body span, B, p, known, t, ht => by
    rw [stmt]
    refine (contains_inBlock ht fun ht => contains_decls body ht).bind fun _ => ?_
    exact .pure fun _ _ => trivial
  | .ret value span, B, p, known, t, ht => by
    rw [stmt]
    refine Contains.get.bind fun s => ?_
    split
    · exact .fail _ _
    · next u hu =>
      have hlive : ∀ T, (known T ∧ ∀ t ∈ s.returns, B.Live T t) → B.Live T u := fun T hk =>
        hk.2 u (List.mem_of_mem_head? hu)
      split
      · exact (contains_check _ hlive).bind fun e => .pure fun _ _ => trivial
      · exact (contains_unify span hlive fun _ _ => Table.Remains.name _).bind fun _ =>
          .pure fun _ _ => trivial
  | .cond c s none span, B, p, known, t, ht => by
    rw [stmt]
    refine (contains_condition c).bind fun c' => (contains_freshVar "").bind fun u => ?_
    refine (contains_stmt s fun T hk => hk.2).bind fun s' => ?_
    refine (contains_unify span (fun T hk => ht T hk.1.1.1) fun _ _ => Table.Remains.name _).bind fun _ => ?_
    exact .pure fun _ _ => trivial
  | .cond c s (some alternate) span, B, p, known, t, ht => by
    rw [stmt]
    refine (contains_condition c).bind fun c' => (contains_stmt s fun T hk => ht T hk.1).bind fun s' => ?_
    exact (contains_stmt alternate fun T hk => ht T hk.1.1).bind fun a' => .pure fun _ _ => trivial
  | .whileLoop c body span, B, p, known, t, ht => by
    rw [stmt]
    refine (contains_condition c).bind fun c' => (contains_setLoopDepth _).bind fun _ => ?_
    refine (contains_freshVar "").bind fun u => (contains_stmt body fun T hk => hk.2).bind fun body' => ?_
    refine (contains_setLoopDepth _).bind fun _ => ?_
    exact contains_unless (fun T hk => ht T hk.1.1.1.1.1) fun _ _ => Table.Remains.name _
  | .forLoop init c increment body span, B, p, known, t, ht => by
    rw [stmt]
    refine contains_pushScope.bind fun _ => (contains_forInit init).bind fun init' => ?_
    refine (contains_mapM (fun c => contains_condition c) c).bind fun c' => ?_
    refine (contains_mapM (fun e => (contains_infer e).map fun _ _ _ _ => trivial) increment).bind
      fun i' => ?_
    refine (contains_setLoopDepth _).bind fun _ => (contains_freshVar "").bind fun u => ?_
    refine (contains_stmt body fun T hk => hk.2).bind fun body' => (contains_setLoopDepth _).bind fun _ => ?_
    refine contains_popScope.bind fun _ => ?_
    exact contains_unless (fun T hk => ht T hk.1.1.1.1.1.1.1.1.1) fun _ _ => Table.Remains.name _
  | .breakLoop span, B, p, known, t, ht => by
    rw [stmt]
    exact (contains_jump "break" span).bind fun _ => .pure fun _ _ => trivial
  | .continueLoop span, B, p, known, t, ht => by
    rw [stmt]
    exact (contains_jump "continue" span).bind fun _ => .pure fun _ _ => trivial
  | .cases scrutinee cs none span, B, p, known, t, ht => by
    rw [stmt]
    refine (contains_infer scrutinee).bind fun r => ?_
    refine (contains_matchCases cs (fun T hk => ht T hk.1) fun T hk => hk.2).bind fun cs' => ?_
    exact .pure fun _ _ => trivial
  | .cases scrutinee cs (some default) span, B, p, known, t, ht => by
    rw [stmt]
    refine (contains_infer scrutinee).bind fun r => ?_
    refine (contains_matchCases cs (fun T hk => ht T hk.1) fun T hk => hk.2).bind fun cs' => ?_
    exact (contains_stmt default fun T hk => ht T hk.1.1).bind fun s' => .pure fun _ _ => trivial
  | .expr e, B, p, known, t, ht => by
    rw [stmt]
    exact (contains_check e ht).bind fun e' => .pure fun _ _ => trivial

theorem contains_matchCases : (cs : List (Pattern × Stmt)) → ∀ {B : Base} {p : Position}
    {known : Table → Prop} {t scrutinee : Ty} {done : List (Pattern × Stmt)},
    (∀ T, known T → B.Live T t) → (∀ T, known T → B.Live T scrutinee) →
    Contains B p p known Anything (matchCases t scrutinee done cs)
  | [], B, p, known, t, scrutinee, done, _, _ => by
    rw [matchCases]
    exact .pure fun _ _ => trivial
  | (pat, s) :: cs, B, p, known, t, scrutinee, done, ht, hs => by
    rw [matchCases]
    refine contains_pushScope.bind fun _ => (contains_pattern pat fun T hk => hs T hk.1).bind fun _ => ?_
    refine (contains_stmt s fun T hk => ht T hk.1.1).bind fun s' => contains_popScope.bind fun _ => ?_
    exact contains_matchCases cs (fun T hk => ht T hk.1.1.1.1) fun T hk => hs T hk.1.1.1.1

theorem contains_decls : (ds : List Decl) → ∀ {B : Base} {p : Position} {known : Table → Prop} {t : Ty}
    {done : List Decl}, (∀ T, known T → B.Live T t) →
    Contains B p.inScope p.inScope known Anything (decls t done ds)
  | [], B, p, known, t, done, _ => by
    rw [decls]
    exact .pure fun _ _ => trivial
  | d :: ds, B, p, known, t, done, ht => by
    rw [decls]
    refine (contains_completion ds ht).bind fun u => (contains_decl d fun T hk => hk.2).bind fun d' => ?_
    exact contains_decls ds fun T hk => ht T hk.1.1

/-- **Checking a declaration** inside a scope above the base. -/
theorem contains_decl : (d : Decl) → ∀ {B : Base} {p : Position} {known : Table → Prop} {t : Ty},
    (∀ T, known T → B.Live T t) → Contains B p.inScope p.inScope known Anything (decl t d)
  | .letDecl d, B, p, known, t, ht => by
    rw [decl]
    refine (contains_letDecl d).bind fun d' => ?_
    refine (contains_unify _ (fun T hk => ht T hk.1) fun _ _ => Table.Remains.name _).bind fun _ => ?_
    exact .pure fun _ _ => trivial
  | .fn head body, B, p, known, t, ht => by
    rw [decl]
    refine (contains_function fun u hu => contains_inBlock hu fun hu => contains_decls body hu).bind
      fun r => ?_
    refine (contains_unify _ (fun T hk => ht T hk.1) fun _ _ => Table.Remains.name _).bind fun _ => ?_
    exact .pure fun _ _ => trivial
  | .stmt s, B, p, known, t, ht => by
    rw [decl]
    exact (contains_stmt s ht).bind fun _ => .pure fun _ _ => trivial

end

end Check

end Reified
