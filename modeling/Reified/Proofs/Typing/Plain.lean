import Reified.Proofs.Typing.Actions
import Reified.Typing.Program

/-!
# Checked programs without inferred parameters

A program in which no function has inferred parameters is checked with explicit types only. So its
calls have no inferred arguments, its functions get signatures without inferred parameters, and its
type expressions, in which a type parameter would have no value at run time, use well-known names
only: the accepted declarations are plain.

## Main definitions

* `Stmt.Explicit`, `Decl.Explicit` — no function has inferred parameters

## Main results

* `Check.ensures_typing`, `Check.ensures_stmt`, `Check.ensures_decl` — what checking makes is plain
-/

namespace Reified

/-! ## Programs without inferred parameters -/

/-- The function has no inferred parameters. -/
def FnHead.Explicit (head : FnHead) : Prop := ∀ p ∈ head.params, p.inferred = false

mutual

/-- No function in the statement has inferred parameters. -/
def Stmt.Explicit : Stmt → Prop
  | .empty _ | .breakLoop _ | .continueLoop _ | .ret .. | .expr _ => True
  | .block body _ => Decl.ExplicitList body
  | .cond _ s none _ => s.Explicit
  | .cond _ s (some t) _ => s.Explicit ∧ t.Explicit
  | .whileLoop _ body _ => body.Explicit
  | .forLoop _ _ _ body _ => body.Explicit
  | .cases _ cs none _ => Stmt.ExplicitCases cs
  | .cases _ cs (some s) _ => Stmt.ExplicitCases cs ∧ s.Explicit

/-- `Stmt.Explicit` for the statement of each case. -/
def Stmt.ExplicitCases : List (Pattern × Stmt) → Prop
  | [] => True
  | (_, s) :: cs => s.Explicit ∧ Stmt.ExplicitCases cs

/-- No function in the declaration has inferred parameters. -/
def Decl.Explicit : Decl → Prop
  | .letDecl _ => True
  | .fn head body => head.Explicit ∧ Decl.ExplicitList body
  | .stmt s => s.Explicit

/-- `Decl.Explicit` for each declaration of a list. -/
def Decl.ExplicitList : List Decl → Prop
  | [] => True
  | d :: ds => d.Explicit ∧ Decl.ExplicitList ds

end

/-! ## Types of functions -/

theorem Ty.length_replaceListM {S : Type} (rule : TyVar → StateM S Ty) :
    ∀ (ts : List Ty) (s : S), (Ty.replaceListM rule ts s).1.length = ts.length
  | [], _ => rfl
  | _ :: ts, _ => congrArg Nat.succ (Ty.length_replaceListM rule ts _)

/-- The deep type of a function is the type of a function with as many parameters. -/
theorem Table.resolveDeep_fn (T : Table) (params : List Ty) (result : Ty) (implicit : Nat) :
    ∃ types result', (T.resolveDeep (.fn params result implicit)).1 = .fn types result' implicit ∧
      types.length = params.length :=
  ⟨_, _, rfl, Ty.length_replaceListM _ params T⟩

namespace Check

open Checker (Explicit)

/-! ## Expressions -/

/-- What the check of an expression answers: an explicit type and a plain expression. -/
def Typed (r : Ty × Expr) : Prop := r.1.Explicit ∧ r.2.Plain

/-- The expected type is explicit, if there is one. -/
def Expected (expected : Option Ty) : Prop := ∀ t ∈ expected, t.Explicit

theorem Expected.none : Expected none := by
  rintro _ ⟨⟩

theorem Expected.some {t : Ty} (h : t.Explicit) : Expected (some t) := by
  rintro _ ⟨⟩
  exact h

variable {expected : Option Ty}

theorem ensures_expectedForm (h : Expected expected) :
    Ensures Explicit Expected (expectedForm expected) := by
  cases expected with
  | none => exact .pure .none
  | some t =>
    refine (ensures_resolve (h t rfl)).map fun u hu v hv => ?_
    cases hv
    exact hu

theorem plain_annotate {e : Expr} (h : e.Plain) (t : Ty) : (e.annotate t).Plain := by
  cases e <;> exact h

theorem ensures_conclude (h : Expected expected) {t : Ty} (ht : t.Explicit) {e : Expr}
    (he : e.Plain) : Ensures Explicit Typed (conclude expected t e) := by
  unfold conclude
  cases expected with
  | none => exact .pure ⟨ht, plain_annotate he t⟩
  | some u =>
    exact .bind (ensures_unify (h u rfl) ht _) fun _ _ => .pure ⟨ht, plain_annotate he t⟩

theorem ensures_fieldType {object : Ty} (h : object.Explicit) (field : String) (span : Span) :
    Ensures Explicit Ty.Explicit (fieldType object field span) := by
  refine (ensures_resolve h).bind fun t ht => ?_
  split
  · next fs =>
    split
    · next u hu => exact .pure ((Ty.Part.record (Fields.mem_of_get?_eq_some hu)).explicit ht)
    · exact (ensures_resolveDeep h).bind fun _ _ => .fail _ _
  · exact ensures_freshVar field
  · exact ensures_freshVar field
  · exact (ensures_resolveDeep ht).bind fun _ _ => .fail _ _

theorem ensures_instantiateImplicit (params : List Ty) (result : Ty) (span : Span) :
    Ensures Explicit (fun r => r = (params, result, [])) (instantiateImplicit params result 0 span) := by
  unfold instantiateImplicit
  exact .pure rfl

mutual

/-- Checking an expression gives an explicit type and a plain expression. -/
theorem ensures_typing : (e : Expr) → ∀ {expected : Option Ty}, Expected expected →
    Ensures Explicit Typed (typing expected e)
  | .ident n x, expected, h => by
    rw [typing]
    refine .bind (ensures_expectedForm h) fun _ _ => ?_
    exact .bind (ensures_lookup x _) fun t ht => ensures_conclude h ht trivial
  | .literal n v, expected, h => by
    rw [typing]
    refine .bind (ensures_expectedForm h) fun _ _ => ?_
    exact ensures_conclude h (by cases v <;> trivial) trivial
  | .paren n inner, expected, h => by
    rw [typing]
    refine .bind (ensures_expectedForm h) fun _ _ => ?_
    refine .bind (ensures_typing inner h) fun r hr => .pure ⟨?_, hr.2⟩
    cases expected with
    | none => exact hr.1
    | some t => exact h t rfl
  | .binary n op l r, expected, h => by
    have hexpect : ∀ {t u v : Ty}, t.Explicit → u.Explicit → v.Explicit →
        Ensures Explicit Typed (do
          let (_, l) ← typing (some t) l
          let (_, r) ← typing (some u) r
          conclude expected v (.binary n op l r)) := fun ht hu hv =>
      .bind (ensures_typing l (.some ht)) fun _ hl =>
        .bind (ensures_typing r (.some hu)) fun _ hr => ensures_conclude h hv ⟨hl.2, hr.2⟩
    rw [typing]
    refine .bind (ensures_expectedForm h) fun _ _ => ?_
    dsimp only
    split
    · exact hexpect trivial trivial trivial
    · exact hexpect trivial trivial trivial
    · refine .bind (ensures_typing l .none) fun l' hl => ?_
      refine .bind (ensures_typing r (.some hl.1)) fun r' hr => ?_
      exact ensures_conclude h (t := .bool) trivial ⟨hl.2, hr.2⟩
    · refine .bind (ensures_lookup _ _) fun t ht => .bind (ensures_resolve ht) fun u hu => ?_
      split
      · exact hexpect ((Ty.Part.param (by simp)).explicit hu)
          ((Ty.Part.param (by simp)).explicit hu) (Ty.Part.result.explicit hu)
      · exact .fail _ _
  | .object n fs, expected, h => by
    have hinfer : Ensures Explicit Typed (do
        let (ts, fs) ← typingFields [] [] [] fs
        conclude expected (.record ts) (.object n fs)) :=
      .bind (ensures_typingFields fs nofun nofun nofun) fun _ hr =>
        ensures_conclude h (t := .record _) ((Ty.explicitFields_iff _).mpr hr.1) hr.2
    rw [typing]
    refine .bind (ensures_expectedForm h) fun form hform => ?_
    dsimp only
    split
    · next t ts =>
      split
      · refine .bind (ensures_typingFields fs (fun t ht => ?_) nofun nofun) fun r hr =>
          .pure ⟨h t rfl, hr.2⟩
        obtain ⟨f, hf, rfl⟩ := List.mem_map.mp ht
        exact (Ty.Part.record hf).explicit (hform _ rfl)
      · exact hinfer
    · exact hinfer
  | .array n es, expected, h => by
    rw [typing]
    refine .bind (ensures_expectedForm h) fun form hform => ?_
    dsimp only
    split
    · next t item =>
      refine .bind (ensures_typingList es (fun u hu => ?_) nofun nofun) fun r hr =>
        .pure ⟨h t rfl, hr.2⟩
      rw [List.eq_of_mem_replicate hu]
      exact Ty.Part.array.explicit (hform (.array item) rfl)
    · split
      · exact .bind (ensures_freshVar "") fun t ht =>
          ensures_conclude h (t := .array t) ht (e := .array n []) trivial
      · next first rest =>
        refine .bind (ensures_typing first .none) fun f hf => ?_
        refine .bind (ensures_typingList rest (fun u hu => ?_) nofun nofun) fun r hr =>
          ensures_conclude h (t := .array _) hf.1 (e := .array n (_ :: _)) ⟨hf.2, hr.2⟩
        rw [List.eq_of_mem_replicate hu]
        exact hf.1
  | .tuple n es, expected, h => by
    have hinfer : Ensures Explicit Typed (do
        let (ts, es) ← typingList [] [] [] es
        conclude expected (.tuple ts) (.tuple n es)) :=
      .bind (ensures_typingList es nofun nofun nofun) fun _ hr =>
        ensures_conclude h (t := .tuple _) ((Ty.explicitList_iff _).mpr hr.1) hr.2
    rw [typing]
    refine .bind (ensures_expectedForm h) fun form hform => ?_
    dsimp only
    split
    · next t ts =>
      split
      · exact .bind (ensures_typingList es (fun u hu => (Ty.Part.tuple hu).explicit (hform _ rfl))
          nofun nofun) fun r hr => .pure ⟨h t rfl, hr.2⟩
      · exact hinfer
    · exact hinfer
  | .call n callee args implicit, expected, h => by
    rw [typing]
    refine .bind (ensures_expectedForm h) fun _ _ => ?_
    refine .bind (ensures_typing callee .none) fun f hf => ?_
    refine .bind (ensures_resolve hf.1) fun t ht => ?_
    dsimp only
    split
    · next params result implicit =>
      obtain rfl : implicit = 0 := ht.2.2
      split
      · exact .fail _ _
      · refine .bind (ensures_instantiateImplicit params result _) fun r hr => ?_
        subst hr
        refine .bind (ensures_typingList args (fun u hu => ?_) nofun nofun) fun r hr =>
          ensures_conclude h ht.2.1 ⟨hf.2, hr.2, rfl⟩
        exact (Ty.Part.param (List.mem_of_mem_drop hu)).explicit ht
    · refine .bind (ensures_typingList args nofun nofun nofun) fun r hr => ?_
      exact .bind (ensures_freshVar "") fun u hu => ensures_conclude h hu ⟨hf.2, hr.2, rfl⟩
    · exact .bind (ensures_resolveDeep ht) fun _ _ => .fail _ _
  | .subscript n target index, expected, h => by
    rw [typing]
    refine .bind (ensures_expectedForm h) fun _ _ => ?_
    refine .bind (ensures_typing target .none) fun o ho => ?_
    refine .bind (ensures_resolve ho.1) fun t ht => ?_
    dsimp only
    split
    · refine .bind (ensures_typing index (.some trivial)) fun i hi => ?_
      exact ensures_conclude h (Ty.Part.array.explicit ht) ⟨ho.2, hi.2⟩
    · refine .bind (ensures_resolveDeep ho.1) fun _ _ => ?_
      split
      · exact .fail _ _
      · split
        · exact .fail _ _
        · next item hitem =>
          refine .bind (ensures_typing index .none) fun i hi => ?_
          exact ensures_conclude h ((Ty.Part.tuple (List.mem_of_getElem? hitem)).explicit ht)
            ⟨ho.2, hi.2⟩
    · refine .bind (ensures_typing index .none) fun i hi => ?_
      exact .bind (ensures_freshVar "") fun u hu => ensures_conclude h hu ⟨ho.2, hi.2⟩
    · refine .bind (ensures_freshVar "") fun _ _ => ?_
      exact .bind (ensures_resolveDeep ht) fun _ _ => .fail _ _
  | .member n object field, expected, h => by
    rw [typing]
    refine .bind (ensures_expectedForm h) fun _ _ => ?_
    refine .bind (ensures_typing object .none) fun o ho => ?_
    exact .bind (ensures_fieldType ho.1 field _) fun t ht => ensures_conclude h ht ho.2
  | .type n t, expected, h => by
    rw [typing]
    refine .bind (ensures_expectedForm h) fun _ _ => ?_
    exact .bind (ensures_typeValue t _) fun _ ht => ensures_conclude h (t := .type) trivial ht

/-- `ensures_typing` for the expressions of a list. -/
theorem ensures_typingList : (es : List Expr) → ∀ {expected found : List Ty} {done : List Expr},
    (∀ t ∈ expected, t.Explicit) → (∀ t ∈ found, t.Explicit) → (∀ e ∈ done, e.Plain) →
    Ensures Explicit (fun r => (∀ t ∈ r.1, t.Explicit) ∧ Expr.PlainList r.2)
      (typingList expected found done es)
  | [], expected, found, done, _, hfound, hdone => by
    rw [typingList]
    exact .pure ⟨by simpa using hfound, Expr.plainList_iff.mpr (by simpa using hdone)⟩
  | e :: es, expected, found, done, h, hfound, hdone => by
    rw [typingList]
    refine .bind (ensures_typing e fun t ht => h t (List.mem_of_head? ht)) fun r hr => ?_
    exact ensures_typingList es (fun t ht => h t (List.mem_of_mem_tail ht))
      (List.forall_mem_cons.mpr ⟨hr.1, hfound⟩) (List.forall_mem_cons.mpr ⟨hr.2, hdone⟩)

/-- `ensures_typing` for the expressions of some fields. -/
theorem ensures_typingFields : (fs : List (String × Expr)) → ∀ {expected : List Ty}
    {found : List (String × Ty)} {done : List (String × Expr)}, (∀ t ∈ expected, t.Explicit) →
    (∀ f ∈ found, f.2.Explicit) → (∀ f ∈ done, f.2.Plain) →
    Ensures Explicit (fun r => (∀ f ∈ r.1, f.2.Explicit) ∧ Expr.PlainFields r.2)
      (typingFields expected found done fs)
  | [], expected, found, done, _, hfound, hdone => by
    rw [typingFields]
    refine .pure ⟨fun f hf => hfound f (List.mem_reverse.mp hf), ?_⟩
    exact Expr.plainFields_iff.mpr fun f hf => hdone f (List.mem_reverse.mp hf)
  | (name, e) :: fs, expected, found, done, h, hfound, hdone => by
    rw [typingFields]
    refine .bind (ensures_typing e fun t ht => h t (List.mem_of_head? ht)) fun r hr => ?_
    exact ensures_typingFields fs (fun t ht => h t (List.mem_of_mem_tail ht))
      (List.forall_mem_cons.mpr ⟨hr.1, hfound⟩) (List.forall_mem_cons.mpr ⟨hr.2, hdone⟩)

end

theorem ensures_infer (e : Expr) : Ensures Explicit Typed (infer e) :=
  ensures_typing e .none

theorem ensures_check (e : Expr) {t : Ty} (ht : t.Explicit) : Ensures Explicit Expr.Plain (check e t) :=
  (ensures_typing e (.some ht)).map fun _ hr => hr.2

/-! ## Functions -/

theorem ensures_hoist (ds : List Decl) : Ensures Explicit (fun _ => True) (hoist ds) := by
  induction ds with
  | nil => exact .pure trivial
  | cons d ds ih =>
    cases d with
    | fn head body =>
      rw [hoist]
      refine .bind (ensures_freshVar head.name) fun t ht => ?_
      exact .bind (ensures_bindValue head.name ht) fun _ _ => ih
    | letDecl d => rw [hoist_letDecl]; exact ih
    | stmt s => rw [hoist_stmt]; exact ih

theorem ensures_bindTypeParams : (names : List String) →
    Ensures Explicit (fun _ => True) (bindTypeParams names)
  | [] => .pure trivial
  | name :: names => by
    refine .bind (ensures_newVar name false true) fun t ht => ?_
    obtain ⟨v, rfl, hv⟩ := ht
    exact .bind (ensures_bindType name hv) fun _ _ => ensures_bindTypeParams names

theorem ensures_optionalType (name : String) (t : Option TypeExpr) :
    Ensures Explicit Ty.Explicit (optionalType name t) := by
  cases t with
  | none => exact ensures_freshVar name
  | some t => exact ensures_typeExpr t

/-- Without inferred parameters, there is one explicit type for each parameter. -/
theorem ensures_paramTypes : (ps : List Param) → (∀ p ∈ ps, p.inferred = false) →
    ∀ {done : List Ty} (implicit : Nat), (∀ t ∈ done, t.Explicit) →
    Ensures Explicit (fun r => (∀ t ∈ r.1, t.Explicit) ∧ r.1.length = done.length + ps.length ∧
      r.2 = implicit) (paramTypes done implicit ps)
  | [], _, done, implicit, hdone => by
    rw [paramTypes]
    exact .pure ⟨by simpa using hdone, by simp, rfl⟩
  | p :: ps, hps, done, implicit, hdone => by
    obtain ⟨hp, hps⟩ := List.forall_mem_cons.mp hps
    rw [paramTypes]
    simp only [hp, Bool.false_eq_true, if_false]
    refine .bind (ensures_optionalType p.name p.annotation) fun t ht => ?_
    refine (ensures_paramTypes ps hps implicit (List.forall_mem_cons.mpr ⟨ht, hdone⟩)).mono
      fun r hr => ⟨hr.1, ?_, hr.2.2⟩
    rw [hr.2.1, List.length_cons, List.length_cons]
    omega

theorem ensures_bindParams : (ps : List Param) → ∀ {ts : List Ty}, (∀ t ∈ ts, t.Explicit) →
    Ensures Explicit (fun _ => True) (bindParams ps ts)
  | [], _, _ => .pure trivial
  | _ :: _, [], _ => .pure trivial
  | p :: ps, t :: ts, hts => by
    obtain ⟨ht, hts⟩ := List.forall_mem_cons.mp hts
    rw [bindParams]
    refine .bind (ensures_bindValue p.name ?_) fun _ _ => ensures_bindParams ps hts
    split
    · trivial
    · exact ht

theorem ensures_enterBody {t : Ty} (ht : t.Explicit) :
    Ensures Explicit (fun _ => True) (enterBody t) :=
  fun _ hs => ⟨⟨hs.table, hs.scope, List.forall_mem_cons.mpr ⟨ht, hs.returns⟩⟩, trivial⟩

theorem ensures_leaveBody (loopDepth : Nat) :
    Ensures Explicit (fun _ => True) (leaveBody loopDepth) :=
  fun _ hs => ⟨⟨hs.table, hs.scope, fun t ht => hs.returns t (List.mem_of_mem_tail ht)⟩, trivial⟩

/-- The representative of the type of a function is the type of a function of as many parameters. -/
theorem ensures_resolveDeep_fn {params : List Ty} {result : Ty}
    (h : (Ty.fn params result 0).Explicit) :
    Ensures Explicit (fun t => ∃ types result', t = .fn types result' 0 ∧
      types.length = params.length ∧ t.Explicit) (resolveDeep (.fn params result 0)) := by
  intro s hs
  have hdeep := ensures_resolveDeep h s hs
  obtain ⟨types, result', heq, hlength⟩ := Table.resolveDeep_fn s.table params result 0
  exact ⟨hdeep.1, types, result', heq, hlength, hdeep.2⟩

/-- What the check of a function answers. -/
def Signed (r : FnHead × List Decl) : Prop := r.1.Plain ∧ Decl.PlainList r.2

theorem ensures_function {head : FnHead} (hhead : head.Explicit) {body : Ty → Check (List Decl)}
    (hbody : ∀ t, t.Explicit → Ensures Explicit Decl.PlainList (body t)) :
    Ensures Explicit Signed (function head body) := by
  unfold function
  refine .bind ensures_pushFrame fun _ _ => .bind ensures_pushScope fun _ _ => ?_
  refine .bind (ensures_bindTypeParams head.typeParams) fun _ _ => ?_
  refine .bind (ensures_paramTypes head.params hhead 0 nofun) fun r hr => ?_
  obtain ⟨params, implicit⟩ := r
  obtain ⟨hparams, hlength, rfl⟩ := hr
  refine .bind (ensures_optionalType "" head.result) fun result hresult => ?_
  have hsignature : (Ty.fn params result 0).Explicit :=
    ⟨(Ty.explicitList_iff _).mpr hparams, hresult, rfl⟩
  refine .bind (ensures_bindValue head.name hsignature) fun _ _ => ?_
  refine .bind (ensures_bindParams head.params hparams) fun _ _ => ?_
  refine .bind (ensures_enterBody hresult) fun loopDepth _ => ?_
  refine .bind (hbody result hresult) fun body' hbody' => ?_
  refine .bind (ensures_leaveBody loopDepth) fun _ _ => ?_
  refine .bind ensures_popScope fun _ _ => .bind ensures_popFrame fun _ _ => ?_
  refine .bind (ensures_resolveDeep_fn hsignature) fun signature hsigned => ?_
  obtain ⟨types, result', rfl, htypes, hexplicit⟩ := hsigned
  refine .bind (ensures_bindValue head.name hexplicit) fun _ _ => .pure ⟨⟨?_, hhead⟩, hbody'⟩
  refine ⟨types, result', rfl, htypes.trans (hlength.trans ?_)⟩
  rw [List.length_nil, Nat.zero_add]

/-! ## Patterns -/

theorem explicit_literal (v : Literal) : v.ty.Explicit := by
  cases v <;> trivial

mutual

theorem ensures_pattern : (p : Pattern) → ∀ {t : Ty}, t.Explicit →
    Ensures Explicit (fun _ => True) (pattern t p)
  | .ident name _, t, ht => by
    rw [pattern]
    exact ensures_bindValue name ht
  | .any _, t, ht => by
    rw [pattern]
    exact .pure trivial
  | .literal v span, t, ht => by
    rw [pattern]
    exact ensures_unify ht (explicit_literal v) span
  | .object entries span, t, ht => by
    rw [pattern]
    refine .bind (ensures_resolve ht) fun u hu => ?_
    split
    · exact ensures_entryPatterns entries span ht hu
    · exact ensures_freshPatterns entries
    · exact ensures_freshPatterns entries
    · exact .bind (ensures_resolveDeep hu) fun _ _ => .fail _ _

theorem ensures_entryPatterns : (entries : List (String × Pattern)) → ∀ {t : Ty}
    {fs : List (String × Ty)} (span : Span), t.Explicit → (Ty.record fs).Explicit →
    Ensures Explicit (fun _ => True) (entryPatterns t fs span entries)
  | [], t, fs, span, _, _ => by
    rw [entryPatterns]
    exact .pure trivial
  | (name, p) :: entries, t, fs, span, ht, hfs => by
    rw [entryPatterns]
    split
    · exact .bind (ensures_resolveDeep ht) fun _ _ => .fail _ _
    · next u hu =>
      have hu' := (Ty.Part.record (Fields.mem_of_get?_eq_some hu)).explicit hfs
      exact .bind (ensures_pattern p hu') fun _ _ => ensures_entryPatterns entries span ht hfs

theorem ensures_freshPatterns : (entries : List (String × Pattern)) →
    Ensures Explicit (fun _ => True) (freshPatterns entries)
  | [] => by
    rw [freshPatterns]
    exact .pure trivial
  | (name, p) :: entries => by
    rw [freshPatterns]
    refine .bind (ensures_freshVar name) fun t ht => ?_
    exact .bind (ensures_pattern p ht) fun _ _ => ensures_freshPatterns entries

end

/-! ## Statements and declarations -/

theorem ensures_letDecl (d : LetDecl) :
    Ensures Explicit (fun d' : LetDecl => d'.init.Plain) (letDecl d) := by
  unfold letDecl
  split
  · next a _ =>
    refine .bind (ensures_typeExpr a) fun t ht => .bind (ensures_check d.init ht) fun e he => ?_
    exact .bind (ensures_bindValue d.name ht) fun _ _ => .pure he
  · refine .bind (ensures_infer d.init) fun r hr => ?_
    exact .bind (ensures_bindValue d.name hr.1) fun _ _ => .pure hr.2

theorem ensures_forInit (init : Option ForInit) :
    Ensures Explicit (fun init' : Option ForInit => ∀ i ∈ init', i.Plain) (forInit init) := by
  unfold forInit
  split
  · exact .pure nofun
  · next e => exact .bind (ensures_infer e) fun r hr => .pure (by rintro _ ⟨⟩; exact hr.2)
  · next d => exact .bind (ensures_letDecl d) fun d' hd => .pure (by rintro _ ⟨⟩; exact hd)

theorem ensures_jump (keyword : String) (span : Span) :
    Ensures Explicit (fun _ => True) (jump keyword span) := by
  unfold jump
  refine .bind .get fun s _ => ?_
  split
  · exact .fail _ _
  · exact .pure trivial

theorem ensures_setLoopDepth (f : Nat → Nat) :
    Ensures Explicit (fun _ => True) (setLoopDepth f) :=
  fun _ hs => ⟨⟨hs.table, hs.scope, hs.returns⟩, trivial⟩

theorem ensures_condition (e : Expr) : Ensures Explicit Expr.Plain (condition e) :=
  ensures_check e trivial

theorem ensures_plainOption {f : Expr → Check Expr} (hf : ∀ e, Ensures Explicit Expr.Plain (f e))
    {e : Option Expr} : Ensures Explicit Expr.PlainOption (e.mapM f) := by
  cases e with
  | none => exact .pure trivial
  | some e => exact (hf e).map fun _ he => he

theorem ensures_unify_void {t : Ty} (ht : t.Explicit) (span : Span) :
    Ensures Explicit (fun _ => True) (unify t .void span) :=
  ensures_unify ht (u := .void) trivial span

theorem ensures_inBlock {t : Ty} (ht : t.Explicit) (body : List Decl) (span : Span)
    {declarations : Check (List Decl)}
    (hdecls : Ensures Explicit Decl.PlainList declarations) :
    Ensures Explicit Decl.PlainList (inBlock t body span declarations) := by
  unfold inBlock
  refine .bind ensures_pushScope fun _ _ => .bind (ensures_hoist body) fun _ _ => ?_
  have hrest : Ensures Explicit Decl.PlainList (do
      let body ← declarations
      popScope
      return body) :=
    .bind hdecls fun _ hbody => .bind ensures_popScope fun _ _ => .pure hbody
  split
  · exact .bind (ensures_unify_void ht span) fun _ _ => hrest
  · exact hrest

theorem ensures_completion {t : Ty} (ht : t.Explicit) (rest : List Decl) :
    Ensures Explicit Ty.Explicit (completion t rest) := by
  unfold completion
  split
  · exact .pure ht
  · exact ensures_freshVar ""

mutual

/-- Checking a statement without inferred parameters gives a plain one. -/
theorem ensures_stmt : (s : Stmt) → s.Explicit → ∀ {t : Ty}, t.Explicit →
    Ensures Explicit Stmt.Plain (stmt t s)
  | .empty span, _, t, ht => by
    rw [stmt]
    exact .bind (ensures_unify_void ht span) fun _ _ => .pure trivial
  | .block body span, h, t, ht => by
    rw [stmt]
    refine .bind (ensures_inBlock ht body span (ensures_decls body h ht nofun)) fun _ hbody => ?_
    exact .pure hbody
  | .ret value span, _, t, _ => by
    rw [stmt]
    refine .bind .get fun s hs => ?_
    split
    · exact .fail _ _
    · next u hu =>
      have hu' := hs.returns u (List.mem_of_head? hu)
      split
      · next e _ => exact .bind (ensures_check e hu') fun _ he => .pure he
      · exact .bind (ensures_unify_void hu' span) fun _ _ => .pure trivial
  | .cond c s none span, h, t, ht => by
    rw [stmt]
    refine .bind (ensures_condition c) fun _ hc => .bind (ensures_freshVar "") fun u hu => ?_
    refine .bind (ensures_stmt s h hu) fun _ hs => ?_
    exact .bind (ensures_unify_void ht span) fun _ _ => .pure ⟨hc, hs⟩
  | .cond c s (some alternate) span, h, t, ht => by
    rw [stmt]
    refine .bind (ensures_condition c) fun _ hc => .bind (ensures_stmt s h.1 ht) fun _ hs => ?_
    exact .bind (ensures_stmt alternate h.2 ht) fun _ ha => .pure ⟨hc, hs, ha⟩
  | .whileLoop c body span, h, t, ht => by
    rw [stmt]
    refine .bind (ensures_condition c) fun _ hc => .bind (ensures_setLoopDepth _) fun _ _ => ?_
    refine .bind (ensures_freshVar "") fun u hu => .bind (ensures_stmt body h hu) fun _ hbody => ?_
    refine .bind (ensures_setLoopDepth _) fun _ _ => ?_
    split
    · exact .pure ⟨hc, hbody⟩
    · exact .bind (ensures_unify_void ht span) fun _ _ => .pure ⟨hc, hbody⟩
  | .forLoop init c increment body span, h, t, ht => by
    rw [stmt]
    refine .bind ensures_pushScope fun _ _ => .bind (ensures_forInit init) fun _ hinit => ?_
    refine .bind (ensures_plainOption ensures_condition) fun _ hc => ?_
    refine .bind (ensures_plainOption fun e => (ensures_infer e).map fun _ hr => hr.2) fun _ hi => ?_
    refine .bind (ensures_setLoopDepth _) fun _ _ => .bind (ensures_freshVar "") fun u hu => ?_
    refine .bind (ensures_stmt body h hu) fun _ hbody => .bind (ensures_setLoopDepth _) fun _ _ => ?_
    refine .bind ensures_popScope fun _ _ => ?_
    split
    · exact .pure ⟨hinit, hc, hi, hbody⟩
    · exact .bind (ensures_unify_void ht span) fun _ _ => .pure ⟨hinit, hc, hi, hbody⟩
  | .breakLoop span, _, t, _ => by
    rw [stmt]
    exact .bind (ensures_jump "break" span) fun _ _ => .pure trivial
  | .continueLoop span, _, t, _ => by
    rw [stmt]
    exact .bind (ensures_jump "continue" span) fun _ _ => .pure trivial
  | .cases scrutinee cs none span, h, t, ht => by
    rw [stmt]
    refine .bind (ensures_infer scrutinee) fun r hr => ?_
    exact .bind (ensures_matchCases cs h ht hr.1 nofun) fun _ hcs => .pure ⟨hr.2, hcs⟩
  | .cases scrutinee cs (some default) span, h, t, ht => by
    rw [stmt]
    refine .bind (ensures_infer scrutinee) fun r hr => ?_
    refine .bind (ensures_matchCases cs h.1 ht hr.1 nofun) fun _ hcs => ?_
    exact .bind (ensures_stmt default h.2 ht) fun _ hs => .pure ⟨hr.2, hcs, hs⟩
  | .expr e, _, t, ht => by
    rw [stmt]
    exact .bind (ensures_check e ht) fun _ he => .pure he

/-- `ensures_stmt` for the statement of each case. -/
theorem ensures_matchCases : (cs : List (Pattern × Stmt)) → Stmt.ExplicitCases cs →
    ∀ {t scrutinee : Ty} {done : List (Pattern × Stmt)}, t.Explicit → scrutinee.Explicit →
    (∀ c ∈ done, c.2.Plain) → Ensures Explicit Stmt.PlainCases (matchCases t scrutinee done cs)
  | [], _, t, scrutinee, done, _, _, hdone => by
    rw [matchCases]
    exact .pure (Stmt.plainCases_iff.mpr fun c hc => hdone c (List.mem_reverse.mp hc))
  | (p, s) :: cs, h, t, scrutinee, done, ht, hs, hdone => by
    rw [matchCases]
    refine .bind ensures_pushScope fun _ _ => .bind (ensures_pattern p hs) fun _ _ => ?_
    refine .bind (ensures_stmt s h.1 ht) fun s' hs' => .bind ensures_popScope fun _ _ => ?_
    exact ensures_matchCases cs h.2 ht hs (List.forall_mem_cons.mpr ⟨hs', hdone⟩)

/-- `ensures_decl` for the declarations of a block. -/
theorem ensures_decls : (ds : List Decl) → Decl.ExplicitList ds → ∀ {t : Ty} {done : List Decl},
    t.Explicit → (∀ d ∈ done, d.Plain) → Ensures Explicit Decl.PlainList (decls t done ds)
  | [], _, t, done, _, hdone => by
    rw [decls]
    exact .pure (Decl.plainList_iff.mpr fun d hd => hdone d (List.mem_reverse.mp hd))
  | d :: ds, h, t, done, ht, hdone => by
    rw [decls]
    refine .bind (ensures_completion ht ds) fun u hu => .bind (ensures_decl d h.1 hu) fun d' hd => ?_
    exact ensures_decls ds h.2 ht (List.forall_mem_cons.mpr ⟨hd, hdone⟩)

/-- Checking a declaration without inferred parameters gives a plain one. -/
theorem ensures_decl : (d : Decl) → d.Explicit → ∀ {t : Ty}, t.Explicit →
    Ensures Explicit Decl.Plain (decl t d)
  | .letDecl d, _, t, ht => by
    rw [decl]
    refine .bind (ensures_letDecl d) fun d' hd => ?_
    exact .bind (ensures_unify_void ht d'.span) fun _ _ => .pure hd
  | .fn head body, h, t, ht => by
    rw [decl]
    refine .bind (ensures_function h.1 fun u hu => ?_) fun r hr => ?_
    · exact ensures_inBlock hu body head.bodySpan (ensures_decls body h.2 hu nofun)
    · exact .bind (ensures_unify_void ht r.1.span) fun _ _ => .pure hr
  | .stmt s, h, t, ht => by
    rw [decl]
    exact .bind (ensures_stmt s h ht) fun _ hs => .pure hs

end

end Check

end Reified
