import Reified.Proofs.Tree.Exprs
import Reified.Proofs.Typing.Learns

/-!
# Accesses that are typed directly

A field or an element of something whose type tells has the type that is found there. Checking decides
this with what the table says when it comes to the access. Since the table only learns, such an access
is still direct in view of any later table: the type that is recorded for it stands for the one found
in what the type of the accessed value stands for.

Of an access about which nothing was known nothing can be said. Where a policy refuses such accesses,
all accesses that are accepted are direct.

## Main definitions

* `Expr.DirectIn`, `Expr.Direct` — the recorded type of an access is the one found in what is accessed
* `Check.Refused` — the accesses that a policy is about are direct

## Main results

* `Check.learns_typing`, `Check.learns_decl` — accesses are direct in view of any later table
-/

namespace Reified

/-! ## Direct accesses -/

/-- In view of what types stand for, the recorded type of a member or element access is the type of
the field or element that is found in the recorded type of what is accessed, if one is found there. -/
def Expr.DirectIn (view : Ty → Ty) : Expr → Prop
  | .member n o x => ∀ fs u, o.ty?.map view = some (.record fs) → Fields.get? x fs = some u →
      n.ty.map view = some u
  | .subscript n t i => (∀ u, t.ty?.map view = some (.array u) → n.ty.map view = some u) ∧
      ∀ ts k u, t.ty?.map view = some (.tuple ts) → i.literalIndex? = some k → ts[k]? = some u →
        n.ty.map view = some u
  | _ => True

/-- The recorded type of a member or element access is the one found in the recorded type of what is
accessed. -/
def Expr.Direct (e : Expr) : Prop := e.DirectIn id

namespace Check

variable [Policy] {F : Table} {known : Prop}

/-- In view of what types stand for, the expression is direct if it is at a place at which accesses are
refused when nothing is known. -/
def Refused (view : Ty → Ty) (e : Expr) : Prop :=
  Policy.refuses e.span = true → e.DirectIn view

/-- What checking an expression answers: the type that it records, at the same place, in an expression
all of whose accesses are as they should be. -/
structure Records (F : Table) (e : Expr) (r : Ty × Expr) : Prop where
  ty : r.2.ty? = some r.1
  index : r.2.literalIndex? = e.literalIndex?
  direct : r.2.Everywhere (Refused F.deep)

/-- Recording a type in an expression that is not an access. -/
theorem learns_conclude {expected : Option Ty} {found : Ty} {e e' : Expr}
    (h : known → Records F e' (found, e.annotate found)) :
    Learns F known (Records F e') (conclude expected found e) := by
  unfold conclude
  split
  · exact (learns_unify _ _ _).bind fun _ => .pure fun hk => h hk.1
  · exact .pure h

/-- The type of a field is the one found in the type of the object, where something must be known. -/
theorem learns_fieldType (object : Ty) (field : String) (span : Span) :
    Learns F known (fun u => Policy.refuses span = true → ∀ fs v,
      F.deep object = .record fs → Fields.get? field fs = some v → F.deep u = v)
      (fieldType object field span) := by
  unfold fieldType
  refine (learns_resolve object).bind fun r => ?_
  split
  · next fs =>
    split
    · next t ht =>
      refine .pure fun hlearnt _ gs v hgs hv => ?_
      obtain ⟨-, hdeep⟩ := hlearnt
      rw [Table.deep_record, hgs, Ty.record.injEq] at hdeep
      rw [← hdeep, Fields.get?_map, ht] at hv
      exact Option.some.inj hv
    · exact (learns_resolveDeep object).bind fun _ => .fail _ _
  · exact (learns_hole field span).mono fun _ _ hfalse htrue => absurd (hfalse.symm.trans htrue) (by simp)
  · exact (learns_hole field span).mono fun _ _ hfalse htrue => absurd (hfalse.symm.trans htrue) (by simp)
  · exact (learns_resolveDeep _).bind fun _ => .fail _ _

mutual

/-- Checking an expression records types in view of which its accesses are as they should be. -/
theorem learns_typing : (e : Expr) → ∀ {F : Table} {known : Prop} {expected : Option Ty},
    Learns F known (Records F e) (typing expected e)
  | .ident n x, F, known, expected => by
    rw [typing]
    refine (learns_expectedForm expected).bind fun _ => (learns_lookup x n.span).bind fun t => ?_
    exact learns_conclude fun _ => ⟨rfl, rfl, fun _ => trivial⟩
  | .literal n v, F, known, expected => by
    rw [typing]
    refine (learns_expectedForm expected).bind fun _ => ?_
    exact learns_conclude fun _ => ⟨rfl, by cases v <;> rfl, fun _ => trivial⟩
  | .paren n inner, F, known, expected => by
    rw [typing]
    refine (learns_expectedForm expected).bind fun _ => (learns_typing inner).bind fun r => ?_
    exact .pure fun hk => ⟨rfl, rfl, fun _ => trivial, hk.2.direct⟩
  | .binary n op l r, F, known, expected => by
    have hend : ∀ {known l' r' t}, (known → Records F l l') → (known → Records F r r') →
        Learns F known (Records F (.binary n op l r))
          (conclude expected t (.binary n op l'.2 r'.2)) := fun hl hr =>
      learns_conclude fun hk => ⟨rfl, rfl, fun _ => trivial, (hl hk).direct, (hr hk).direct⟩
    have hboth : ∀ {known p} {q : Ty → Option Ty}, Learns F known (Records F (.binary n op l r)) (do
        let (t, l) ← typing p l
        let (_, r) ← typing (q t) r
        conclude expected .bool (.binary n op l r)) := fun {known p q} =>
      (learns_typing l).bind fun l' => (learns_typing r).bind fun r' =>
        hend (fun hk => hk.1.2) fun hk => hk.2
    rw [typing]
    refine (learns_expectedForm expected).bind fun _ => ?_
    dsimp only
    split
    · exact hboth (q := fun _ => some .bool)
    · exact hboth (q := fun _ => some .bool)
    · exact hboth (q := some)
    · refine (learns_lookup _ n.span).bind fun t => (learns_resolve t).bind fun u => ?_
      split
      · exact (learns_typing l).bind fun l' => (learns_typing r).bind fun r' =>
          hend (fun hk => hk.1.2) fun hk => hk.2
      · exact .fail _ _
  | .object n fs, F, known, expected => by
    have hinfer : ∀ {known}, Learns F known (Records F (.object n fs)) (do
        let (ts, fs) ← typingFields [] [] [] fs
        conclude expected (.record ts) (.object n fs)) := fun {known} =>
      (learns_typingFields fs (by simp)).bind fun r =>
        learns_conclude fun hk => ⟨rfl, rfl, fun _ => trivial, Expr.everywhereFields_iff.mpr hk.2⟩
    rw [typing]
    refine (learns_expectedForm expected).bind fun form => ?_
    dsimp only
    split
    · split
      · refine (learns_typingFields fs (by simp)).bind fun r => ?_
        exact .pure fun hk => ⟨rfl, rfl, fun _ => trivial, Expr.everywhereFields_iff.mpr hk.2⟩
      · exact hinfer
    · exact hinfer
  | .array n es, F, known, expected => by
    rw [typing]
    refine (learns_expectedForm expected).bind fun form => ?_
    dsimp only
    split
    · refine (learns_typingList es (by simp)).bind fun r => ?_
      exact .pure fun hk => ⟨rfl, rfl, fun _ => trivial, Expr.everywhereList_iff.mpr hk.2⟩
    · cases es with
      | nil =>
        refine (learns_freshVar "").bind fun t => ?_
        exact learns_conclude fun _ => ⟨rfl, rfl, fun _ => trivial, trivial⟩
      | cons first rest =>
        refine (learns_typing first).bind fun r => (learns_typingList rest (by simp)).bind fun rs => ?_
        exact learns_conclude fun hk => ⟨rfl, rfl, fun _ => trivial, hk.1.2.direct,
          Expr.everywhereList_iff.mpr hk.2⟩
  | .tuple n es, F, known, expected => by
    have hinfer : ∀ {known}, Learns F known (Records F (.tuple n es)) (do
        let (ts, es) ← typingList [] [] [] es
        conclude expected (.tuple ts) (.tuple n es)) := fun {known} =>
      (learns_typingList es (by simp)).bind fun r =>
        learns_conclude fun hk => ⟨rfl, rfl, fun _ => trivial, Expr.everywhereList_iff.mpr hk.2⟩
    rw [typing]
    refine (learns_expectedForm expected).bind fun form => ?_
    dsimp only
    split
    · split
      · refine (learns_typingList es (by simp)).bind fun r => ?_
        exact .pure fun hk => ⟨rfl, rfl, fun _ => trivial, Expr.everywhereList_iff.mpr hk.2⟩
      · exact hinfer
    · exact hinfer
  | .call n callee args implicit, F, known, expected => by
    have hend : ∀ {known f t as slots}, (known → Records F callee f) →
        (known → ∀ e ∈ as, e.Everywhere (Refused F.deep)) →
        Learns F known (Records F (.call n callee args implicit))
          (conclude expected t (.call n f.2 as slots)) := fun hf has =>
      learns_conclude fun hk => ⟨rfl, rfl, fun _ => trivial, (hf hk).direct,
        Expr.everywhereList_iff.mpr (has hk)⟩
    rw [typing]
    refine (learns_expectedForm expected).bind fun _ => (learns_typing callee).bind fun f => ?_
    refine (learns_resolve f.1).bind fun t => ?_
    split
    · next params result count =>
      have hargs : ∀ {known}, (known → Records F callee f) →
          Learns F known (Records F (.call n callee args implicit)) (do
            let (params, result, slots) ← instantiateImplicit params result count n.span
            let (_, args) ← typingList (params.drop count) [] [] args
            conclude expected result (.call n f.2 args (some slots))) := fun hf =>
        (learns_instantiateImplicit params result count n.span).bind fun r =>
          (learns_typingList args (by simp)).bind fun as =>
            hend (fun hk => hf hk.1.1) fun hk => hk.2
      dsimp only
      split
      · exact (Learns.fail _ _ : Learns F _ (fun _ => True) _).bind fun _ => hargs fun hk => hk.1.1.2
      · exact hargs fun hk => hk.1.2
    · refine (learns_typingList args (by simp)).bind fun as => (learns_hole "" n.span).bind fun t => ?_
      exact hend (fun hk => hk.1.1.1.2) fun hk => hk.1.2
    · exact (learns_resolveDeep _).bind fun _ => .fail _ _
  | .subscript n target index, F, known, expected => by
    rw [typing]
    refine (learns_expectedForm expected).bind fun _ => (learns_typing target).bind fun r => ?_
    refine (learns_resolve r.1).bind fun t => ?_
    split
    · next item =>
      refine (learns_typing index).bind fun i => learns_conclude fun hk => ?_
      obtain ⟨⟨⟨-, htarget⟩, hdeep⟩, hindex⟩ := hk
      refine ⟨rfl, rfl, fun _ => ⟨fun u hu => ?_, fun ts k u hts _ _ => ?_⟩, htarget.direct,
        hindex.direct⟩
      · rw [htarget.ty, Option.map_some, ← hdeep, Table.deep_array, Option.some.injEq,
          Ty.array.injEq] at hu
        exact congrArg some hu
      · rw [htarget.ty, Option.map_some, ← hdeep, Table.deep_array] at hts
        cases hts
    · next items =>
      refine (learns_resolveDeep r.1).bind fun whole => ?_
      split
      · exact .fail _ _
      · next k hk =>
        split
        · exact .fail _ _
        · next item hitem =>
          refine (learns_typing index).bind fun i => learns_conclude fun hknown => ?_
          obtain ⟨⟨⟨⟨-, htarget⟩, hdeep⟩, -⟩, hindex⟩ := hknown
          refine ⟨rfl, rfl, fun _ => ⟨fun u hu => ?_, fun ts j u hts hj hu => ?_⟩, htarget.direct,
            hindex.direct⟩
          · rw [htarget.ty, Option.map_some, ← hdeep, Table.deep_tuple] at hu
            cases hu
          · rw [htarget.ty, Option.map_some, ← hdeep, Table.deep_tuple, Option.some.injEq,
              Ty.tuple.injEq] at hts
            obtain rfl : k = j := by
              rw [hindex.index, hk] at hj
              exact Option.some.inj hj
            rw [← hts, List.getElem?_map, hitem] at hu
            exact hu
    · refine (learns_typing index).bind fun i => (learns_hole "" n.span).bind fun u => ?_
      refine learns_conclude fun ⟨⟨⟨⟨_, htarget⟩, _⟩, hindex⟩, hfalse⟩ => ?_
      exact ⟨rfl, rfl, fun htrue => absurd (hfalse.symm.trans htrue) (by simp), htarget.direct,
        hindex.direct⟩
    · refine (learns_freshVar "").bind fun _ => (learns_resolveDeep _).bind fun _ => .fail _ _
  | .member n object field, F, known, expected => by
    rw [typing]
    refine (learns_expectedForm expected).bind fun _ => (learns_typing object).bind fun r => ?_
    refine (learns_fieldType r.1 field n.span).bind fun u => learns_conclude fun hk => ?_
    obtain ⟨⟨-, hobject⟩, hfield⟩ := hk
    refine ⟨rfl, rfl, fun hrefused fs v hfs hv => ?_, hobject.direct⟩
    rw [hobject.ty] at hfs
    exact congrArg some (hfield hrefused fs v (Option.some.inj hfs) hv)
  | .type n t, F, known, expected => by
    rw [typing]
    refine (learns_expectedForm expected).bind fun _ => (learns_typeValue t n.span).bind fun _ => ?_
    exact learns_conclude fun _ => ⟨rfl, rfl, fun _ => trivial⟩

theorem learns_typingList : (es : List Expr) → ∀ {F : Table} {known : Prop}
    {expected found : List Ty} {done : List Expr},
    (known → ∀ e ∈ done, e.Everywhere (Refused F.deep)) →
    Learns F known (fun r => ∀ e ∈ r.2, e.Everywhere (Refused F.deep))
      (typingList expected found done es)
  | [], F, known, expected, found, done, hdone => by
    rw [typingList]
    exact .pure fun hk e he => hdone hk e (List.mem_reverse.mp he)
  | e :: es, F, known, expected, found, done, hdone => by
    rw [typingList]
    refine (learns_typing e).bind fun r => learns_typingList es fun hk => ?_
    exact List.forall_mem_cons.mpr ⟨hk.2.direct, hdone hk.1⟩

theorem learns_typingFields : (fs : List (String × Expr)) → ∀ {F : Table} {known : Prop}
    {expected : List Ty} {found : List (String × Ty)} {done : List (String × Expr)},
    (known → ∀ f ∈ done, f.2.Everywhere (Refused F.deep)) →
    Learns F known (fun r => ∀ f ∈ r.2, f.2.Everywhere (Refused F.deep))
      (typingFields expected found done fs)
  | [], F, known, expected, found, done, hdone => by
    rw [typingFields]
    exact .pure fun hk f hf => hdone hk f (List.mem_reverse.mp hf)
  | (name, e) :: fs, F, known, expected, found, done, hdone => by
    rw [typingFields]
    refine (learns_typing e).bind fun r => learns_typingFields fs fun hk => ?_
    exact List.forall_mem_cons.mpr ⟨hk.2.direct, hdone hk.1⟩

end

/-! ## Statements and declarations -/

theorem learns_infer (e : Expr) :
    Learns F known (fun r => r.2.Everywhere (Refused F.deep)) (infer e) :=
  (learns_typing e).mono fun _ _ h => h.direct

theorem learns_check (e : Expr) (t : Ty) :
    Learns F known (Expr.Everywhere (Refused F.deep)) (check e t) :=
  (learns_typing e).map fun _ _ h => h.direct

theorem learns_mapM {f : Expr → Check Expr}
    (hf : ∀ e, Learns F known (Expr.Everywhere (Refused F.deep)) (f e)) (e : Option Expr) :
    Learns F known (fun r => ∀ e ∈ r, e.Everywhere (Refused F.deep)) (e.mapM f) := by
  cases e with
  | none => exact .pure fun _ => by simp
  | some e => exact (hf e).map fun _ e he => by simpa using he

theorem learns_letDecl (d : LetDecl) :
    Learns F known (fun d' => d'.init.Everywhere (Refused F.deep)) (letDecl d) := by
  unfold letDecl
  split
  · refine (learns_typeExpr _).bind fun t => (learns_check d.init t).bind fun init => ?_
    exact (learns_bindValue d.name t).bind fun _ => .pure fun hk => hk.1.2
  · refine (learns_infer d.init).bind fun r => ?_
    exact (learns_bindValue d.name r.1).bind fun _ => .pure fun hk => hk.1.2

theorem learns_forInit (init : Option ForInit) :
    Learns F known (fun r => ∀ i ∈ r, i.Exprs (Refused F.deep)) (forInit init) := by
  unfold forInit
  split
  · exact .pure fun _ => by simp
  · exact (learns_infer _).bind fun r => .pure fun hk => by simpa [ForInit.Exprs] using hk.2
  · exact (learns_letDecl _).bind fun d => .pure fun hk => by simpa [ForInit.Exprs] using hk.2

theorem learns_inBlock {t : Ty} {body : List Decl} {span : Span} {declarations : Check (List Decl)}
    (h : ∀ {known}, Learns F known (Decl.ExprsList (Refused F.deep)) declarations) :
    Learns F known (Decl.ExprsList (Refused F.deep)) (inBlock t body span declarations) := by
  have hrest : ∀ {known}, Learns F known (Decl.ExprsList (Refused F.deep)) (do
      let body ← declarations
      popScope
      return body) := fun {known} =>
    h.bind fun _ => learns_popScope.bind fun _ => .pure fun hk => hk.1.2
  unfold inBlock
  refine learns_pushScope.bind fun _ => (learns_hoist body).bind fun _ => ?_
  dsimp only
  split
  · exact (learns_unify t .void span).bind fun _ => hrest
  · exact hrest

theorem learns_function {head : FnHead} {body : Ty → Check (List Decl)}
    (hbody : ∀ {known} t, Learns F known (Decl.ExprsList (Refused F.deep)) (body t)) :
    Learns F known (fun r => Decl.ExprsList (Refused F.deep) r.2) (function head body) := by
  unfold function
  refine learns_pushFrame.bind fun _ => learns_pushScope.bind fun _ => ?_
  refine (learns_bindTypeParams head.typeParams).bind fun _ => ?_
  refine (learns_paramTypes [] 0 head.params).bind fun r => ?_
  refine (learns_optionalType "" head.result).bind fun result => ?_
  refine (learns_bindValue head.name _).bind fun _ => (learns_bindParams head.params r.1).bind fun _ => ?_
  refine (learns_enterBody result).bind fun loopDepth => (hbody result).bind fun body' => ?_
  refine (learns_leaveBody loopDepth).bind fun _ => learns_popScope.bind fun _ => ?_
  refine learns_popFrame.bind fun _ => (learns_resolveDeep _).bind fun signature => ?_
  exact (learns_bindValue head.name signature).bind fun _ => .pure fun hk => hk.1.1.1.1.1.2

mutual

theorem learns_stmt : (s : Stmt) → ∀ {F : Table} {known : Prop} {t : Ty},
    Learns F known (Stmt.Exprs (Refused F.deep)) (stmt t s)
  | .empty span, F, known, t => by
    rw [stmt]
    exact (learns_unify t .void span).bind fun _ => .pure fun _ => trivial
  | .block body span, F, known, t => by
    rw [stmt]
    refine (learns_inBlock (learns_decls body (by simp))).bind fun _ => ?_
    exact .pure fun hk => hk.2
  | .ret value span, F, known, t => by
    rw [stmt]
    refine Learns.get.bind fun s => ?_
    split
    · exact .fail _ _
    · split
      · exact (learns_check _ _).bind fun e => .pure fun hk => by simpa [Stmt.Exprs] using hk.2
      · exact (learns_unify _ .void span).bind fun _ => .pure fun _ => by simp [Stmt.Exprs]
  | .cond c s none span, F, known, t => by
    rw [stmt]
    refine (learns_check c .bool).bind fun c' => (learns_freshVar "").bind fun u => ?_
    refine (learns_stmt s).bind fun s' => (learns_unify t .void span).bind fun _ => ?_
    exact .pure fun hk => ⟨hk.1.1.1.2, hk.1.2⟩
  | .cond c s (some alternate) span, F, known, t => by
    rw [stmt]
    refine (learns_check c .bool).bind fun c' => (learns_stmt s).bind fun s' => ?_
    refine (learns_stmt alternate).bind fun a' => .pure fun hk => ⟨hk.1.1.2, hk.1.2, hk.2⟩
  | .whileLoop c body span, F, known, t => by
    rw [stmt]
    refine (learns_check c .bool).bind fun c' => (learns_setLoopDepth _).bind fun _ => ?_
    refine (learns_freshVar "").bind fun u => (learns_stmt body).bind fun body' => ?_
    refine (learns_setLoopDepth _).bind fun _ => ?_
    exact learns_unless fun hk => ⟨hk.1.1.1.1.2, hk.1.2⟩
  | .forLoop init c increment body span, F, known, t => by
    rw [stmt]
    refine learns_pushScope.bind fun _ => (learns_forInit init).bind fun init' => ?_
    refine (learns_mapM (fun c => learns_check c .bool) c).bind fun c' => ?_
    refine (learns_mapM (fun e => (learns_infer e).map fun _ _ h => h) increment).bind fun i' => ?_
    refine (learns_setLoopDepth _).bind fun _ => (learns_freshVar "").bind fun u => ?_
    refine (learns_stmt body).bind fun body' => (learns_setLoopDepth _).bind fun _ => ?_
    refine learns_popScope.bind fun _ => learns_unless fun hk => ?_
    obtain ⟨⟨⟨⟨⟨⟨⟨⟨-, hinit⟩, hc⟩, hi⟩, -⟩, -⟩, hbody⟩, -⟩, -⟩ := hk
    exact ⟨hinit, hc, hi, hbody⟩
  | .breakLoop span, F, known, t => by
    rw [stmt]
    exact (learns_jump "break" span).bind fun _ => .pure fun _ => trivial
  | .continueLoop span, F, known, t => by
    rw [stmt]
    exact (learns_jump "continue" span).bind fun _ => .pure fun _ => trivial
  | .cases scrutinee cs none span, F, known, t => by
    rw [stmt]
    refine (learns_infer scrutinee).bind fun r => ?_
    refine (learns_matchCases cs (by simp)).bind fun cs' => ?_
    exact .pure fun hk => ⟨hk.1.2, hk.2⟩
  | .cases scrutinee cs (some default) span, F, known, t => by
    rw [stmt]
    refine (learns_infer scrutinee).bind fun r => ?_
    refine (learns_matchCases cs (by simp)).bind fun cs' => (learns_stmt default).bind fun s' => ?_
    exact .pure fun hk => ⟨hk.1.1.2, hk.1.2, hk.2⟩
  | .expr e, F, known, t => by
    rw [stmt]
    exact (learns_check e t).bind fun e' => .pure fun hk => hk.2

theorem learns_matchCases : (cs : List (Pattern × Stmt)) → ∀ {F : Table} {known : Prop}
    {t scrutinee : Ty} {done : List (Pattern × Stmt)},
    (known → ∀ c ∈ done, c.2.Exprs (Refused F.deep)) →
    Learns F known (Stmt.ExprsCases (Refused F.deep)) (matchCases t scrutinee done cs)
  | [], F, known, t, scrutinee, done, hdone => by
    rw [matchCases]
    exact .pure fun hk => Stmt.exprsCases_iff.mpr fun c hc => hdone hk c (List.mem_reverse.mp hc)
  | (p, s) :: cs, F, known, t, scrutinee, done, hdone => by
    rw [matchCases]
    refine learns_pushScope.bind fun _ => (learns_pattern p).bind fun _ => ?_
    refine (learns_stmt s).bind fun s' => learns_popScope.bind fun _ => ?_
    refine learns_matchCases cs fun hk => List.forall_mem_cons.mpr ⟨hk.1.2, hdone hk.1.1.1.1⟩

theorem learns_decls : (ds : List Decl) → ∀ {F : Table} {known : Prop} {t : Ty} {done : List Decl},
    (known → ∀ d ∈ done, d.Exprs (Refused F.deep)) →
    Learns F known (Decl.ExprsList (Refused F.deep)) (decls t done ds)
  | [], F, known, t, done, hdone => by
    rw [decls]
    exact .pure fun hk => Decl.exprsList_iff.mpr fun d hd => hdone hk d (List.mem_reverse.mp hd)
  | d :: ds, F, known, t, done, hdone => by
    rw [decls]
    refine (learns_completion t ds).bind fun u => (learns_decl d).bind fun d' => ?_
    exact learns_decls ds fun hk => List.forall_mem_cons.mpr ⟨hk.2, hdone hk.1.1⟩

/-- Checking a declaration records types in view of which its accesses are as they should be. -/
theorem learns_decl : (d : Decl) → ∀ {F : Table} {known : Prop} {t : Ty},
    Learns F known (Decl.Exprs (Refused F.deep)) (decl t d)
  | .letDecl d, F, known, t => by
    rw [decl]
    refine (learns_letDecl d).bind fun d' => (learns_unify t .void d'.span).bind fun _ => ?_
    exact .pure fun hk => hk.1.2
  | .fn head body, F, known, t => by
    rw [decl]
    refine (learns_function fun u => learns_inBlock (learns_decls body (by simp))).bind fun r => ?_
    exact (learns_unify t .void r.1.span).bind fun _ => .pure fun hk => hk.1.2
  | .stmt s, F, known, t => by
    rw [decl]
    exact (learns_stmt s).bind fun _ => .pure fun hk => hk.2

end

end Check

end Reified
