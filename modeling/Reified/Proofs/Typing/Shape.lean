import Reified.Proofs.Typing.Final
import Reified.Proofs.Typing.Places

/-!
# Checking only annotates

What checking answers is the tree that it was given, with other types, signatures and inferred arguments recorded
in it. So nothing that stood in a program is missing from an accepted declaration, and nothing is new there.

## Main definitions

* `Retyping.comp` — one replacement of what is recorded after another
* `Expr.bare`, `Decl.bare` — a tree with nothing recorded in it

## Main results

* `Check.annotates_typing`, `Check.bare_decl` — the answer of a check is the same tree but for what is recorded
* `Checker.bare_checkProgram` — so is a checked program
-/

namespace Reified

/-! ## Replacing twice -/

/-- Replace by one after the other. -/
def Retyping.comp (g f : Retyping) : Retyping := ⟨g.type ∘ f.type, g.slots ∘ f.slots⟩

section retype

variable {f g : Retyping}

theorem Expr.retypeList_eq_map (es : List Expr) : Expr.retypeList f es = es.map (·.retype f) := by
  induction es with
  | nil => rfl
  | cons e es ih => rw [retypeList, ih, List.map_cons]

theorem Expr.retypeFields_eq_map (fs : List (String × Expr)) :
    Expr.retypeFields f fs = fs.map fun x => (x.1, x.2.retype f) := by
  induction fs with
  | nil => rfl
  | cons x fs ih =>
    obtain ⟨name, e⟩ := x
    rw [retypeFields, ih, List.map_cons]

theorem Stmt.retypeCases_eq_map (cs : List (Pattern × Stmt)) :
    Stmt.retypeCases f cs = cs.map fun x => (x.1, x.2.retype f) := by
  induction cs with
  | nil => rfl
  | cons c cs ih =>
    obtain ⟨p, s⟩ := c
    rw [retypeCases, ih, List.map_cons]

theorem Decl.retypeList_eq_map (ds : List Decl) : Decl.retypeList f ds = ds.map (·.retype f) := by
  induction ds with
  | nil => rfl
  | cons d ds ih => rw [retypeList, ih, List.map_cons]

mutual

theorem Expr.retype_retype : (e : Expr) → (e.retype f).retype g = e.retype (g.comp f)
  | .ident .. | .literal .. | .type .. => rfl
  | .binary _ _ l r | .subscript _ l r => by
    simp only [retype, retype_retype l, retype_retype r]
    rfl
  | .paren _ e | .member _ e _ => by
    simp only [retype, retype_retype e]
    rfl
  | .object _ fs => by
    simp only [retype, retype_retypeFields fs]
    rfl
  | .array _ es | .tuple _ es => by
    simp only [retype, retype_retypeList es]
    rfl
  | .call _ callee args _ => by
    simp only [retype, retype_retype callee, retype_retypeList args]
    rfl

theorem Expr.retype_retypeList : (es : List Expr) →
    Expr.retypeList g (Expr.retypeList f es) = Expr.retypeList (g.comp f) es
  | [] => rfl
  | e :: es => by simp only [retypeList, retype_retype e, retype_retypeList es]

theorem Expr.retype_retypeFields : (fs : List (String × Expr)) →
    Expr.retypeFields g (Expr.retypeFields f fs) = Expr.retypeFields (g.comp f) fs
  | [] => rfl
  | (_, e) :: fs => by simp only [retypeFields, retype_retype e, retype_retypeFields fs]

end

theorem ForInit.retype_retype (init : ForInit) : (init.retype f).retype g = init.retype (g.comp f) := by
  cases init with
  | expr e => simp only [retype, e.retype_retype]
  | letDecl d => simp only [retype, LetDecl.retype, d.init.retype_retype]

theorem Option.map_retype_retype {α : Type} {r : Retyping → α → α}
    (h : ∀ a, r g (r f a) = r (g.comp f) a) (a : Option α) :
    Option.map (r g) (Option.map (r f) a) = Option.map (r (g.comp f)) a := by
  rw [Option.map_map]
  exact congrArg (Option.map · a) (funext h)

mutual

theorem Stmt.retype_retype : (s : Stmt) → (s.retype f).retype g = s.retype (g.comp f)
  | .empty _ | .breakLoop _ | .continueLoop _ => rfl
  | .block body _ => by simp only [Stmt.retype, Decl.retype_retypeList body]
  | .ret value _ => by simp only [Stmt.retype, Option.map_retype_retype Expr.retype_retype]
  | .cond c s none _ => by simp only [Stmt.retype, c.retype_retype, Stmt.retype_retype s]
  | .cond c s (some t) _ => by
    simp only [Stmt.retype, c.retype_retype, Stmt.retype_retype s, Stmt.retype_retype t]
  | .whileLoop c body _ => by simp only [Stmt.retype, c.retype_retype, Stmt.retype_retype body]
  | .forLoop init c increment body _ => by
    simp only [Stmt.retype, Option.map_retype_retype ForInit.retype_retype,
      Option.map_retype_retype Expr.retype_retype, Stmt.retype_retype body]
  | .cases scrutinee cs none _ => by
    simp only [Stmt.retype, scrutinee.retype_retype, Stmt.retype_retypeCases cs]
  | .cases scrutinee cs (some s) _ => by
    simp only [Stmt.retype, scrutinee.retype_retype, Stmt.retype_retypeCases cs, Stmt.retype_retype s]
  | .expr e => by simp only [Stmt.retype, e.retype_retype]

theorem Stmt.retype_retypeCases : (cs : List (Pattern × Stmt)) →
    Stmt.retypeCases g (Stmt.retypeCases f cs) = Stmt.retypeCases (g.comp f) cs
  | [] => rfl
  | (_, s) :: cs => by simp only [Stmt.retypeCases, Stmt.retype_retype s, Stmt.retype_retypeCases cs]

theorem Decl.retype_retype : (d : Decl) → (d.retype f).retype g = d.retype (g.comp f)
  | .letDecl d => by simp only [Decl.retype, LetDecl.retype, d.init.retype_retype]
  | .fn head body => by
    simp only [Decl.retype, Decl.retype_retypeList body]
    rfl
  | .stmt s => by simp only [Decl.retype, Stmt.retype_retype s]

theorem Decl.retype_retypeList : (ds : List Decl) →
    Decl.retypeList g (Decl.retypeList f ds) = Decl.retypeList (g.comp f) ds
  | [] => rfl
  | d :: ds => by simp only [Decl.retypeList, Decl.retype_retype d, Decl.retype_retypeList ds]

end

end retype

/-! ## Bare trees -/

/-- The expression with nothing recorded in it. -/
def Expr.bare (e : Expr) : Expr := e.retype .drop

/-- The statement with nothing recorded in it. -/
def Stmt.bare (s : Stmt) : Stmt := s.retype .drop

/-- The declaration with nothing recorded in it. -/
def Decl.bare (d : Decl) : Decl := d.retype .drop

section bare

variable {f : Retyping}

theorem Expr.bare_retype (e : Expr) : (e.retype f).bare = e.bare := e.retype_retype

theorem Decl.bare_retype (d : Decl) : (d.retype f).bare = d.bare := d.retype_retype

theorem Expr.bare_annotate (e : Expr) (t : Ty) : (e.annotate t).bare = e.bare := by
  cases e <;> rfl

theorem Expr.ty?_annotate (e : Expr) (t : Ty) : (e.annotate t).ty? = some t := by
  cases e <;> rfl

end bare

namespace Check

/-- What checking an expression answers: the type that it records, in the same expression. -/
structure Annotates (e : Expr) (r : Ty × Expr) : Prop where
  bare : r.2.bare = e.bare
  ty : r.2.ty? = some r.1

theorem annotates_conclude {x : Option Ty} {u : Ty} {e e' : Expr} (h : e.bare = e'.bare) :
    Makes (Annotates e') (conclude x u e) := by
  have hpost : Annotates e' (u, e.annotate u) := ⟨(e.bare_annotate u).trans h, e.ty?_annotate u⟩
  unfold conclude
  split
  · exact .bind .any fun _ _ => .pure hpost
  · exact .pure hpost

variable [Policy]

mutual

/-- **The answer of the check of an expression is the same expression**, but for what is recorded in it. -/
theorem annotates_typing : (e : Expr) → ∀ {x : Option Ty}, Makes (Annotates e) (typing x e)
  | .ident n name, x => by
    rw [typing]
    exact .bind .any fun _ _ => .bind .any fun _ _ => annotates_conclude rfl
  | .literal n v, x => by
    rw [typing]
    exact .bind .any fun _ _ => annotates_conclude rfl
  | .paren n inner, x => by
    rw [typing]
    refine .bind .any fun _ _ => .bind (annotates_typing inner) fun a ha => .pure ?_
    exact ⟨congrArg (Expr.paren _) ha.bare, rfl⟩
  | .binary n op l r, x => by
    have hend : ∀ {u : Ty} {a b : Ty × Expr}, a.2.bare = l.bare → b.2.bare = r.bare →
        Makes (Annotates (Expr.binary n op l r)) (conclude x u (.binary n op a.2 b.2)) :=
      fun ha hb => annotates_conclude (congrArg₂ (Expr.binary _ op) ha hb)
    rw [typing]
    refine .bind .any fun _ _ => ?_
    dsimp only
    split
    · exact .bind (annotates_typing l) fun _ ha => .bind (annotates_typing r) fun _ hb => hend ha.bare hb.bare
    · exact .bind (annotates_typing l) fun _ ha => .bind (annotates_typing r) fun _ hb => hend ha.bare hb.bare
    · exact .bind (annotates_typing l) fun _ ha => .bind (annotates_typing r) fun _ hb => hend ha.bare hb.bare
    · refine .bind .any fun _ _ => .bind .any fun _ _ => ?_
      split
      · exact .bind (annotates_typing l) fun _ ha => .bind (annotates_typing r) fun _ hb => hend ha.bare hb.bare
      · exact .fail _ _
  | .object n fs, x => by
    have hfields : ∀ {fs' : List (String × Expr)} {n' : Note}, n'.span = n.span →
        Expr.retypeFields .drop fs' = Expr.retypeFields .drop fs →
        (Expr.object n' fs').bare = (Expr.object n fs).bare := fun hn hfs =>
      congrArg₂ Expr.object (congrArg (Note.mk · none) hn) hfs
    have hinfer : Makes (Annotates (Expr.object n fs)) (do
        let (ts, fs) ← typingFields [] [] [] fs
        conclude x (.record ts) (.object n fs)) :=
      .bind (bare_typingFields fs) fun _ ha => annotates_conclude (hfields rfl ha)
    rw [typing]
    refine .bind .any fun _ _ => ?_
    dsimp only
    split
    · split
      · exact .bind (bare_typingFields fs) fun _ ha => .pure ⟨hfields rfl ha, rfl⟩
      · exact hinfer
    · exact hinfer
  | .array n [], x => by
    rw [typing]
    refine .bind .any fun _ _ => ?_
    dsimp only
    split
    · exact .bind (bare_typingList []) fun _ ha => .pure ⟨congrArg (Expr.array _) ha, rfl⟩
    · exact .bind .any fun _ _ => annotates_conclude rfl
  | .array n (e :: es), x => by
    rw [typing]
    refine .bind .any fun _ _ => ?_
    dsimp only
    split
    · exact .bind (bare_typingList (e :: es)) fun _ ha => .pure ⟨congrArg (Expr.array _) ha, rfl⟩
    · refine .bind (annotates_typing e) fun _ ha => .bind (bare_typingList es) fun _ hb => ?_
      exact annotates_conclude (congrArg (Expr.array _) (congrArg₂ List.cons ha.bare hb))
  | .tuple n es, x => by
    have hinfer : Makes (Annotates (Expr.tuple n es)) (do
        let (ts, es) ← typingList [] [] [] es
        conclude x (.tuple ts) (.tuple n es)) :=
      .bind (bare_typingList es) fun _ ha => annotates_conclude (congrArg (Expr.tuple _) ha)
    rw [typing]
    refine .bind .any fun _ _ => ?_
    dsimp only
    split
    · split
      · exact .bind (bare_typingList es) fun _ ha => .pure ⟨congrArg (Expr.tuple _) ha, rfl⟩
      · exact hinfer
    · exact hinfer
  | .call n callee args slots, x => by
    have hend : ∀ {u : Ty} {a : Ty × Expr} {b : List Ty × List Expr} {slots' : Option (List Ty)},
        a.2.bare = callee.bare → Expr.retypeList .drop b.2 = Expr.retypeList .drop args →
        Makes (Annotates (Expr.call n callee args slots))
          (conclude x u (.call n a.2 b.2 slots')) := fun ha hb =>
      annotates_conclude (congrArg₂ (Expr.call _ · · _) ha hb)
    rw [typing]
    refine .bind .any fun _ _ => .bind (annotates_typing callee) fun _ ha => .bind .any fun _ _ => ?_
    split
    · have hargs : ∀ {params result implicit}, Makes (Annotates (Expr.call n callee args slots))
          (do
            let (params, result, slots) ← instantiateImplicit params result implicit n.span
            let (_, args) ← typingList (params.drop implicit) [] [] args
            conclude x result (.call n _ args (some slots))) := fun {params result implicit} =>
        .bind .any fun _ _ => .bind (bare_typingList args) fun _ hb => hend ha.bare hb
      dsimp only
      split
      · exact .bind (.fail _ _ : Makes (fun _ => True) _) fun _ _ => hargs
      · exact hargs
    · exact .bind (bare_typingList args) fun _ hb => .bind .any fun _ _ => hend ha.bare hb
    · exact .bind .any fun _ _ => .fail _ _
  | .subscript n target index, x => by
    have hend : ∀ {u : Ty} {a b : Ty × Expr}, a.2.bare = target.bare → b.2.bare = index.bare →
        Makes (Annotates (Expr.subscript n target index))
          (conclude x u (.subscript n a.2 b.2)) := fun ha hb =>
      annotates_conclude (congrArg₂ (Expr.subscript _) ha hb)
    rw [typing]
    refine .bind .any fun _ _ => .bind (annotates_typing target) fun _ ha => .bind .any fun _ _ => ?_
    split
    · exact .bind (annotates_typing index) fun _ hb => hend ha.bare hb.bare
    · refine .bind .any fun _ _ => ?_
      split
      · exact .fail _ _
      · split
        · exact .fail _ _
        · exact .bind (annotates_typing index) fun _ hb => hend ha.bare hb.bare
    · exact .bind (annotates_typing index) fun _ hb => .bind .any fun _ _ => hend ha.bare hb.bare
    · exact .bind .any fun _ _ => .bind .any fun _ _ => .fail _ _
  | .member n o field, x => by
    rw [typing]
    refine .bind .any fun _ _ => .bind (annotates_typing o) fun _ ha => .bind .any fun _ _ => ?_
    exact annotates_conclude (congrArg (Expr.member _ · field) ha.bare)
  | .type n written, x => by
    rw [typing]
    exact .bind .any fun _ _ => .bind .any fun _ _ => annotates_conclude rfl

theorem bare_typingList : (es : List Expr) → ∀ {ts found : List Ty} {done : List Expr},
    Makes (fun r => Expr.retypeList .drop r.2 = Expr.retypeList .drop (done.reverse ++ es))
      (typingList ts found done es)
  | [], ts, found, done => by
    rw [typingList, List.append_nil]
    exact .pure rfl
  | e :: es, ts, found, done => by
    rw [typingList]
    refine .bind (annotates_typing e) fun a ha => (bare_typingList es).mono fun r hr => hr.trans ?_
    simpa [Expr.retypeList_eq_map, Expr.bare] using ha.bare

theorem bare_typingFields : (fs : List (String × Expr)) → ∀ {ts : List Ty} {found : List (String × Ty)}
    {done : List (String × Expr)},
    Makes (fun r => Expr.retypeFields .drop r.2 = Expr.retypeFields .drop (done.reverse ++ fs))
      (typingFields ts found done fs)
  | [], ts, found, done => by
    rw [typingFields, List.append_nil]
    exact .pure rfl
  | (name, e) :: fs, ts, found, done => by
    rw [typingFields]
    refine .bind (annotates_typing e) fun a ha => (bare_typingFields fs).mono fun r hr => hr.trans ?_
    simpa [Expr.retypeFields_eq_map, Expr.bare] using ha.bare

end

theorem annotates_of_ok {x : Option Ty} {e : Expr} {s s' : Checker} {r : Ty × Expr}
    (h : typing x e s = .ok r s') : Annotates e r := by
  have hmakes : Makes (Annotates e) (typing x e) := annotates_typing e
  have hpost := hmakes s trivial
  rw [h] at hpost
  exact hpost.2

/-! ## Statements and declarations -/

theorem bare_check (e : Expr) (t : Ty) : Makes (fun e' => e'.bare = e.bare) (check e t) :=
  (annotates_typing e).map fun _ h => h.bare

theorem bare_infer (e : Expr) : Makes (fun r => r.2.bare = e.bare) (infer e) :=
  (annotates_typing e).mono fun _ h => h.bare

theorem bare_letDecl (d : LetDecl) : Makes (fun d' => d'.retype .drop = d.retype .drop) (letDecl d) := by
  have hinit : ∀ {e : Expr}, e.bare = d.init.bare →
      ({ d with init := e } : LetDecl).retype .drop = d.retype .drop := fun he =>
    congrArg (fun init => { d with init := init }) he
  unfold letDecl
  split
  · exact .bind .any fun _ _ => .bind (bare_check d.init _) fun _ he => .bind .any fun _ _ => .pure (hinit he)
  · exact .bind (bare_infer d.init) fun _ he => .bind .any fun _ _ => .pure (hinit he)

theorem bare_forInit (init : Option ForInit) :
    Makes (fun init' => init'.map (·.retype .drop) = init.map (·.retype .drop)) (forInit init) := by
  unfold forInit
  split
  · exact .pure rfl
  · exact .bind (bare_infer _) fun _ he => .pure (congrArg (some ∘ ForInit.expr) he)
  · exact .bind (bare_letDecl _) fun _ hd => .pure (congrArg (some ∘ ForInit.letDecl) hd)

omit [Policy] in
theorem bare_mapM {f : Expr → Check Expr} (hf : ∀ e, Makes (fun e' => e'.bare = e.bare) (f e))
    (e : Option Expr) : Makes (fun e' => e'.map (·.retype .drop) = e.map (·.retype .drop)) (e.mapM f) := by
  cases e with
  | none => exact .pure rfl
  | some e => exact (hf e).map fun _ h => congrArg some h

omit [Policy] in
theorem bare_inBlock {t : Ty} {body ds : List Decl} {span : Span} {declarations : Check (List Decl)}
    (h : Makes (fun ds' => Decl.retypeList .drop ds' = Decl.retypeList .drop ds) declarations) :
    Makes (fun ds' => Decl.retypeList .drop ds' = Decl.retypeList .drop ds)
      (inBlock t body span declarations) := by
  rw [inBlock_eq]
  exact .bind .any fun _ _ => .bind h fun _ hds => .bind .any fun _ _ => .pure hds

omit [Policy] in
theorem bare_function {head : FnHead} {body : Ty → Check (List Decl)} {ds : List Decl}
    (hbody : ∀ t, Makes (fun ds' => Decl.retypeList .drop ds' = Decl.retypeList .drop ds) (body t)) :
    Makes (fun r => (Decl.fn r.1 r.2).bare = (Decl.fn head ds).bare) (function head body) := by
  rw [function_eq]
  unfold fnType
  rw [fnBody_eq]
  simp only [bind_assoc, pure_bind]
  refine .bind .any fun _ _ => .bind .any fun _ _ => .bind (hbody _) fun _ hds => ?_
  refine .bind .any fun _ _ => .bind .any fun _ _ => .bind .any fun _ _ => .bind .any fun _ _ => ?_
  exact .bind .any fun _ _ => .pure (congrArg (Decl.fn _) hds)

mutual

/-- The answer of the check of a statement is the same statement. -/
theorem bare_stmt : (s : Stmt) → ∀ {t : Ty}, Makes (fun s' => s'.bare = s.bare) (stmt t s)
  | .empty span, t => by
    rw [stmt]
    exact .bind .any fun _ _ => .pure rfl
  | .block body span, t => by
    rw [stmt]
    exact .bind (bare_inBlock (bare_decls body)) fun _ hbody => .pure (congrArg (Stmt.block · span) hbody)
  | .ret value span, t => by
    rw [stmt]
    refine .bind .any fun s _ => ?_
    split
    · exact .fail _ _
    · split
      · refine .bind (bare_check _ _) fun _ he => .pure ?_
        exact congrArg (fun e => Stmt.ret (some e) span) he
      · exact .bind .any fun _ _ => .pure rfl
  | .cond c s none span, t => by
    rw [stmt]
    refine .bind (bare_check c _) fun _ hc => .bind .any fun _ _ => .bind (bare_stmt s) fun _ hs => ?_
    exact .bind .any fun _ _ => .pure (congrArg₂ (Stmt.cond · · none span) hc hs)
  | .cond c s (some alternate) span, t => by
    rw [stmt]
    refine .bind (bare_check c _) fun c' hc => .bind (bare_stmt s) fun s' hs => ?_
    refine .bind (bare_stmt alternate) fun a' ha => .pure ?_
    show Stmt.cond c'.bare s'.bare (some a'.bare) span = .cond c.bare s.bare (some alternate.bare) span
    rw [hc, hs, ha]
  | .whileLoop c body span, t => by
    rw [stmt]
    refine .bind (bare_check c _) fun c' hc => .bind .any fun _ _ => .bind .any fun _ _ => ?_
    refine .bind (bare_stmt body) fun body' hbody => .bind .any fun _ _ => ?_
    have hpost : (Stmt.whileLoop c' body' span).bare = (Stmt.whileLoop c body span).bare :=
      congrArg₂ (Stmt.whileLoop · · span) hc hbody
    split
    · exact .pure hpost
    · exact .bind .any fun _ _ => .pure hpost
  | .forLoop init c increment body span, t => by
    rw [stmt]
    refine .bind .any fun _ _ => .bind (bare_forInit init) fun init' hinit => ?_
    refine .bind (bare_mapM (fun c => bare_check c _) c) fun c' hc => ?_
    refine .bind (bare_mapM (fun e => (bare_infer e).map fun _ h => h) increment) fun increment' hi => ?_
    refine .bind .any fun _ _ => .bind .any fun _ _ => .bind (bare_stmt body) fun body' hbody => ?_
    refine .bind .any fun _ _ => .bind .any fun _ _ => ?_
    have hpost : (Stmt.forLoop init' c' increment' body' span).bare =
        (Stmt.forLoop init c increment body span).bare := by
      show Stmt.forLoop (init'.map (·.retype .drop)) (c'.map (·.retype .drop))
        (increment'.map (·.retype .drop)) body'.bare span = _
      rw [hinit, hc, hi, hbody]
      rfl
    split
    · exact .pure hpost
    · exact .bind .any fun _ _ => .pure hpost
  | .breakLoop span, t | .continueLoop span, t => by
    rw [stmt]
    exact .bind .any fun _ _ => .pure rfl
  | .cases scrutinee cs none span, t => by
    rw [stmt]
    refine .bind (bare_infer scrutinee) fun _ hs => .bind (bare_matchCases cs) fun _ hcs => .pure ?_
    exact congrArg₂ (Stmt.cases · · none span) hs hcs
  | .cases scrutinee cs (some default) span, t => by
    rw [stmt]
    refine .bind (bare_infer scrutinee) fun r hs => .bind (bare_matchCases cs) fun cs' hcs => ?_
    refine .bind (bare_stmt default) fun d' hd => .pure ?_
    show Stmt.cases r.2.bare (Stmt.retypeCases .drop cs') (some d'.bare) span = _
    rw [hs, hcs, hd]
    rfl
  | .expr e, t => by
    rw [stmt]
    exact .bind (bare_check e t) fun _ he => .pure (congrArg Stmt.expr he)

theorem bare_matchCases : (cs : List (Pattern × Stmt)) → ∀ {t u : Ty} {done : List (Pattern × Stmt)},
    Makes (fun cs' => Stmt.retypeCases .drop cs' = Stmt.retypeCases .drop (done.reverse ++ cs))
      (matchCases t u done cs)
  | [], t, u, done => by
    rw [matchCases, List.append_nil]
    exact .pure rfl
  | (p, s) :: cs, t, u, done => by
    rw [matchCases]
    refine .bind .any fun _ _ => .bind .any fun _ _ => .bind (bare_stmt s) fun s' hs => ?_
    refine .bind .any fun _ _ => (bare_matchCases cs).mono fun r hr => hr.trans ?_
    simpa [Stmt.retypeCases_eq_map, Stmt.bare] using hs

theorem bare_decls : (ds : List Decl) → ∀ {t : Ty} {done : List Decl},
    Makes (fun ds' => Decl.retypeList .drop ds' = Decl.retypeList .drop (done.reverse ++ ds))
      (decls t done ds)
  | [], t, done => by
    rw [decls, List.append_nil]
    exact .pure rfl
  | d :: ds, t, done => by
    rw [decls]
    refine .bind .any fun _ _ => .bind (bare_decl d) fun d' hd => ?_
    refine (bare_decls ds).mono fun r hr => hr.trans ?_
    simpa [Decl.retypeList_eq_map, Decl.bare] using hd

/-- **The answer of the check of a declaration is the same declaration**, but for what is recorded in it. -/
theorem bare_decl : (d : Decl) → ∀ {t : Ty}, Makes (fun d' => d'.bare = d.bare) (decl t d)
  | .letDecl d, t => by
    rw [decl]
    exact .bind (bare_letDecl d) fun _ hd => .bind .any fun _ _ => .pure (congrArg Decl.letDecl hd)
  | .fn head body, t => by
    rw [decl]
    refine .bind (bare_function fun u => bare_inBlock (bare_decls body)) fun r hr => ?_
    exact .bind .any fun _ _ => .pure hr
  | .stmt s, t => by
    rw [decl]
    exact .bind (bare_stmt s) fun _ hs => .pure (congrArg Decl.stmt hs)

end

end Check

/-! ## Programs -/

namespace Checker

variable [Check.Policy]

theorem bare_checkDecls (ds : List Decl) (index : Nat) (s : Checker) (done : List (Decl × Bool)) :
    (checkDecls index done ds s).1.map (·.1.bare) = done.reverse.map (·.1.bare) ++ ds.map Decl.bare := by
  induction ds generalizing index s done with
  | nil => exact (List.append_nil _).symm
  | cons d ds ih =>
    have htop : Check.Makes (fun d' => d'.bare = d.bare) (checkTopLevel d) :=
      .bind .any fun t _ => Check.bare_decl d
    have h1 := htop s trivial
    rw [checkDecls]
    cases hact : checkTopLevel d s with
    | ok d' s₁ =>
      rw [hact] at h1
      simpa [h1.2] using ih (index + 1) s₁ ((d', true) :: done)
    | error e s₁ => simpa using ih (index + 1) _ ((d, false) :: done)

/-- **A checked program is the program that was given**, but for what is recorded in it. -/
theorem bare_checkProgram {s : Checker} {program : Program}
    (hF : (s.beforeFinish program).table.Acyclic) :
    (s.checkProgram program).1.program.map Decl.bare = program.map Decl.bare := by
  have hchecked := bare_checkDecls program 0 (s.after (openProgram program)) []
  have hprogram : (s.checkProgram program).1.program =
      ((checkDecls 0 [] program (s.after (openProgram program))).1.map
        (finalDecl (s.beforeFinish program).table)).map Prod.fst :=
    congrArg (List.map Prod.fst) (resolves_finishAccepted hF _ [] _ (.refl _)).1
  rw [hprogram, List.map_map, List.map_map]
  refine (List.map_congr_left fun d _ => ?_).trans hchecked
  obtain ⟨d, accepted⟩ := d
  cases accepted with
  | true => exact d.bare_retype
  | false => rfl

end Checker

end Reified
