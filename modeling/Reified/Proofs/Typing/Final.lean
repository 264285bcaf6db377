import Reified.Proofs.Table.Growth
import Reified.Proofs.Tree.Exprs
import Reified.Proofs.Typing.Signed

/-!
# Final types

Resolving the recorded types at the end takes shortcuts in the table only. So whatever the order in which it
goes through a tree, the outcome is the tree in which each recorded type is replaced by what it stands for in
the last table of the check.

## Main definitions

* `Retyping`, `Expr.retype`, `Stmt.retype`, `Decl.retype` — a tree with all that is recorded in it replaced
* `Resolves` — an action that only takes shortcuts, and what it answers

## Main results

* `Decl.exprs_retype`, `Decl.heads_retype` — properties of a tree with replaced types
* `Decl.resolves_finish` — resolving the types of a tree
* `Checker.exists_of_mem_accepted_checkProgram` — where the accepted declarations come from
-/

namespace Reified

/-! ## Replacing what is recorded -/

/-- How to replace what is recorded in a tree: the types of expressions and the signatures of functions, and what
was inferred for the inferred parameters of a callee. -/
structure Retyping where
  type : Option Ty → Option Ty
  slots : Option (List Ty) → Option (List Ty)

/-- Replace each type. -/
def Retyping.map (f : Ty → Ty) : Retyping := ⟨Option.map f, Option.map (List.map f)⟩

@[simp] theorem Retyping.type_map (f : Ty → Ty) (t : Option Ty) : (map f).type t = t.map f := rfl

@[simp] theorem Retyping.slots_map (f : Ty → Ty) (ts : Option (List Ty)) :
    (map f).slots ts = ts.map (List.map f) := rfl

/-- Leave nothing recorded. -/
def Retyping.drop : Retyping := ⟨fun _ => none, fun _ => none⟩

/-- The note with its type replaced. -/
def Note.retype (f : Retyping) (n : Note) : Note := ⟨n.span, f.type n.ty⟩

mutual

/-- The expression with all its recorded types replaced. -/
def Expr.retype (f : Retyping) : Expr → Expr
  | .ident n x => .ident (n.retype f) x
  | .literal n v => .literal (n.retype f) v
  | .binary n op l r => .binary (n.retype f) op (l.retype f) (r.retype f)
  | .paren n e => .paren (n.retype f) (e.retype f)
  | .object n fs => .object (n.retype f) (Expr.retypeFields f fs)
  | .array n es => .array (n.retype f) (Expr.retypeList f es)
  | .tuple n es => .tuple (n.retype f) (Expr.retypeList f es)
  | .call n callee args slots =>
    .call (n.retype f) (callee.retype f) (Expr.retypeList f args) (f.slots slots)
  | .subscript n t i => .subscript (n.retype f) (t.retype f) (i.retype f)
  | .member n o x => .member (n.retype f) (o.retype f) x
  | .type n t => .type (n.retype f) t

/-- `Expr.retype` on each expression of a list. -/
def Expr.retypeList (f : Retyping) : List Expr → List Expr
  | [] => []
  | e :: es => e.retype f :: Expr.retypeList f es

/-- `Expr.retype` on the expression of each field. -/
def Expr.retypeFields (f : Retyping) : List (String × Expr) → List (String × Expr)
  | [] => []
  | (name, e) :: fs => (name, e.retype f) :: Expr.retypeFields f fs

end

/-- A declaration of a variable with all recorded types replaced. -/
def LetDecl.retype (f : Retyping) (d : LetDecl) : LetDecl := { d with init := d.init.retype f }

/-- What a `for` loop does first, with all recorded types replaced. -/
def ForInit.retype (f : Retyping) : ForInit → ForInit
  | .expr e => .expr (e.retype f)
  | .letDecl d => .letDecl (d.retype f)

/-- The function with its signature replaced. -/
def FnHead.retype (f : Retyping) (head : FnHead) : FnHead := { head with signature := f.type head.signature }

mutual

/-- The statement with all its recorded types replaced. -/
def Stmt.retype (f : Retyping) : Stmt → Stmt
  | .empty span => .empty span
  | .block body span => .block (Decl.retypeList f body) span
  | .ret value span => .ret (value.map (Expr.retype f)) span
  | .cond c s none span => .cond (c.retype f) (s.retype f) none span
  | .cond c s (some t) span => .cond (c.retype f) (s.retype f) (some (t.retype f)) span
  | .whileLoop c body span => .whileLoop (c.retype f) (body.retype f) span
  | .forLoop init c increment body span => .forLoop (init.map (ForInit.retype f))
      (c.map (Expr.retype f)) (increment.map (Expr.retype f)) (body.retype f) span
  | .breakLoop span => .breakLoop span
  | .continueLoop span => .continueLoop span
  | .cases scrutinee cs none span => .cases (scrutinee.retype f) (Stmt.retypeCases f cs) none span
  | .cases scrutinee cs (some s) span =>
    .cases (scrutinee.retype f) (Stmt.retypeCases f cs) (some (s.retype f)) span
  | .expr e => .expr (e.retype f)

/-- `Stmt.retype` on the statement of each case. -/
def Stmt.retypeCases (f : Retyping) : List (Pattern × Stmt) → List (Pattern × Stmt)
  | [] => []
  | (p, s) :: cs => (p, s.retype f) :: Stmt.retypeCases f cs

/-- The declaration with all its recorded types replaced. -/
def Decl.retype (f : Retyping) : Decl → Decl
  | .letDecl d => .letDecl (d.retype f)
  | .fn head body => .fn (head.retype f) (Decl.retypeList f body)
  | .stmt s => .stmt (s.retype f)

/-- `Decl.retype` on each declaration of a list. -/
def Decl.retypeList (f : Retyping) : List Decl → List Decl
  | [] => []
  | d :: ds => d.retype f :: Decl.retypeList f ds

end

section properties

variable {f g : Retyping}

@[simp] theorem Expr.note_retype (e : Expr) : (e.retype f).note = e.note.retype f := by
  cases e <;> rfl

theorem Expr.ty?_retype (e : Expr) : (e.retype f).ty? = f.type e.ty? := by
  rw [ty?, e.note_retype]
  rfl

theorem Expr.literalIndex?_retype (e : Expr) : (e.retype f).literalIndex? = e.literalIndex? := by
  cases e with
  | literal n v => cases v <;> rfl
  | _ => rfl

mutual

/-- What holds everywhere in an expression with replaced types. -/
theorem Expr.everywhere_retype {P : Expr → Prop} : (e : Expr) →
    ((e.retype f).Everywhere P ↔ e.Everywhere fun e => P (e.retype f))
  | .ident .. | .literal .. | .type .. => Iff.rfl
  | .binary _ _ l r | .subscript _ l r =>
    and_congr Iff.rfl (and_congr (everywhere_retype l) (everywhere_retype r))
  | .paren _ e | .member _ e _ => and_congr Iff.rfl (everywhere_retype e)
  | .object _ fs => and_congr Iff.rfl (everywhereFields_retype fs)
  | .array _ es | .tuple _ es => and_congr Iff.rfl (everywhereList_retype es)
  | .call _ callee es _ =>
    and_congr Iff.rfl (and_congr (everywhere_retype callee) (everywhereList_retype es))

theorem Expr.everywhereList_retype {P : Expr → Prop} : (es : List Expr) →
    (Expr.EverywhereList P (Expr.retypeList f es) ↔ Expr.EverywhereList (fun e => P (e.retype f)) es)
  | [] => Iff.rfl
  | e :: es => and_congr (everywhere_retype e) (everywhereList_retype es)

theorem Expr.everywhereFields_retype {P : Expr → Prop} : (fs : List (String × Expr)) →
    (Expr.EverywhereFields P (Expr.retypeFields f fs) ↔
      Expr.EverywhereFields (fun e => P (e.retype f)) fs)
  | [] => Iff.rfl
  | (_, e) :: fs => and_congr (everywhere_retype e) (everywhereFields_retype fs)

end

theorem ForInit.exprs_retype {P : Expr → Prop} (init : ForInit) :
    (init.retype f).Exprs P ↔ init.Exprs fun e => P (e.retype f) := by
  cases init with
  | expr e => exact e.everywhere_retype
  | letDecl d => exact d.init.everywhere_retype

mutual

/-- What holds of all expressions in a statement with replaced types. -/
theorem Stmt.exprs_retype {P : Expr → Prop} : (s : Stmt) →
    ((s.retype f).Exprs P ↔ s.Exprs fun e => P (e.retype f))
  | .empty _ | .breakLoop _ | .continueLoop _ => Iff.rfl
  | .block body _ => Decl.exprsList_retype body
  | .ret value _ => by
    rw [Stmt.retype, Stmt.Exprs, Stmt.Exprs]
    simp [Expr.everywhere_retype]
  | .cond c s none _ => and_congr c.everywhere_retype (Stmt.exprs_retype s)
  | .cond c s (some t) _ =>
    and_congr c.everywhere_retype (and_congr (Stmt.exprs_retype s) (Stmt.exprs_retype t))
  | .whileLoop c body _ => and_congr c.everywhere_retype (Stmt.exprs_retype body)
  | .forLoop init c increment body _ => by
    rw [Stmt.retype, Stmt.Exprs, Stmt.Exprs, Stmt.exprs_retype body]
    simp [Expr.everywhere_retype, ForInit.exprs_retype]
  | .cases scrutinee cs none _ => and_congr scrutinee.everywhere_retype (Stmt.exprsCases_retype cs)
  | .cases scrutinee cs (some s) _ =>
    and_congr scrutinee.everywhere_retype (and_congr (Stmt.exprsCases_retype cs) (Stmt.exprs_retype s))
  | .expr e => e.everywhere_retype

theorem Stmt.exprsCases_retype {P : Expr → Prop} : (cs : List (Pattern × Stmt)) →
    (Stmt.ExprsCases P (Stmt.retypeCases f cs) ↔ Stmt.ExprsCases (fun e => P (e.retype f)) cs)
  | [] => Iff.rfl
  | (_, s) :: cs => and_congr (Stmt.exprs_retype s) (Stmt.exprsCases_retype cs)

/-- What holds of all expressions in a declaration with replaced types. -/
theorem Decl.exprs_retype {P : Expr → Prop} : (d : Decl) →
    ((d.retype f).Exprs P ↔ d.Exprs fun e => P (e.retype f))
  | .letDecl d => d.init.everywhere_retype
  | .fn _ body => Decl.exprsList_retype body
  | .stmt s => Stmt.exprs_retype s

theorem Decl.exprsList_retype {P : Expr → Prop} : (ds : List Decl) →
    (Decl.ExprsList P (Decl.retypeList f ds) ↔ Decl.ExprsList (fun e => P (e.retype f)) ds)
  | [] => Iff.rfl
  | d :: ds => and_congr (Decl.exprs_retype d) (Decl.exprsList_retype ds)

end

mutual

/-- What holds of all functions in a statement with replaced types. -/
theorem Stmt.heads_retype {P : FnHead → Prop} : (s : Stmt) →
    ((s.retype f).Heads P ↔ s.Heads fun head => P (head.retype f))
  | .empty _ | .breakLoop _ | .continueLoop _ | .ret .. | .expr _ => Iff.rfl
  | .block body _ => Decl.headsList_retype body
  | .cond _ s none _ => Stmt.heads_retype s
  | .cond _ s (some t) _ => and_congr (Stmt.heads_retype s) (Stmt.heads_retype t)
  | .whileLoop _ body _ | .forLoop _ _ _ body _ => Stmt.heads_retype body
  | .cases _ cs none _ => Stmt.headsCases_retype cs
  | .cases _ cs (some s) _ => and_congr (Stmt.headsCases_retype cs) (Stmt.heads_retype s)

theorem Stmt.headsCases_retype {P : FnHead → Prop} : (cs : List (Pattern × Stmt)) →
    (Stmt.HeadsCases P (Stmt.retypeCases f cs) ↔ Stmt.HeadsCases (fun head => P (head.retype f)) cs)
  | [] => Iff.rfl
  | (_, s) :: cs => and_congr (Stmt.heads_retype s) (Stmt.headsCases_retype cs)

/-- What holds of all functions in a declaration with replaced types. -/
theorem Decl.heads_retype {P : FnHead → Prop} : (d : Decl) →
    ((d.retype f).Heads P ↔ d.Heads fun head => P (head.retype f))
  | .letDecl _ => Iff.rfl
  | .fn _ body => and_congr Iff.rfl (Decl.headsList_retype body)
  | .stmt s => Stmt.heads_retype s

theorem Decl.headsList_retype {P : FnHead → Prop} : (ds : List Decl) →
    (Decl.HeadsList P (Decl.retypeList f ds) ↔ Decl.HeadsList (fun head => P (head.retype f)) ds)
  | [] => Iff.rfl
  | d :: ds => and_congr (Decl.heads_retype d) (Decl.headsList_retype ds)

end

end properties

/-! ## Resolving -/

section finish

variable {α β : Type} {F : Table}

/-- The action only takes shortcuts in a table that says the same as `F`, and its answer has the
property. -/
def Resolves (F : Table) (post : α → Prop) (act : StateM Table α) : Prop :=
  ∀ T, F.Same T → post (act T).1 ∧ F.Same (act T).2

namespace Resolves

variable {post post' : α → Prop} {act : StateM Table α}

theorem pure {a : α} (h : post a) : Resolves F post (Pure.pure a) := fun _ hT => ⟨h, hT⟩

theorem bind {post' : β → Prop} {next : α → StateM Table β} (h : Resolves F post act)
    (hnext : ∀ a, post a → Resolves F post' (next a)) : Resolves F post' (act >>= next) :=
  fun T hT => hnext _ (h T hT).1 _ (h T hT).2

theorem map {post' : β → Prop} {f : α → β} (h : Resolves F post act)
    (hpost : ∀ a, post a → post' (f a)) : Resolves F post' (f <$> act) :=
  fun T hT => ⟨hpost _ (h T hT).1, (h T hT).2⟩

/-- What comes after an action with a known answer. -/
theorem bind_eq {post' : β → Prop} {next : α → StateM Table β} {a : α} (h : Resolves F (· = a) act)
    (hnext : Resolves F post' (next a)) : Resolves F post' (act >>= next) :=
  h.bind fun _ heq => heq ▸ hnext

theorem map_eq {f : α → β} {a : α} (h : Resolves F (· = a) act) : Resolves F (· = f a) (f <$> act) :=
  h.map fun _ heq => congrArg f heq

/-- Resolving what may be absent. -/
theorem option {g : α → StateM Table β} {f : α → β} (h : ∀ a, Resolves F (· = f a) (g a)) (a : Option α) :
    Resolves F (· = a.map f) (a.mapM g) := by
  cases a with
  | none => exact .pure rfl
  | some a => exact (h a).map_eq

end Resolves

theorem resolves_finishTy (hF : F.Acyclic) (t : Ty) : Resolves F (· = F.deep t) (finishTy t) := by
  intro T hT
  obtain ⟨hdeep, hsteady⟩ := Table.steady_resolveDeep (hT.acyclic hF) t
  exact ⟨hdeep.trans (hT.deep t), hT.trans hsteady.same⟩

theorem resolves_finishTys (hF : F.Acyclic) (done ts : List Ty) :
    Resolves F (· = done.reverse ++ ts.map F.deep) (finishTys done ts) := by
  induction ts generalizing done with
  | nil => exact .pure (List.append_nil _).symm
  | cons t ts ih =>
    refine (resolves_finishTy hF t).bind_eq ?_
    simpa using ih (F.deep t :: done)

theorem Note.resolves_finish (hF : F.Acyclic) (n : Note) : Resolves F (· = n.retype (.map F.deep)) n.finish :=
  (Resolves.option (resolves_finishTy hF) n.ty).bind_eq (.pure rfl)

mutual

/-- Resolving the types of an expression. -/
theorem Expr.resolves_finish (hF : F.Acyclic) : (e : Expr) → Resolves F (· = e.retype (.map F.deep)) e.finish
  | .ident n x | .literal n v | .type n t => by
    rw [finish]
    exact (n.resolves_finish hF).bind_eq (.pure rfl)
  | .binary n op l r | .subscript n l r => by
    rw [finish]
    refine (n.resolves_finish hF).bind_eq ((resolves_finish hF l).bind_eq ?_)
    exact (resolves_finish hF r).bind_eq (.pure rfl)
  | .paren n e | .member n e x => by
    rw [finish]
    exact (n.resolves_finish hF).bind_eq ((resolves_finish hF e).bind_eq (.pure rfl))
  | .object n fs => by
    rw [finish]
    exact (n.resolves_finish hF).bind_eq ((resolves_finishFields hF fs).bind_eq (.pure rfl))
  | .array n es | .tuple n es => by
    rw [finish]
    exact (n.resolves_finish hF).bind_eq ((resolves_finishList hF es).bind_eq (.pure rfl))
  | .call n f es slots => by
    rw [finish]
    refine (n.resolves_finish hF).bind_eq ((resolves_finish hF f).bind_eq ?_)
    refine (resolves_finishList hF es).bind_eq ?_
    exact (Resolves.option (resolves_finishTys hF []) slots).bind_eq (.pure rfl)

theorem Expr.resolves_finishList (hF : F.Acyclic) : (es : List Expr) → ∀ {done : List Expr},
    Resolves F (· = done.reverse ++ Expr.retypeList (.map F.deep) es) (Expr.finishList done es)
  | [], done => by
    rw [finishList]
    exact .pure (List.append_nil _).symm
  | e :: es, done => by
    rw [finishList]
    refine (resolves_finish hF e).bind_eq ?_
    simpa [retypeList] using @resolves_finishList hF es (e.retype (.map F.deep) :: done)

theorem Expr.resolves_finishFields (hF : F.Acyclic) : (fs : List (String × Expr)) →
    ∀ {done : List (String × Expr)},
    Resolves F (· = done.reverse ++ Expr.retypeFields (.map F.deep) fs) (Expr.finishFields done fs)
  | [], done => by
    rw [finishFields]
    exact .pure (List.append_nil _).symm
  | (name, e) :: fs, done => by
    rw [finishFields]
    refine (resolves_finish hF e).bind_eq ?_
    simpa [retypeFields] using @resolves_finishFields hF fs ((name, e.retype (.map F.deep)) :: done)

end

theorem LetDecl.resolves_finish (hF : F.Acyclic) (d : LetDecl) :
    Resolves F (· = d.retype (.map F.deep)) d.finish :=
  (d.init.resolves_finish hF).bind_eq (.pure rfl)

theorem ForInit.resolves_finish (hF : F.Acyclic) (init : ForInit) :
    Resolves F (· = init.retype (.map F.deep)) init.finish := by
  cases init with
  | expr e => exact (e.resolves_finish hF).bind_eq (.pure rfl)
  | letDecl d => exact (d.resolves_finish hF).bind_eq (.pure rfl)

theorem FnHead.resolves_finish (hF : F.Acyclic) (head : FnHead) :
    Resolves F (· = head.retype (.map F.deep)) head.finish :=
  (Resolves.option (resolves_finishTy hF) head.signature).bind_eq (.pure rfl)

mutual

/-- Resolving the types of a statement. -/
theorem Stmt.resolves_finish (hF : F.Acyclic) : (s : Stmt) → Resolves F (· = s.retype (.map F.deep)) s.finish
  | .empty span | .breakLoop span | .continueLoop span => by
    rw [Stmt.finish]
    exact .pure rfl
  | .block body span => by
    rw [Stmt.finish]
    exact (Decl.resolves_finishDecls hF body).bind_eq (.pure rfl)
  | .ret value span => by
    rw [Stmt.finish]
    exact (Resolves.option (Expr.resolves_finish hF) value).bind_eq (.pure rfl)
  | .cond c s none span | .whileLoop c s span => by
    rw [Stmt.finish]
    exact (c.resolves_finish hF).bind_eq ((Stmt.resolves_finish hF s).bind_eq (.pure rfl))
  | .cond c s (some t) span => by
    rw [Stmt.finish]
    refine (c.resolves_finish hF).bind_eq ((Stmt.resolves_finish hF s).bind_eq ?_)
    exact (Stmt.resolves_finish hF t).bind_eq (.pure rfl)
  | .forLoop init c increment body span => by
    rw [Stmt.finish]
    refine (Resolves.option (ForInit.resolves_finish hF) init).bind_eq ?_
    refine (Resolves.option (Expr.resolves_finish hF) c).bind_eq ?_
    refine (Resolves.option (Expr.resolves_finish hF) increment).bind_eq ?_
    exact (Stmt.resolves_finish hF body).bind_eq (.pure rfl)
  | .cases scrutinee cs none span => by
    rw [Stmt.finish]
    exact (scrutinee.resolves_finish hF).bind_eq ((Stmt.resolves_finishCases hF cs).bind_eq (.pure rfl))
  | .cases scrutinee cs (some s) span => by
    rw [Stmt.finish]
    refine (scrutinee.resolves_finish hF).bind_eq ((Stmt.resolves_finishCases hF cs).bind_eq ?_)
    exact (Stmt.resolves_finish hF s).bind_eq (.pure rfl)
  | .expr e => by
    rw [Stmt.finish]
    exact (e.resolves_finish hF).bind_eq (.pure rfl)

theorem Stmt.resolves_finishCases (hF : F.Acyclic) : (cs : List (Pattern × Stmt)) →
    ∀ {done : List (Pattern × Stmt)},
    Resolves F (· = done.reverse ++ Stmt.retypeCases (.map F.deep) cs) (finishCases done cs)
  | [], done => by
    rw [finishCases]
    exact .pure (List.append_nil _).symm
  | (p, s) :: cs, done => by
    rw [finishCases]
    refine (Stmt.resolves_finish hF s).bind_eq ?_
    simpa [Stmt.retypeCases] using @Stmt.resolves_finishCases hF cs ((p, s.retype (.map F.deep)) :: done)

theorem Decl.resolves_finishDecls (hF : F.Acyclic) : (ds : List Decl) → ∀ {done : List Decl},
    Resolves F (· = done.reverse ++ Decl.retypeList (.map F.deep) ds) (finishDecls done ds)
  | [], done => by
    rw [finishDecls]
    exact .pure (List.append_nil _).symm
  | d :: ds, done => by
    rw [finishDecls]
    refine (Decl.resolves_finish hF d).bind_eq ?_
    simpa [Decl.retypeList] using @Decl.resolves_finishDecls hF ds (d.retype (.map F.deep) :: done)

/-- Resolving the types of a declaration. -/
theorem Decl.resolves_finish (hF : F.Acyclic) : (d : Decl) → Resolves F (· = d.retype (.map F.deep)) d.finish
  | .letDecl d => by
    rw [Decl.finish]
    exact (d.resolves_finish hF).bind_eq (.pure rfl)
  | .fn head body => by
    rw [Decl.finish]
    exact (head.resolves_finish hF).bind_eq ((Decl.resolves_finishDecls hF body).bind_eq (.pure rfl))
  | .stmt s => by
    rw [Decl.finish]
    exact (Stmt.resolves_finish hF s).bind_eq (.pure rfl)

end

end finish

/-! ## Programs -/

namespace Checker

/-- The declaration with its final types, if it is accepted. -/
def finalDecl (F : Table) (d : Decl × Bool) : Decl × Bool :=
  (if d.2 then d.1.retype (.map F.deep) else d.1, d.2)

theorem resolves_finishAccepted {F : Table} (hF : F.Acyclic) (ds done : List (Decl × Bool)) :
    Resolves F (· = done.reverse ++ ds.map (finalDecl F)) (finishAccepted done ds) := by
  induction ds generalizing done with
  | nil => exact .pure (List.append_nil _).symm
  | cons d ds ih =>
    obtain ⟨d, accepted⟩ := d
    rw [finishAccepted]
    have hrest : Resolves F (· = done.reverse ++ finalDecl F (d, accepted) :: ds.map (finalDecl F))
        (finishAccepted (finalDecl F (d, accepted) :: done) ds) := by
      simpa using ih (finalDecl F (d, accepted) :: done)
    cases accepted with
    | true => exact (d.resolves_finish hF).bind_eq hrest
    | false => exact (Resolves.pure rfl : Resolves F (· = d) _).bind_eq hrest

variable [Check.Policy] {s : Checker} {program : Program}

/-- The checker when all declarations of a program are checked, before their types are resolved. -/
def beforeFinish (s : Checker) (program : Program) : Checker :=
  (checkDecls 0 [] program (s.after (openProgram program))).2.after closeProgram

/-- **An accepted declaration is the answer of its check**, with each recorded type replaced by what it stands for
in the last table of the check. The table that remains says the same. -/
theorem exists_of_mem_accepted_checkProgram (hF : (s.beforeFinish program).table.Acyclic) :
    (s.beforeFinish program).table.Same (s.checkProgram program).2.table ∧
      ∀ d ∈ (s.checkProgram program).1.program.accepted (s.checkProgram program).1.rejected,
        ∃ d₀, (d₀, true) ∈ (checkDecls 0 [] program (s.after (openProgram program))).1 ∧
          d = d₀.retype (.map (s.beforeFinish program).table.deep) := by
  obtain ⟨hfinish, hsame⟩ := resolves_finishAccepted hF
    (checkDecls 0 [] program (s.after (openProgram program))).1 [] _ (.refl _)
  refine ⟨hsame, fun d hd => ?_⟩
  have hmem : (d, true) ∈ (finishAccepted [] _ (s.beforeFinish program).table).1 := exists_of_mem_accepted hd
  rw [hfinish] at hmem
  obtain ⟨⟨d₀, accepted⟩, hd₀, heq⟩ := List.mem_map.mp hmem
  obtain ⟨hdecl, rfl⟩ := Prod.mk.inj heq
  exact ⟨d₀, hd₀, hdecl.symm⟩

end Checker

end Reified
