import Reified.Tree.Basic

/-!
# All expressions of a tree

## Main definitions

* `Expr.Everywhere` — a property of an expression and of all expressions in it
* `Stmt.Exprs`, `Decl.Exprs` — a property of all expressions in a statement or declaration
-/

namespace Reified

mutual

/-- The expression and all expressions in it have the property. -/
def Expr.Everywhere (P : Expr → Prop) : Expr → Prop
  | .ident n x => P (.ident n x)
  | .literal n v => P (.literal n v)
  | .binary n op l r => P (.binary n op l r) ∧ l.Everywhere P ∧ r.Everywhere P
  | .paren n e => P (.paren n e) ∧ e.Everywhere P
  | .object n fs => P (.object n fs) ∧ Expr.EverywhereFields P fs
  | .array n es => P (.array n es) ∧ Expr.EverywhereList P es
  | .tuple n es => P (.tuple n es) ∧ Expr.EverywhereList P es
  | .call n f es implicit => P (.call n f es implicit) ∧ f.Everywhere P ∧ Expr.EverywhereList P es
  | .subscript n t i => P (.subscript n t i) ∧ t.Everywhere P ∧ i.Everywhere P
  | .member n o x => P (.member n o x) ∧ o.Everywhere P
  | .type n t => P (.type n t)

/-- `Expr.Everywhere` for each expression of a list. -/
def Expr.EverywhereList (P : Expr → Prop) : List Expr → Prop
  | [] => True
  | e :: es => e.Everywhere P ∧ Expr.EverywhereList P es

/-- `Expr.Everywhere` for the expression of each field. -/
def Expr.EverywhereFields (P : Expr → Prop) : List (String × Expr) → Prop
  | [] => True
  | (_, e) :: fs => e.Everywhere P ∧ Expr.EverywhereFields P fs

end

/-- `Expr.Everywhere` for the expression of what a `for` loop does first. -/
def ForInit.Exprs (P : Expr → Prop) : ForInit → Prop
  | .expr e => e.Everywhere P
  | .letDecl d => d.init.Everywhere P

mutual

/-- All expressions in the statement have the property. -/
def Stmt.Exprs (P : Expr → Prop) : Stmt → Prop
  | .empty _ | .breakLoop _ | .continueLoop _ => True
  | .block body _ => Decl.ExprsList P body
  | .ret value _ => ∀ e ∈ value, e.Everywhere P
  | .cond c s none _ => c.Everywhere P ∧ s.Exprs P
  | .cond c s (some t) _ => c.Everywhere P ∧ s.Exprs P ∧ t.Exprs P
  | .whileLoop c body _ => c.Everywhere P ∧ body.Exprs P
  | .forLoop init c increment body _ => (∀ i ∈ init, i.Exprs P) ∧ (∀ e ∈ c, e.Everywhere P) ∧
      (∀ e ∈ increment, e.Everywhere P) ∧ body.Exprs P
  | .cases scrutinee cs none _ => scrutinee.Everywhere P ∧ Stmt.ExprsCases P cs
  | .cases scrutinee cs (some s) _ => scrutinee.Everywhere P ∧ Stmt.ExprsCases P cs ∧ s.Exprs P
  | .expr e => e.Everywhere P

/-- `Stmt.Exprs` for the statement of each case. -/
def Stmt.ExprsCases (P : Expr → Prop) : List (Pattern × Stmt) → Prop
  | [] => True
  | (_, s) :: cs => s.Exprs P ∧ Stmt.ExprsCases P cs

/-- All expressions in the declaration have the property. -/
def Decl.Exprs (P : Expr → Prop) : Decl → Prop
  | .letDecl d => d.init.Everywhere P
  | .fn _ body => Decl.ExprsList P body
  | .stmt s => s.Exprs P

/-- `Decl.Exprs` for each declaration of a list. -/
def Decl.ExprsList (P : Expr → Prop) : List Decl → Prop
  | [] => True
  | d :: ds => d.Exprs P ∧ Decl.ExprsList P ds

end

section

variable {P : Expr → Prop}

mutual

/-- A property of all expressions. -/
theorem Expr.everywhere_of_forall (h : ∀ e, P e) : (e : Expr) → e.Everywhere P
  | .ident .. | .literal .. | .type .. => h _
  | .binary _ _ l r => ⟨h _, l.everywhere_of_forall h, r.everywhere_of_forall h⟩
  | .paren _ e | .member _ e _ => ⟨h _, e.everywhere_of_forall h⟩
  | .object _ fs => ⟨h _, Expr.everywhereFields_of_forall h fs⟩
  | .array _ es | .tuple _ es => ⟨h _, Expr.everywhereList_of_forall h es⟩
  | .call _ f es _ => ⟨h _, f.everywhere_of_forall h, Expr.everywhereList_of_forall h es⟩
  | .subscript _ t i => ⟨h _, t.everywhere_of_forall h, i.everywhere_of_forall h⟩

theorem Expr.everywhereList_of_forall (h : ∀ e, P e) : (es : List Expr) → Expr.EverywhereList P es
  | [] => trivial
  | e :: es => ⟨e.everywhere_of_forall h, Expr.everywhereList_of_forall h es⟩

theorem Expr.everywhereFields_of_forall (h : ∀ e, P e) :
    (fs : List (String × Expr)) → Expr.EverywhereFields P fs
  | [] => trivial
  | (_, e) :: fs => ⟨e.everywhere_of_forall h, Expr.everywhereFields_of_forall h fs⟩

end

mutual

/-- Two properties of all expressions give a third one. -/
theorem Expr.Everywhere.map₂ {Q R : Expr → Prop} (h : ∀ e, P e → Q e → R e) : (e : Expr) → e.Everywhere P →
    e.Everywhere Q → e.Everywhere R
  | .ident .., hp, hq | .literal .., hp, hq | .type .., hp, hq => h _ hp hq
  | .binary _ _ l r, hp, hq | .subscript _ l r, hp, hq =>
    ⟨h _ hp.1 hq.1, Expr.Everywhere.map₂ h l hp.2.1 hq.2.1, Expr.Everywhere.map₂ h r hp.2.2 hq.2.2⟩
  | .paren _ e, hp, hq | .member _ e _, hp, hq => ⟨h _ hp.1 hq.1, Expr.Everywhere.map₂ h e hp.2 hq.2⟩
  | .object _ fs, hp, hq => ⟨h _ hp.1 hq.1, Expr.EverywhereFields.map₂ h fs hp.2 hq.2⟩
  | .array _ es, hp, hq | .tuple _ es, hp, hq => ⟨h _ hp.1 hq.1, Expr.EverywhereList.map₂ h es hp.2 hq.2⟩
  | .call _ f es _, hp, hq =>
    ⟨h _ hp.1 hq.1, Expr.Everywhere.map₂ h f hp.2.1 hq.2.1, Expr.EverywhereList.map₂ h es hp.2.2 hq.2.2⟩

theorem Expr.EverywhereList.map₂ {Q R : Expr → Prop} (h : ∀ e, P e → Q e → R e) : (es : List Expr) →
    Expr.EverywhereList P es → Expr.EverywhereList Q es → Expr.EverywhereList R es
  | [], _, _ => trivial
  | e :: es, hp, hq => ⟨Expr.Everywhere.map₂ h e hp.1 hq.1, Expr.EverywhereList.map₂ h es hp.2 hq.2⟩

theorem Expr.EverywhereFields.map₂ {Q R : Expr → Prop} (h : ∀ e, P e → Q e → R e) :
    (fs : List (String × Expr)) → Expr.EverywhereFields P fs → Expr.EverywhereFields Q fs →
    Expr.EverywhereFields R fs
  | [], _, _ => trivial
  | (_, e) :: fs, hp, hq => ⟨Expr.Everywhere.map₂ h e hp.1 hq.1, Expr.EverywhereFields.map₂ h fs hp.2 hq.2⟩

end

theorem Expr.Everywhere.mono {Q : Expr → Prop} (h : ∀ e, P e → Q e) {e : Expr} (he : e.Everywhere P) :
    e.Everywhere Q :=
  Expr.Everywhere.map₂ (fun e hp _ => h e hp) e he he

theorem ForInit.Exprs.mono {Q : Expr → Prop} (h : ∀ e, P e → Q e) {init : ForInit} (hinit : init.Exprs P) :
    init.Exprs Q := by
  cases init with
  | expr e => exact Expr.Everywhere.mono h hinit
  | letDecl d => exact Expr.Everywhere.mono h hinit

mutual

theorem Stmt.Exprs.mono {Q : Expr → Prop} (h : ∀ e, P e → Q e) : (s : Stmt) → s.Exprs P → s.Exprs Q
  | .empty _, _ | .breakLoop _, _ | .continueLoop _, _ => trivial
  | .block body _, hs => Decl.ExprsList.mono h body hs
  | .ret _ _, hs => fun e he => (hs e he).mono h
  | .cond _ s none _, hs => ⟨hs.1.mono h, Stmt.Exprs.mono h s hs.2⟩
  | .cond _ s (some t) _, hs => ⟨hs.1.mono h, Stmt.Exprs.mono h s hs.2.1, Stmt.Exprs.mono h t hs.2.2⟩
  | .whileLoop _ body _, hs => ⟨hs.1.mono h, Stmt.Exprs.mono h body hs.2⟩
  | .forLoop _ _ _ body _, hs => ⟨fun i hi => (hs.1 i hi).mono h, fun e he => (hs.2.1 e he).mono h,
      fun e he => (hs.2.2.1 e he).mono h, Stmt.Exprs.mono h body hs.2.2.2⟩
  | .cases _ cs none _, hs => ⟨hs.1.mono h, Stmt.ExprsCases.mono h cs hs.2⟩
  | .cases _ cs (some s) _, hs =>
    ⟨hs.1.mono h, Stmt.ExprsCases.mono h cs hs.2.1, Stmt.Exprs.mono h s hs.2.2⟩
  | .expr _, hs => Expr.Everywhere.mono h hs

theorem Stmt.ExprsCases.mono {Q : Expr → Prop} (h : ∀ e, P e → Q e) :
    (cs : List (Pattern × Stmt)) → Stmt.ExprsCases P cs → Stmt.ExprsCases Q cs
  | [], _ => trivial
  | (_, s) :: cs, hs => ⟨Stmt.Exprs.mono h s hs.1, Stmt.ExprsCases.mono h cs hs.2⟩

theorem Decl.Exprs.mono {Q : Expr → Prop} (h : ∀ e, P e → Q e) : (d : Decl) → d.Exprs P → d.Exprs Q
  | .letDecl _, hd => Expr.Everywhere.mono h hd
  | .fn _ body, hd => Decl.ExprsList.mono h body hd
  | .stmt s, hd => Stmt.Exprs.mono h s hd

theorem Decl.ExprsList.mono {Q : Expr → Prop} (h : ∀ e, P e → Q e) :
    (ds : List Decl) → Decl.ExprsList P ds → Decl.ExprsList Q ds
  | [], _ => trivial
  | d :: ds, hds => ⟨Decl.Exprs.mono h d hds.1, Decl.ExprsList.mono h ds hds.2⟩

end

theorem Expr.everywhereList_iff {es : List Expr} :
    Expr.EverywhereList P es ↔ ∀ e ∈ es, e.Everywhere P := by
  induction es with
  | nil => simp [Expr.EverywhereList]
  | cons e es ih => simp [Expr.EverywhereList, ih]

theorem Expr.everywhereFields_iff {fs : List (String × Expr)} :
    Expr.EverywhereFields P fs ↔ ∀ f ∈ fs, f.2.Everywhere P := by
  induction fs with
  | nil => simp [Expr.EverywhereFields]
  | cons f fs ih => obtain ⟨n, e⟩ := f; simp [Expr.EverywhereFields, ih]

theorem Stmt.exprsCases_iff {cs : List (Pattern × Stmt)} :
    Stmt.ExprsCases P cs ↔ ∀ c ∈ cs, c.2.Exprs P := by
  induction cs with
  | nil => simp [Stmt.ExprsCases]
  | cons c cs ih => obtain ⟨p, s⟩ := c; simp [Stmt.ExprsCases, ih]

theorem Decl.exprsList_iff {ds : List Decl} : Decl.ExprsList P ds ↔ ∀ d ∈ ds, d.Exprs P := by
  induction ds with
  | nil => simp [Decl.ExprsList]
  | cons d ds ih => simp [Decl.ExprsList, ih]

end

end Reified
