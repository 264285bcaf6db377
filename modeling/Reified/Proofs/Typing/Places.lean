import Reified.Proofs.Tree.Exprs
import Reified.Proofs.Typing.Visits

/-!
# Where the check of an expression comes by

From the statements and declarations that the check gets to it goes on to the expressions in them, and from an
expression to the ones inside. Which type a part is checked against, and whether it is checked at all, is decided
by what is known when the check gets there.

The tree that a check answers is made up of the answers at the places that the check has come by: the children of
its statements, cases and expressions are none but these.

## Main definitions

* `Check.Focus` — a part of an expression, and the types it is checked against
* `Check.Enters` — how the check gets from a part to one inside
* `Check.Opens` — how it gets from a statement or declaration to the expressions in it
* `Check.Answered` — an expression is what the check at some place answers

## Main results

* `Check.answered_typing` — all expressions in the answer of a check are answers
* `Check.answered_decl` — so are those in a checked declaration
-/

namespace Reified

namespace Check

/-! ## Places -/

/-- A part of an expression that is checked by itself, and the types it is checked against. -/
inductive Focus where
  | expr (expected : Option Ty) (e : Expr)
  | list (expected : List Ty) (es : List Expr)
  | fields (expected : List Ty) (fs : List (String × Expr))

variable [Policy]

/-- With the form of the expected type at hand, the check of an expression gets to a part of it. -/
inductive Narrows (x form : Option Ty) : Expr → Checker → Focus → Checker → Prop
  | paren (n : Note) (e : Expr) (s : Checker) : Narrows x form (.paren n e) s (.expr x e) s
  | conditionLeft {op : BinOp} (n : Note) (l r : Expr) (s : Checker) : op = .and ∨ op = .or →
      Narrows x form (.binary n op l r) s (.expr (some .bool) l) s
  | conditionRight {op : BinOp} {a : Ty × Expr} {s s₁ : Checker} (n : Note) (l r : Expr) :
      op = .and ∨ op = .or → typing (some .bool) l s = .ok a s₁ →
      Narrows x form (.binary n op l r) s (.expr (some .bool) r) s₁
  | equalLeft (n : Note) (l r : Expr) (s : Checker) :
      Narrows x form (.binary n .equal l r) s (.expr none l) s
  | equalRight {a : Ty × Expr} {s s₁ : Checker} (n : Note) (l r : Expr) : typing none l s = .ok a s₁ →
      Narrows x form (.binary n .equal l r) s (.expr (some a.1) r) s₁
  | operandLeft {op : BinOp} {t p q result : Ty} {implicit : Nat} {s s₁ s₂ : Checker} (n : Note) (l r : Expr) :
      op ≠ .and → op ≠ .or → op ≠ .equal → lookup op.symbol n.span s = .ok t s₁ →
      resolve t s₁ = .ok (.fn [p, q] result implicit) s₂ →
      Narrows x form (.binary n op l r) s (.expr (some p) l) s₂
  | operandRight {op : BinOp} {t p q result : Ty} {implicit : Nat} {a : Ty × Expr} {s s₁ s₂ s₃ : Checker}
      (n : Note) (l r : Expr) : op ≠ .and → op ≠ .or → op ≠ .equal → lookup op.symbol n.span s = .ok t s₁ →
      resolve t s₁ = .ok (.fn [p, q] result implicit) s₂ → typing (some p) l s₂ = .ok a s₃ →
      Narrows x form (.binary n op l r) s (.expr (some q) r) s₃
  | knownFields {ts : List (String × Ty)} {fs : List (String × Expr)} (n : Note) (s : Checker) :
      form = some (.record ts) → Fields.names fs = Fields.names ts →
      Narrows x form (.object n fs) s (.fields (ts.map Prod.snd) fs) s
  | fields {fs : List (String × Expr)} (n : Note) (s : Checker) :
      (∀ ts, form = some (.record ts) → Fields.names fs ≠ Fields.names ts) →
      Narrows x form (.object n fs) s (.fields [] fs) s
  | knownItems {item : Ty} (n : Note) (es : List Expr) (s : Checker) : form = some (.array item) →
      Narrows x form (.array n es) s (.list (List.replicate es.length item) es) s
  | firstItem (n : Note) (e : Expr) (es : List Expr) (s : Checker) : (∀ item, form ≠ some (.array item)) →
      Narrows x form (.array n (e :: es)) s (.expr none e) s
  | nextItems {a : Ty × Expr} {s s₁ : Checker} (n : Note) (e : Expr) (es : List Expr) :
      (∀ item, form ≠ some (.array item)) → typing none e s = .ok a s₁ →
      Narrows x form (.array n (e :: es)) s (.list (List.replicate es.length a.1) es) s₁
  | knownPositions {ts : List Ty} {es : List Expr} (n : Note) (s : Checker) : form = some (.tuple ts) →
      es.length = ts.length → Narrows x form (.tuple n es) s (.list ts es) s
  | positions {es : List Expr} (n : Note) (s : Checker) :
      (∀ ts, form = some (.tuple ts) → es.length ≠ ts.length) → Narrows x form (.tuple n es) s (.list [] es) s
  | callee (n : Note) (callee : Expr) (args : List Expr) (slots : Option (List Ty)) (s : Checker) :
      Narrows x form (.call n callee args slots) s (.expr none callee) s
  | args {callee : Expr} {args : List Expr} {a : Ty × Expr} {params : List Ty} {result : Ty} {implicit : Nat}
      {r : List Ty × Ty × List Ty} {s s₁ s₂ s₃ : Checker} (n : Note) (slots : Option (List Ty)) :
      typing none callee s = .ok a s₁ → resolve a.1 s₁ = .ok (.fn params result implicit) s₂ →
      args.length = params.length - implicit →
      instantiateImplicit params result implicit n.span s₂ = .ok r s₃ →
      Narrows x form (.call n callee args slots) s (.list (r.1.drop implicit) args) s₃
  | openArgs {callee : Expr} {a : Ty × Expr} {v : TyVar} {s s₁ s₂ : Checker} (n : Note) (args : List Expr)
      (slots : Option (List Ty)) : typing none callee s = .ok a s₁ → resolve a.1 s₁ = .ok (.var v) s₂ →
      Narrows x form (.call n callee args slots) s (.list [] args) s₂
  | target (n : Note) (target index : Expr) (s : Checker) :
      Narrows x form (.subscript n target index) s (.expr none target) s
  | index {target : Expr} {a : Ty × Expr} {item : Ty} {s s₁ s₂ : Checker} (n : Note) (index : Expr) :
      typing none target s = .ok a s₁ → resolve a.1 s₁ = .ok (.array item) s₂ →
      Narrows x form (.subscript n target index) s (.expr (some .number) index) s₂
  | position {target index : Expr} {a : Ty × Expr} {items : List Ty} {whole : Ty} {i : Nat}
      {s s₁ s₂ s₃ : Checker} (n : Note) : typing none target s = .ok a s₁ →
      resolve a.1 s₁ = .ok (.tuple items) s₂ → resolveDeep a.1 s₂ = .ok whole s₃ →
      index.literalIndex? = some i → i < items.length →
      Narrows x form (.subscript n target index) s (.expr none index) s₃
  | openIndex {target : Expr} {a : Ty × Expr} {v : TyVar} {s s₁ s₂ : Checker} (n : Note) (index : Expr) :
      typing none target s = .ok a s₁ → resolve a.1 s₁ = .ok (.var v) s₂ →
      Narrows x form (.subscript n target index) s (.expr none index) s₂
  | object (n : Note) (o : Expr) (field : String) (s : Checker) :
      Narrows x form (.member n o field) s (.expr none o) s

/-- The check of a part gets to one inside. -/
inductive Enters : Focus → Checker → Focus → Checker → Prop
  | expr {x form : Option Ty} {e : Expr} {P : Focus} {s s₁ s₂ : Checker} : expectedForm x s = .ok form s₁ →
      Narrows x form e s₁ P s₂ → Enters (.expr x e) s P s₂
  | head (ts : List Ty) (e : Expr) (es : List Expr) (s : Checker) :
      Enters (.list ts (e :: es)) s (.expr ts.head? e) s
  | tail {ts : List Ty} {e : Expr} {a : Ty × Expr} {s s₁ : Checker} (es : List Expr) :
      typing ts.head? e s = .ok a s₁ → Enters (.list ts (e :: es)) s (.list ts.tail es) s₁
  | field (ts : List Ty) (name : String) (e : Expr) (fs : List (String × Expr)) (s : Checker) :
      Enters (.fields ts ((name, e) :: fs)) s (.expr ts.head? e) s
  | nextFields {ts : List Ty} {e : Expr} {a : Ty × Expr} {s s₁ : Checker} (name : String)
      (fs : List (String × Expr)) : typing ts.head? e s = .ok a s₁ →
      Enters (.fields ts ((name, e) :: fs)) s (.fields ts.tail fs) s₁

/-- The check of what a `for` loop does first, or of a declaration of a variable, gets to its expression. -/
inductive Initializes : ForInit → Checker → Focus → Checker → Prop
  | expr (e : Expr) (s : Checker) : Initializes (.expr e) s (.expr none e) s
  | annotated {d : LetDecl} {a : TypeExpr} {t : Ty} {s s₁ : Checker} : d.annotation = some a →
      typeExpr a s = .ok t s₁ → Initializes (.letDecl d) s (.expr (some t) d.init) s₁
  | inferred {d : LetDecl} (s : Checker) : d.annotation = none →
      Initializes (.letDecl d) s (.expr none d.init) s

/-- The check of a statement or declaration gets to an expression in it. -/
inductive Opens : Subject → Checker → Focus → Checker → Prop
  | ret {t u : Ty} {s : Checker} (e : Expr) (span : Span) : s.returns.head? = some t →
      Opens (.stmt u (.ret (some e) span)) s (.expr (some t) e) s
  | condition (t : Ty) (c : Expr) (st : Stmt) (alternate : Option Stmt) (span : Span) (s : Checker) :
      Opens (.stmt t (.cond c st alternate span)) s (.expr (some .bool) c) s
  | whileCondition (t : Ty) (c : Expr) (body : Stmt) (span : Span) (s : Checker) :
      Opens (.stmt t (.whileLoop c body span)) s (.expr (some .bool) c) s
  | forInit {init : ForInit} {P : Focus} {s s₁ s₂ : Checker} (t : Ty) (c increment : Option Expr) (body : Stmt)
      (span : Span) : pushScope s = .ok () s₁ → Initializes init s₁ P s₂ →
      Opens (.stmt t (.forLoop (some init) c increment body span)) s P s₂
  | forCondition {init init' : Option ForInit} {s s₁ s₂ : Checker} (t : Ty) (c : Expr)
      (increment : Option Expr) (body : Stmt) (span : Span) : pushScope s = .ok () s₁ →
      Check.forInit init s₁ = .ok init' s₂ →
      Opens (.stmt t (.forLoop init (some c) increment body span)) s (.expr (some .bool) c) s₂
  | forIncrement {init init' : Option ForInit} {c c' : Option Expr} {s s₁ s₂ s₃ : Checker} (t : Ty) (e : Expr)
      (body : Stmt) (span : Span) : pushScope s = .ok () s₁ → Check.forInit init s₁ = .ok init' s₂ →
      c.mapM Check.condition s₂ = .ok c' s₃ →
      Opens (.stmt t (.forLoop init c (some e) body span)) s (.expr none e) s₃
  | scrutinee (t : Ty) (e : Expr) (cs : List (Pattern × Stmt)) (default : Option Stmt) (span : Span)
      (s : Checker) : Opens (.stmt t (.cases e cs default span)) s (.expr none e) s
  | expr (t : Ty) (e : Expr) (s : Checker) : Opens (.stmt t (.expr e)) s (.expr (some t) e) s
  | letDecl {d : LetDecl} {P : Focus} {s s₁ : Checker} (t : Ty) : Initializes (.letDecl d) s P s₁ →
      Opens (.decl t (.letDecl d)) s P s₁

/-! ## Expressions -/

variable {U : Subject → Checker → Prop} {V : Focus → Checker → Prop} {x form : Option Ty} {s s' : Checker}

/-- With a place, all the places inside it are among the given ones. -/
def Entered (V : Focus → Checker → Prop) : Prop :=
  ∀ {P Q : Focus} {s s' : Checker}, V P s → Enters P s Q s' → V Q s'

/-- The expression is what the check at one of the places answers. -/
def Answered (V : Focus → Checker → Prop) (e : Expr) : Prop :=
  ∃ expected source s t s', V (.expr expected source) s ∧ typing expected source s = .ok (t, e) s'

omit [Policy] in
theorem conclude_eq_ok {found : Ty} {e : Expr} {r : Ty × Expr} (h : conclude x found e s = .ok r s') :
    r = (found, e.annotate found) := by
  unfold conclude at h
  cases x with
  | none =>
    cases h
    rfl
  | some t =>
    obtain ⟨⟨⟩, s₁, -, h⟩ := bind_eq_ok h
    cases h
    rfl

omit [Policy] in
/-- The recorded type is the answer. -/
theorem ty?_conclude {found t : Ty} {e e' : Expr} (h : conclude x found e s = .ok (t, e') s') :
    e'.ty? = some t := by
  obtain ⟨rfl, rfl⟩ := Prod.mk.inj (conclude_eq_ok h)
  cases e <;> rfl

mutual

/-- **All expressions in the answer of a check are answers** at the places that the check comes by. -/
theorem answered_typing (hV : Entered V) : (e : Expr) → ∀ {x : Option Ty} {s s' : Checker} {t : Ty} {e' : Expr},
    V (.expr x e) s → typing x e s = .ok (t, e') s' → e'.Everywhere (Answered V)
  | .ident n name, x, s, s', t, e', hplace, h => by
    have hself : Answered V e' := ⟨_, _, _, _, _, hplace, h⟩
    rw [typing] at h
    obtain ⟨form, s₁, -, h⟩ := bind_eq_ok h
    obtain ⟨u, s₂, -, h⟩ := bind_eq_ok h
    obtain ⟨-, rfl⟩ := Prod.mk.inj (conclude_eq_ok h)
    exact hself
  | .literal n v, x, s, s', t, e', hplace, h => by
    have hself : Answered V e' := ⟨_, _, _, _, _, hplace, h⟩
    rw [typing] at h
    obtain ⟨form, s₁, -, h⟩ := bind_eq_ok h
    obtain ⟨-, rfl⟩ := Prod.mk.inj (conclude_eq_ok h)
    exact hself
  | .paren n inner, x, s, s', t, e', hplace, h => by
    have hself : Answered V e' := ⟨_, _, _, _, _, hplace, h⟩
    rw [typing] at h
    obtain ⟨form, s₁, hform, h⟩ := bind_eq_ok h
    obtain ⟨a, s₂, hinner, h⟩ := bind_eq_ok h
    cases h
    exact ⟨hself, answered_typing hV inner (hV hplace (.expr hform (.paren n inner s₁))) hinner⟩
  | .binary n op l r, x, s, s', t, e', hplace, h => by
    have hself : Answered V e' := ⟨_, _, _, _, _, hplace, h⟩
    rw [typing] at h
    obtain ⟨form, s₁, hform, h⟩ := bind_eq_ok h
    have hin : ∀ {P : Focus} {s₂ : Checker}, Narrows x form (.binary n op l r) s₁ P s₂ → V P s₂ :=
      fun hinner => hV hplace (.expr hform hinner)
    -- whatever the operands are checked against, their answers are the operands of the answer
    have hoperands : ∀ {a b : Ty × Expr} {u : Ty} {s₂ : Checker},
        conclude x u (.binary n op a.2 b.2) s₂ = .ok (t, e') s' → a.2.Everywhere (Answered V) →
        b.2.Everywhere (Answered V) → e'.Everywhere (Answered V) := fun hend ha hb => by
      obtain ⟨-, rfl⟩ := Prod.mk.inj (conclude_eq_ok hend)
      exact ⟨hself, ha, hb⟩
    have hcondition : (op = .and ∨ op = .or) → (do
        let (_, l) ← typing (some .bool) l
        let (_, r) ← typing (some .bool) r
        conclude x .bool (.binary n op l r) : Check (Ty × Expr)) s₁ = .ok (t, e') s' →
        e'.Everywhere (Answered V) := fun hop h => by
      obtain ⟨a, s₂, hl, h⟩ := bind_eq_ok h
      obtain ⟨b, s₃, hr, h⟩ := bind_eq_ok h
      exact hoperands h (answered_typing hV l (hin (.conditionLeft n l r s₁ hop)) hl)
        (answered_typing hV r (hin (.conditionRight n l r hop hl)) hr)
    dsimp only at h
    split at h
    · exact hcondition (.inl rfl) h
    · exact hcondition (.inr rfl) h
    · obtain ⟨a, s₂, hl, h⟩ := bind_eq_ok h
      obtain ⟨b, s₃, hr, h⟩ := bind_eq_ok h
      exact hoperands h (answered_typing hV l (hin (.equalLeft n l r s₁)) hl)
        (answered_typing hV r (hin (.equalRight n l r hl)) hr)
    · next hand hor hequal =>
      obtain ⟨u, s₂, hlookup, h⟩ := bind_eq_ok h
      obtain ⟨w, s₃, hresolve, h⟩ := bind_eq_ok h
      split at h
      · obtain ⟨a, s₄, hl, h⟩ := bind_eq_ok h
        obtain ⟨b, s₅, hr, h⟩ := bind_eq_ok h
        exact hoperands h
          (answered_typing hV l (hin (.operandLeft n l r hand hor hequal hlookup hresolve)) hl)
          (answered_typing hV r (hin (.operandRight n l r hand hor hequal hlookup hresolve hl)) hr)
      · cases h
  | .object n fs, x, s, s', t, e', hplace, h => by
    have hself : Answered V e' := ⟨_, _, _, _, _, hplace, h⟩
    rw [typing] at h
    obtain ⟨form, s₁, hform, h⟩ := bind_eq_ok h
    have hinfer : (∀ ts, form = some (.record ts) → Fields.names fs ≠ Fields.names ts) → (do
        let (ts, fs) ← typingFields [] [] [] fs
        conclude x (.record ts) (.object n fs) : Check (Ty × Expr)) s₁ = .ok (t, e') s' →
        e'.Everywhere (Answered V) := fun hne h => by
      obtain ⟨a, s₂, hfs, h⟩ := bind_eq_ok h
      obtain ⟨-, rfl⟩ := Prod.mk.inj (conclude_eq_ok h)
      have hplace := hV hplace (.expr hform (.fields n s₁ hne))
      exact ⟨hself, answered_typingFields hV fs hplace (List.forall_mem_nil _) hfs⟩
    dsimp only at h
    split at h
    · next u ts =>
      split at h
      · next heq =>
        obtain ⟨a, s₂, hfs, h⟩ := bind_eq_ok h
        cases h
        have hplace := hV hplace (.expr hform (.knownFields n s₁ rfl heq))
        exact ⟨hself, answered_typingFields hV fs hplace (List.forall_mem_nil _) hfs⟩
      · next hne =>
        refine hinfer (fun ts' heq => ?_) h
        cases heq
        exact hne
    · next hform' =>
      refine hinfer (fun ts heq => ?_) h
      subst heq
      cases x with
      | none => cases hform
      | some u => exact absurd rfl (hform' u ts rfl)
  | .array n es, x, s, s', t, e', hplace, h => by
    have hself : Answered V e' := ⟨_, _, _, _, _, hplace, h⟩
    rw [typing] at h
    obtain ⟨form, s₁, hform, h⟩ := bind_eq_ok h
    dsimp only at h
    split at h
    · next u item =>
      obtain ⟨a, s₂, hes, h⟩ := bind_eq_ok h
      cases h
      have hplace := hV hplace (.expr hform (.knownItems n es s₁ rfl))
      exact ⟨hself, answered_typingList hV es hplace (List.forall_mem_nil _) hes⟩
    · next hform' =>
      have hne : ∀ item, form ≠ some (.array item) := fun item heq => by
        subst heq
        cases x with
        | none => cases hform
        | some u => exact absurd rfl (hform' u item rfl)
      cases es with
      | nil =>
        obtain ⟨u, s₂, -, h⟩ := bind_eq_ok h
        obtain ⟨-, rfl⟩ := Prod.mk.inj (conclude_eq_ok h)
        exact ⟨hself, trivial⟩
      | cons e es =>
        obtain ⟨a, s₂, he, h⟩ := bind_eq_ok h
        obtain ⟨b, s₃, hes, h⟩ := bind_eq_ok h
        obtain ⟨-, rfl⟩ := Prod.mk.inj (conclude_eq_ok h)
        have hfirst := answered_typing hV e (hV hplace (.expr hform (.firstItem n e es s₁ hne))) he
        have hplace := hV hplace (.expr hform (.nextItems n e es hne he))
        exact ⟨hself, hfirst, answered_typingList hV es hplace (List.forall_mem_nil _) hes⟩
  | .tuple n es, x, s, s', t, e', hplace, h => by
    have hself : Answered V e' := ⟨_, _, _, _, _, hplace, h⟩
    rw [typing] at h
    obtain ⟨form, s₁, hform, h⟩ := bind_eq_ok h
    have hinfer : (∀ ts, form = some (.tuple ts) → es.length ≠ ts.length) → (do
        let (ts, es) ← typingList [] [] [] es
        conclude x (.tuple ts) (.tuple n es) : Check (Ty × Expr)) s₁ = .ok (t, e') s' →
        e'.Everywhere (Answered V) := fun hne h => by
      obtain ⟨a, s₂, hes, h⟩ := bind_eq_ok h
      obtain ⟨-, rfl⟩ := Prod.mk.inj (conclude_eq_ok h)
      have hplace := hV hplace (.expr hform (.positions n s₁ hne))
      exact ⟨hself, answered_typingList hV es hplace (List.forall_mem_nil _) hes⟩
    dsimp only at h
    split at h
    · next u ts =>
      split at h
      · next heq =>
        obtain ⟨a, s₂, hes, h⟩ := bind_eq_ok h
        cases h
        have hplace := hV hplace (.expr hform (.knownPositions n s₁ rfl heq))
        exact ⟨hself, answered_typingList hV es hplace (List.forall_mem_nil _) hes⟩
      · next hne =>
        refine hinfer (fun ts' heq => ?_) h
        cases heq
        exact hne
    · next hform' =>
      refine hinfer (fun ts heq => ?_) h
      subst heq
      cases x with
      | none => cases hform
      | some u => exact absurd rfl (hform' u ts rfl)
  | .call n callee args slots, x, s, s', t, e', hplace, h => by
    have hself : Answered V e' := ⟨_, _, _, _, _, hplace, h⟩
    rw [typing] at h
    obtain ⟨form, s₁, hform, h⟩ := bind_eq_ok h
    have hin : ∀ {P : Focus} {s₂ : Checker}, Narrows x form (.call n callee args slots) s₁ P s₂ → V P s₂ :=
      fun hinner => hV hplace (.expr hform hinner)
    obtain ⟨a, s₂, hcallee, h⟩ := bind_eq_ok h
    have hfirst := answered_typing hV callee (hin (.callee n callee args slots s₁)) hcallee
    obtain ⟨u, s₃, hresolve, h⟩ := bind_eq_ok h
    split at h
    · next params result implicit =>
      dsimp only at h
      split at h
      · obtain ⟨_, _, hfail, _⟩ := bind_eq_ok h
        cases hfail
      · next hlength =>
        obtain ⟨r, s₄, hinstantiate, h⟩ := bind_eq_ok h
        obtain ⟨b, s₅, hargs, h⟩ := bind_eq_ok h
        obtain ⟨-, rfl⟩ := Prod.mk.inj (conclude_eq_ok h)
        have hplace := hin (.args n slots hcallee hresolve (not_not.mp hlength) hinstantiate)
        exact ⟨hself, hfirst, answered_typingList hV args hplace (List.forall_mem_nil _) hargs⟩
    · obtain ⟨b, s₄, hargs, h⟩ := bind_eq_ok h
      obtain ⟨w, s₅, -, h⟩ := bind_eq_ok h
      obtain ⟨-, rfl⟩ := Prod.mk.inj (conclude_eq_ok h)
      have hplace := hin (.openArgs n args slots hcallee hresolve)
      exact ⟨hself, hfirst, answered_typingList hV args hplace (List.forall_mem_nil _) hargs⟩
    · obtain ⟨_, _, _, hfail⟩ := bind_eq_ok h
      cases hfail
  | .subscript n target index, x, s, s', t, e', hplace, h => by
    have hself : Answered V e' := ⟨_, _, _, _, _, hplace, h⟩
    rw [typing] at h
    obtain ⟨form, s₁, hform, h⟩ := bind_eq_ok h
    have hin : ∀ {P : Focus} {s₂ : Checker}, Narrows x form (.subscript n target index) s₁ P s₂ → V P s₂ :=
      fun hinner => hV hplace (.expr hform hinner)
    obtain ⟨a, s₂, htarget, h⟩ := bind_eq_ok h
    have hfirst := answered_typing hV target (hin (.target n target index s₁)) htarget
    obtain ⟨u, s₃, hresolve, h⟩ := bind_eq_ok h
    split at h
    · obtain ⟨b, s₄, hindex, h⟩ := bind_eq_ok h
      obtain ⟨-, rfl⟩ := Prod.mk.inj (conclude_eq_ok h)
      exact ⟨hself, hfirst, answered_typing hV index (hin (.index n index htarget hresolve)) hindex⟩
    · next items =>
      obtain ⟨whole, s₄, hwhole, h⟩ := bind_eq_ok h
      cases hi : index.literalIndex? with
      | none =>
        rw [hi] at h
        cases h
      | some i =>
        rw [hi] at h
        dsimp only at h
        cases hitem : items[i]? with
        | none =>
          rw [hitem] at h
          cases h
        | some item =>
          rw [hitem] at h
          obtain ⟨b, s₅, hindex, h⟩ := bind_eq_ok h
          obtain ⟨-, rfl⟩ := Prod.mk.inj (conclude_eq_ok h)
          have hlt := (List.getElem?_eq_some_iff.mp hitem).1
          have hplace := hin (.position n htarget hresolve hwhole hi hlt)
          exact ⟨hself, hfirst, answered_typing hV index hplace hindex⟩
    · obtain ⟨b, s₄, hindex, h⟩ := bind_eq_ok h
      obtain ⟨w, s₅, -, h⟩ := bind_eq_ok h
      obtain ⟨-, rfl⟩ := Prod.mk.inj (conclude_eq_ok h)
      exact ⟨hself, hfirst, answered_typing hV index (hin (.openIndex n index htarget hresolve)) hindex⟩
    · obtain ⟨_, _, _, h⟩ := bind_eq_ok h
      obtain ⟨_, _, _, hfail⟩ := bind_eq_ok h
      cases hfail
  | .member n o field, x, s, s', t, e', hplace, h => by
    have hself : Answered V e' := ⟨_, _, _, _, _, hplace, h⟩
    rw [typing] at h
    obtain ⟨form, s₁, hform, h⟩ := bind_eq_ok h
    obtain ⟨a, s₂, ho, h⟩ := bind_eq_ok h
    obtain ⟨u, s₃, -, h⟩ := bind_eq_ok h
    obtain ⟨-, rfl⟩ := Prod.mk.inj (conclude_eq_ok h)
    exact ⟨hself, answered_typing hV o (hV hplace (.expr hform (.object n o field s₁))) ho⟩
  | .type n written, x, s, s', t, e', hplace, h => by
    have hself : Answered V e' := ⟨_, _, _, _, _, hplace, h⟩
    rw [typing] at h
    obtain ⟨form, s₁, -, h⟩ := bind_eq_ok h
    obtain ⟨⟨⟩, s₂, -, h⟩ := bind_eq_ok h
    obtain ⟨-, rfl⟩ := Prod.mk.inj (conclude_eq_ok h)
    exact hself

theorem answered_typingList (hV : Entered V) : (es : List Expr) → ∀ {ts found : List Ty} {done : List Expr}
    {s s' : Checker} {r : List Ty × List Expr}, V (.list ts es) s → (∀ e ∈ done, e.Everywhere (Answered V)) →
    typingList ts found done es s = .ok r s' → Expr.EverywhereList (Answered V) r.2
  | [], ts, found, done, s, s', r, _, hdone, h => by
    rw [typingList] at h
    cases h
    exact Expr.everywhereList_iff.mpr fun e he => hdone e (List.mem_reverse.mp he)
  | e :: es, ts, found, done, s, s', r, hplace, hdone, h => by
    rw [typingList] at h
    obtain ⟨a, s₁, he, h⟩ := bind_eq_ok h
    have hfirst := answered_typing hV e (hV hplace (.head ts e es s)) he
    exact answered_typingList hV es (hV hplace (.tail es he)) (List.forall_mem_cons.mpr ⟨hfirst, hdone⟩) h

theorem answered_typingFields (hV : Entered V) : (fs : List (String × Expr)) → ∀ {ts : List Ty}
    {found : List (String × Ty)} {done : List (String × Expr)} {s s' : Checker}
    {r : List (String × Ty) × List (String × Expr)}, V (.fields ts fs) s →
    (∀ f ∈ done, f.2.Everywhere (Answered V)) →
    typingFields ts found done fs s = .ok r s' → Expr.EverywhereFields (Answered V) r.2
  | [], ts, found, done, s, s', r, _, hdone, h => by
    rw [typingFields] at h
    cases h
    exact Expr.everywhereFields_iff.mpr fun f hf => hdone f (List.mem_reverse.mp hf)
  | (name, e) :: fs, ts, found, done, s, s', r, hplace, hdone, h => by
    rw [typingFields] at h
    obtain ⟨a, s₁, he, h⟩ := bind_eq_ok h
    have hfirst := answered_typing hV e (hV hplace (.field ts name e fs s)) he
    have hplace := hV hplace (.nextFields name fs he)
    exact answered_typingFields hV fs hplace (List.forall_mem_cons.mpr ⟨hfirst, hdone⟩) h

end

/-! ## Statements and declarations -/

/-- With a place, all the places inside it are among the given ones. -/
structure Closed (U : Subject → Checker → Prop) (V : Focus → Checker → Prop) : Prop where
  leads {P : Subject} {act : Check Ty} {inside : Ty → Subject} {t : Ty} {s s' : Checker} : U P s →
    Leads P act inside → act s = .ok t s' → U (inside t) s'
  opens {P : Subject} {Q : Focus} {s s' : Checker} : U P s → Opens P s Q s' → V Q s'
  enters : Entered V

theorem answered_check (hV : Entered V) {e e' : Expr} {t : Ty} (hplace : V (.expr (some t) e) s)
    (h : check e t s = .ok e' s') : e'.Everywhere (Answered V) := by
  rw [check, ← bind_pure_comp] at h
  obtain ⟨r, s₁, htyping, h⟩ := bind_eq_ok h
  cases h
  exact answered_typing hV e hplace htyping

theorem answered_infer (hV : Entered V) {e : Expr} {r : Ty × Expr} (hplace : V (.expr none e) s)
    (h : infer e s = .ok r s') : r.2.Everywhere (Answered V) :=
  answered_typing hV e hplace h

theorem answered_letDecl (hV : Entered V) {d d' : LetDecl}
    (hplace : ∀ {P : Focus} {s₁ : Checker}, Initializes (.letDecl d) s P s₁ → V P s₁)
    (h : letDecl d s = .ok d' s') : d'.init.Everywhere (Answered V) := by
  unfold letDecl at h
  cases ha : d.annotation with
  | some a =>
    rw [ha] at h
    obtain ⟨t, s₁, ht, h⟩ := bind_eq_ok h
    obtain ⟨init, s₂, hinit, h⟩ := bind_eq_ok h
    obtain ⟨⟨⟩, s₃, -, h⟩ := bind_eq_ok h
    cases h
    exact answered_check hV (hplace (.annotated ha ht)) hinit
  | none =>
    rw [ha] at h
    obtain ⟨r, s₁, hinit, h⟩ := bind_eq_ok h
    obtain ⟨⟨⟩, s₂, -, h⟩ := bind_eq_ok h
    cases h
    exact answered_infer hV (hplace (.inferred s ha)) hinit

theorem answered_forInit (hV : Entered V) {init init' : Option ForInit}
    (hplace : ∀ i ∈ init, ∀ {P : Focus} {s₁ : Checker}, Initializes i s P s₁ → V P s₁)
    (h : forInit init s = .ok init' s') : ∀ i ∈ init', i.Exprs (Answered V) := by
  unfold forInit at h
  split at h
  · cases h
    exact nofun
  · next e =>
    obtain ⟨r, s₁, he, h⟩ := bind_eq_ok h
    cases h
    rintro _ ⟨⟩
    exact answered_infer hV (hplace _ rfl (.expr e s)) he
  · next d =>
    obtain ⟨d', s₁, hd, h⟩ := bind_eq_ok h
    cases h
    rintro _ ⟨⟩
    exact answered_letDecl hV (hplace _ rfl) hd

omit [Policy] in
theorem answered_mapM {f : Expr → Check Expr} {P : Expr → Prop} {e e' : Option Expr}
    (hf : ∀ c ∈ e, ∀ {c'}, f c s = .ok c' s' → P c') (h : e.mapM f s = .ok e' s') : ∀ c ∈ e', P c := by
  cases e with
  | none =>
    cases h
    exact nofun
  | some c =>
    rw [Option.mapM_some, ← bind_pure_comp] at h
    obtain ⟨c', s₁, hc, h⟩ := bind_eq_ok h
    cases h
    rintro _ ⟨⟩
    exact hf c rfl hc

omit [Policy] in
theorem inBlock_eq (t : Ty) (body : List Decl) (span : Span) (declarations : Check (List Decl)) :
    inBlock t body span declarations = (do
      let _ ← openBlock t body span
      let body ← declarations
      popScope
      return body) := by
  unfold inBlock openBlock
  cases body.isEmpty <;> simp

omit [Policy] in
/-- The declarations of a block are checked against the type of the block. -/
theorem openBlock_eq_ok {t u : Ty} {body : List Decl} {span : Span} (h : openBlock t body span s = .ok u s') :
    u = t := by
  unfold openBlock at h
  obtain ⟨⟨⟩, s₁, -, h⟩ := bind_eq_ok h
  obtain ⟨⟨⟩, s₂, -, h⟩ := bind_eq_ok h
  split at h
  · obtain ⟨⟨⟩, s₃, -, h⟩ := bind_eq_ok h
    cases h
    rfl
  · cases h
    rfl

omit [Policy] in
/-- A function is checked from its own frame and scope on, its body against its result type. -/
theorem function_eq_ok {head : FnHead} {body : Ty → Check (List Decl)} {r : FnHead × List Decl}
    (h : function head body s = .ok r s') : ∃ a s₁ s₂ s₃, pushFrame s = .ok () s₁ ∧
      enterFunction head s₁ = .ok a s₂ ∧ body a.2.1 s₂ = .ok r.2 s₃ := by
  rw [function_eq] at h
  unfold fnType at h
  rw [fnBody_eq] at h
  simp only [bind_assoc, pure_bind] at h
  obtain ⟨⟨⟩, s₁, hpush, h⟩ := bind_eq_ok h
  obtain ⟨a, s₂, henter, h⟩ := bind_eq_ok h
  obtain ⟨body', s₃, hbody, h⟩ := bind_eq_ok h
  obtain ⟨⟨⟩, s₄, -, h⟩ := bind_eq_ok h
  obtain ⟨⟨⟩, s₅, -, h⟩ := bind_eq_ok h
  obtain ⟨⟨⟩, s₆, -, h⟩ := bind_eq_ok h
  obtain ⟨signature, s₇, -, h⟩ := bind_eq_ok h
  obtain ⟨⟨⟩, s₈, -, h⟩ := bind_eq_ok h
  cases h
  exact ⟨a, s₁, s₂, s₃, hpush, henter, hbody⟩

omit [Policy] in
/-- A unification at the end of a check. -/
theorem unless_eq_ok {α : Type} {c : Prop} [Decidable c] {t u : Ty} {span : Span} {a b : α}
    (h : (do
      unless c do unify t u span
      return a : Check α) s = .ok b s') : b = a := by
  by_cases hc : c
  · simp only [if_pos hc] at h
    cases h
    rfl
  · simp only [if_neg hc] at h
    obtain ⟨⟨⟩, s₁, -, h⟩ := bind_eq_ok h
    cases h
    rfl

variable {t : Ty}

theorem answered_inBlock {body body' : List Decl} {span : Span} {declarations : Check (List Decl)}
    (hbody : ∀ {s₁ s₂ : Checker} {ds : List Decl}, openBlock t body span s = .ok t s₁ →
      declarations s₁ = .ok ds s₂ → Decl.ExprsList (Answered V) ds)
    (h : inBlock t body span declarations s = .ok body' s') : Decl.ExprsList (Answered V) body' := by
  rw [inBlock_eq] at h
  obtain ⟨u, s₁, hopen, h⟩ := bind_eq_ok h
  obtain ⟨ds, s₂, hdecls, h⟩ := bind_eq_ok h
  obtain ⟨⟨⟩, s₃, -, h⟩ := bind_eq_ok h
  cases h
  obtain rfl := openBlock_eq_ok hopen
  exact hbody hopen hdecls

mutual

/-- All expressions in a checked statement are answers at the places that the check comes by. -/
theorem answered_stmt (hUV : Closed U V) : (st : Stmt) → ∀ {t : Ty} {s s' : Checker} {st' : Stmt},
    U (.stmt t st) s → stmt t st s = .ok st' s' → st'.Exprs (Answered V)
  | .empty span, t, s, s', st', _, h => by
    rw [stmt] at h
    obtain ⟨⟨⟩, s₁, -, h⟩ := bind_eq_ok h
    cases h
    trivial
  | .block body span, t, s, s', st', hplace, h => by
    rw [stmt] at h
    obtain ⟨body', s₁, hbody, h⟩ := bind_eq_ok h
    cases h
    refine answered_inBlock (fun hopen hdecls => ?_) hbody
    exact answered_decls hUV body (hUV.leads hplace (.block body span) hopen) (List.forall_mem_nil _) hdecls
  | .ret value span, t, s, s', st', hplace, h => by
    rw [stmt] at h
    obtain ⟨s₀, s₁, hget, h⟩ := bind_eq_ok h
    cases hget
    cases hu : s.returns.head? with
    | none =>
      rw [hu] at h
      cases h
    | some u =>
      rw [hu] at h
      cases value with
      | some e =>
        obtain ⟨e', s₁, he, h⟩ := bind_eq_ok h
        cases h
        rintro _ ⟨⟩
        exact answered_check hUV.enters (hUV.opens hplace (.ret e span hu)) he
      | none =>
        obtain ⟨⟨⟩, s₁, -, h⟩ := bind_eq_ok h
        cases h
        exact nofun
  | .cond c st none span, t, s, s', st', hplace, h => by
    rw [stmt] at h
    obtain ⟨c', s₁, hc, h⟩ := bind_eq_ok h
    obtain ⟨u, s₂, hfresh, h⟩ := bind_eq_ok h
    obtain ⟨st₁, s₃, hst, h⟩ := bind_eq_ok h
    obtain ⟨⟨⟩, s₄, -, h⟩ := bind_eq_ok h
    cases h
    refine ⟨answered_check hUV.enters (hUV.opens hplace (.condition t c st none span s)) hc, ?_⟩
    exact answered_stmt hUV st
      (hUV.leads hplace (.onlyBranch c st span) ((bind_of_ok hc).trans hfresh)) hst
  | .cond c st (some alternate) span, t, s, s', st', hplace, h => by
    rw [stmt] at h
    obtain ⟨c', s₁, hc, h⟩ := bind_eq_ok h
    obtain ⟨st₁, s₂, hst, h⟩ := bind_eq_ok h
    obtain ⟨st₂, s₃, halternate, h⟩ := bind_eq_ok h
    cases h
    have hthen := hUV.leads hplace (.thenBranch c st alternate span) (bind_of_ok hc)
    have helse := hUV.leads hplace (.elseBranch c st alternate span)
      ((bind_of_ok hc).trans (bind_of_ok hst))
    refine ⟨answered_check hUV.enters (hUV.opens hplace (.condition t c st _ span s)) hc, ?_, ?_⟩
    · exact answered_stmt hUV st hthen hst
    · exact answered_stmt hUV alternate helse halternate
  | .whileLoop c body span, t, s, s', st', hplace, h => by
    rw [stmt] at h
    obtain ⟨c', s₁, hc, h⟩ := bind_eq_ok h
    obtain ⟨⟨⟩, s₂, hdepth, h⟩ := bind_eq_ok h
    obtain ⟨u, s₃, hfresh, h⟩ := bind_eq_ok h
    obtain ⟨body', s₄, hbody, h⟩ := bind_eq_ok h
    obtain ⟨⟨⟩, s₅, -, h⟩ := bind_eq_ok h
    obtain rfl := unless_eq_ok h
    refine ⟨answered_check hUV.enters (hUV.opens hplace (.whileCondition t c body span s)) hc, ?_⟩
    exact answered_stmt hUV body (hUV.leads hplace (.whileBody c body span)
      ((bind_of_ok hc).trans ((bind_of_ok hdepth).trans hfresh))) hbody
  | .forLoop init c increment body span, t, s, s', st', hplace, h => by
    rw [stmt] at h
    obtain ⟨⟨⟩, s₁, hpush, h⟩ := bind_eq_ok h
    obtain ⟨init', s₂, hinit, h⟩ := bind_eq_ok h
    obtain ⟨c', s₃, hc, h⟩ := bind_eq_ok h
    obtain ⟨increment', s₄, hincrement, h⟩ := bind_eq_ok h
    obtain ⟨⟨⟩, s₅, hdepth, h⟩ := bind_eq_ok h
    obtain ⟨u, s₆, hfresh, h⟩ := bind_eq_ok h
    obtain ⟨body', s₇, hbody, h⟩ := bind_eq_ok h
    obtain ⟨⟨⟩, s₈, -, h⟩ := bind_eq_ok h
    obtain ⟨⟨⟩, s₉, -, h⟩ := bind_eq_ok h
    obtain rfl := unless_eq_ok h
    refine ⟨answered_forInit hUV.enters (fun i hi _ _ hinitializes => ?_) hinit,
      answered_mapM (fun e he _ hok => ?_) hc, answered_mapM (fun e he _ hok => ?_) hincrement, ?_⟩
    · obtain rfl := Option.mem_def.mp hi
      exact hUV.opens hplace (.forInit t c increment body span hpush hinitializes)
    · obtain rfl := Option.mem_def.mp he
      exact answered_check hUV.enters
        (hUV.opens hplace (.forCondition t e increment body span hpush hinit)) hok
    · obtain rfl := Option.mem_def.mp he
      rw [← bind_pure_comp] at hok
      obtain ⟨r, s₁₀, hinfer, hok⟩ := bind_eq_ok hok
      cases hok
      exact answered_infer hUV.enters
        (hUV.opens hplace (.forIncrement t e body span hpush hinit hc)) hinfer
    · refine answered_stmt hUV body (hUV.leads hplace (.forBody init c increment body span) ?_) hbody
      exact (bind_of_ok hpush).trans ((bind_of_ok hinit).trans ((bind_of_ok hc).trans
        ((bind_of_ok hincrement).trans ((bind_of_ok hdepth).trans hfresh))))
  | .breakLoop span, t, s, s', st', _, h | .continueLoop span, t, s, s', st', _, h => by
    rw [stmt] at h
    obtain ⟨⟨⟩, s₁, -, h⟩ := bind_eq_ok h
    cases h
    trivial
  | .cases scrutinee cs none span, t, s, s', st', hplace, h => by
    rw [stmt] at h
    obtain ⟨r, s₁, hscrutinee, h⟩ := bind_eq_ok h
    obtain ⟨cs', s₂, hcs, h⟩ := bind_eq_ok h
    cases h
    have hcases : U (.cases t r.1 cs) s₁ := hUV.leads hplace (.cases scrutinee cs none span)
      (by rw [← bind_pure_comp]; exact bind_of_ok hscrutinee)
    refine ⟨answered_infer hUV.enters (hUV.opens hplace (.scrutinee t scrutinee cs none span s)) hscrutinee, ?_⟩
    exact answered_matchCases hUV cs hcases (List.forall_mem_nil _) hcs
  | .cases scrutinee cs (some default) span, t, s, s', st', hplace, h => by
    rw [stmt] at h
    obtain ⟨r, s₁, hscrutinee, h⟩ := bind_eq_ok h
    obtain ⟨cs', s₂, hcs, h⟩ := bind_eq_ok h
    obtain ⟨default', s₃, hdefault, h⟩ := bind_eq_ok h
    cases h
    have hcases : U (.cases t r.1 cs) s₁ := hUV.leads hplace (.cases scrutinee cs (some default) span)
      (by rw [← bind_pure_comp]; exact bind_of_ok hscrutinee)
    have hlast := hUV.leads hplace (.default scrutinee cs default span)
      ((bind_of_ok hscrutinee).trans (bind_of_ok hcs))
    refine ⟨answered_infer hUV.enters (hUV.opens hplace (.scrutinee t scrutinee cs _ span s)) hscrutinee, ?_, ?_⟩
    · exact answered_matchCases hUV cs hcases (List.forall_mem_nil _) hcs
    · exact answered_stmt hUV default hlast hdefault
  | .expr e, t, s, s', st', hplace, h => by
    rw [stmt] at h
    obtain ⟨e', s₁, he, h⟩ := bind_eq_ok h
    cases h
    exact answered_check hUV.enters (hUV.opens hplace (.expr t e s)) he

theorem answered_matchCases (hUV : Closed U V) : (cs : List (Pattern × Stmt)) → ∀ {t u : Ty}
    {done cs' : List (Pattern × Stmt)} {s s' : Checker}, U (.cases t u cs) s →
    (∀ c ∈ done, c.2.Exprs (Answered V)) → matchCases t u done cs s = .ok cs' s' →
    Stmt.ExprsCases (Answered V) cs'
  | [], t, u, done, cs', s, s', _, hdone, h => by
    rw [matchCases] at h
    cases h
    exact Stmt.exprsCases_iff.mpr fun c hc => hdone c (List.mem_reverse.mp hc)
  | (p, st) :: cs, t, u, done, cs', s, s', hplace, hdone, h => by
    rw [matchCases] at h
    obtain ⟨⟨⟩, s₁, hpush, h⟩ := bind_eq_ok h
    obtain ⟨⟨⟩, s₂, hpattern, h⟩ := bind_eq_ok h
    obtain ⟨st', s₃, hst, h⟩ := bind_eq_ok h
    obtain ⟨⟨⟩, s₄, hpop, h⟩ := bind_eq_ok h
    have hbody := hUV.leads hplace (.caseBody p st cs) ((bind_of_ok hpush).trans (bind_of_ok hpattern))
    have hnext := hUV.leads hplace (.nextCases p st cs) ((bind_of_ok hpush).trans
      ((bind_of_ok hpattern).trans ((bind_of_ok hst).trans (bind_of_ok hpop))))
    have hfirst := answered_stmt hUV st hbody hst
    exact answered_matchCases hUV cs hnext (List.forall_mem_cons.mpr ⟨hfirst, hdone⟩) h

theorem answered_decls (hUV : Closed U V) : (ds : List Decl) → ∀ {t : Ty} {done ds' : List Decl}
    {s s' : Checker}, U (.decls t ds) s → (∀ d ∈ done, d.Exprs (Answered V)) →
    decls t done ds s = .ok ds' s' → Decl.ExprsList (Answered V) ds'
  | [], t, done, ds', s, s', _, hdone, h => by
    rw [decls] at h
    cases h
    exact Decl.exprsList_iff.mpr fun d hd => hdone d (List.mem_reverse.mp hd)
  | d :: ds, t, done, ds', s, s', hplace, hdone, h => by
    rw [decls] at h
    obtain ⟨u, s₁, hcompletion, h⟩ := bind_eq_ok h
    obtain ⟨d', s₂, hd, h⟩ := bind_eq_ok h
    have hfirst := answered_decl hUV d (hUV.leads hplace (.first d ds) hcompletion) hd
    have hrest := hUV.leads hplace (.rest d ds) ((bind_of_ok hcompletion).trans (bind_of_ok hd))
    exact answered_decls hUV ds hrest (List.forall_mem_cons.mpr ⟨hfirst, hdone⟩) h

/-- **All expressions in a checked declaration are answers** at the places that the check comes by. -/
theorem answered_decl (hUV : Closed U V) : (d : Decl) → ∀ {t : Ty} {s s' : Checker} {d' : Decl},
    U (.decl t d) s → decl t d s = .ok d' s' → d'.Exprs (Answered V)
  | .letDecl d, t, s, s', d', hplace, h => by
    rw [decl] at h
    obtain ⟨d₁, s₁, hd, h⟩ := bind_eq_ok h
    obtain ⟨⟨⟩, s₂, -, h⟩ := bind_eq_ok h
    cases h
    exact answered_letDecl hUV.enters (fun hinitializes => hUV.opens hplace (.letDecl t hinitializes)) hd
  | .fn head body, t, s, s', d', hplace, h => by
    rw [decl] at h
    obtain ⟨r, s₁, hfunction, h⟩ := bind_eq_ok h
    obtain ⟨⟨⟩, s₂, -, h⟩ := bind_eq_ok h
    cases h
    obtain ⟨a, s₃, s₄, s₅, hpush, henter, hblock⟩ := function_eq_ok hfunction
    refine answered_inBlock (fun hopen hdecls => ?_) hblock
    have hbody := hUV.leads hplace (.body head body)
      ((bind_of_ok hpush).trans ((bind_of_ok henter).trans hopen))
    exact answered_decls hUV body hbody (List.forall_mem_nil _) hdecls
  | .stmt st, t, s, s', d', hplace, h => by
    rw [decl] at h
    obtain ⟨st', s₁, hst, h⟩ := bind_eq_ok h
    cases h
    exact answered_stmt hUV st (hUV.leads hplace (.statement st) rfl) hst

end

end Check

end Reified
