import Reified.Typing.TypeExpr

/-!
# Checking expressions

An expression is checked in one of two ways. Without an expected type its type is inferred. With
one, parentheses, and the literals whose shape is that of the expected type, hand the expected types
of their parts down to the parts; for every other expression the inferred type is unified with the
expected one.

Nothing is known statically about a value whose type is still a variable. A call, an element or a
field of such a value is accepted, with a fresh variable as its type, and decided when the program
runs.

## Main definitions

* `Check.typing` — both ways of checking an expression
* `Check.infer`, `Check.check` — each of them
-/

namespace Reified

namespace Check

/-- The slots of the inferred parameters of a call: a fresh variable for each, replacing the
variable that the slot of the signature holds. The image grows at its front, so that of two slots
with one variable the later counts. -/
def openSlots (span : Span) :
    List Ty → (image : List (Nat × Ty)) → (slots : List Ty) → Check (List (Nat × Ty) × List Ty)
  | [], image, slots => pure (image, slots.reverse)
  | slot :: rest, image, slots => do
    let (name, inner) := match slot with
      | .binding n t => (n, t)
      | t => ("", t)
    let inner ← resolve inner
    let v ← newVar name true false
    match inner with
    | .var w => openSlots span rest ((w.id, v) :: image) (v :: slots)
    | t => do
      unify v t span
      openSlots span rest image (v :: slots)

/-- `substitute` on each type of a list. -/
def substituteAll (image : List (Nat × Ty)) (done : List Ty) : List Ty → Check (List Ty)
  | [] => pure done.reverse
  | t :: ts => do substituteAll image ((← substitute image t) :: done) ts

/-- The parameters and the result of a callee, with fresh variables for its first `implicit`
parameters, and these variables. -/
def instantiateImplicit (params : List Ty) (result : Ty) (implicit : Nat) (span : Span) :
    Check (List Ty × Ty × List Ty) := do
  if implicit = 0 then return (params, result, [])
  let (image, slots) ← openSlots span (params.take implicit) [] []
  let params ← substituteAll image [] params
  let result ← substitute image result
  return (params, result, slots)

/-- Record the inferred type of an expression, and unify it with the expected one if there is
one. -/
def conclude (expected : Option Ty) (found : Ty) (e : Expr) : Check (Ty × Expr) := do
  let e := e.annotate found
  if let some t := expected then unify t found e.span
  return (found, e)

/-- The type of a field, when the type of the object tells. A union or a variable does not. -/
def fieldType [Policy] (object : Ty) (field : String) (span : Span) : Check Ty := do
  match ← resolve object with
  | .record fs =>
    match Fields.get? field fs with
    | some t => pure t
    | none => fail (.missingField field (← resolveDeep object)) span
  | .var _ | .union .. => hole field span
  | other => fail (.missingField field (← resolveDeep other)) span

/-- The representative of the expected type, if there is one. -/
def expectedForm : Option Ty → Check (Option Ty)
  | some t => some <$> resolve t
  | none => pure none

mutual

/-- Check an expression against an expected type, or infer its type when none is given. The answer
is that type, and the expression with the types found in it. -/
def typing [Policy] (expected : Option Ty) (e : Expr) : Check (Ty × Expr) := do
  let form ← expectedForm expected
  match e with
  | .ident n x => do
    conclude expected (← lookup x n.span) (.ident n x)
  | .literal n v => conclude expected v.ty (.literal n v)
  | .paren n inner => do
    let (found, inner) ← typing expected inner
    let t := expected.getD found
    return (t, .paren ⟨n.span, some t⟩ inner)
  | .binary n op l r => do
    match op with
    | .and | .or => do
      let (_, l) ← typing (some .bool) l
      let (_, r) ← typing (some .bool) r
      conclude expected .bool (.binary n op l r)
    | .equal => do
      let (t, l) ← typing none l
      let (_, r) ← typing (some t) r
      conclude expected .bool (.binary n op l r)
    | op => do
      match ← resolve (← lookup op.symbol n.span) with
      | .fn [p, q] result _ => do
        let (_, l) ← typing (some p) l
        let (_, r) ← typing (some q) r
        conclude expected result (.binary n op l r)
      | other => fail (.misuse (.operatorBound op.symbol other)) n.span
  | .object n fs => do
    match expected, form with
    | some t, some (.record ts) =>
      if Fields.names fs = Fields.names ts then do
        let (_, fs) ← typingFields (ts.map Prod.snd) [] [] fs
        return (t, .object ⟨n.span, some t⟩ fs)
      else do
        let (ts, fs) ← typingFields [] [] [] fs
        conclude expected (.record ts) (.object n fs)
    | _, _ => do
      let (ts, fs) ← typingFields [] [] [] fs
      conclude expected (.record ts) (.object n fs)
  | .array n es => do
    match expected, form with
    | some t, some (.array item) => do
      let (_, es) ← typingList (List.replicate es.length item) [] [] es
      return (t, .array ⟨n.span, some t⟩ es)
    | _, _ => do
      match es with
      | [] => conclude expected (.array (← freshVar "")) (.array n [])
      | first :: rest => do
        let (item, first) ← typing none first
        let (_, rest) ← typingList (List.replicate rest.length item) [] [] rest
        conclude expected (.array item) (.array n (first :: rest))
  | .tuple n es => do
    match expected, form with
    | some t, some (.tuple ts) =>
      if es.length = ts.length then do
        let (_, es) ← typingList ts [] [] es
        return (t, .tuple ⟨n.span, some t⟩ es)
      else do
        let (ts, es) ← typingList [] [] [] es
        conclude expected (.tuple ts) (.tuple n es)
    | _, _ => do
      let (ts, es) ← typingList [] [] [] es
      conclude expected (.tuple ts) (.tuple n es)
  | .call n callee args _ => do
    let (t, callee) ← typing none callee
    match ← resolve t with
    | .fn params result implicit => do
      let explicit := params.length - implicit
      if args.length ≠ explicit then fail (.arity explicit args.length) n.span
      let (params, result, slots) ← instantiateImplicit params result implicit n.span
      let (_, args) ← typingList (params.drop implicit) [] [] args
      conclude expected result (.call n callee args (some slots))
    | .var _ => do
      let (_, args) ← typingList [] [] [] args
      conclude expected (← hole "" n.span) (.call n callee args none)
    | other => fail (.misuse (.notCallable (← resolveDeep other))) n.span
  | .subscript n target index => do
    let (t, target) ← typing none target
    match ← resolve t with
    | .array item => do
      let (_, index) ← typing (some .number) index
      conclude expected item (.subscript n target index)
    | .tuple items => do
      let whole ← resolveDeep t
      match index.literalIndex? with
      | none => fail (.misuse (.tupleIndexNotLiteral whole)) n.span
      | some i =>
        match items[i]? with
        | none => fail (.misuse (.tupleIndexOutOfRange i whole)) n.span
        | some item => do
          let (_, index) ← typing none index
          conclude expected item (.subscript n target index)
    | .var _ => do
      let (_, index) ← typing none index
      conclude expected (← hole "" n.span) (.subscript n target index)
    | other => do
      let item ← freshVar ""
      fail (.mismatch (.array item) (← resolveDeep other)) n.span
  | .member n object field => do
    let (t, object) ← typing none object
    conclude expected (← fieldType t field n.span) (.member n object field)
  | .type n t => do
    typeValue t n.span
    conclude expected .type (.type n t)

/-- Check the expressions of a list in turn, each against the expected type at its position, and
infer those beyond the expected types. The types and expressions done so far are passed along, the
latest first. -/
def typingList [Policy] (expected found : List Ty) (done : List Expr) :
    List Expr → Check (List Ty × List Expr)
  | [] => pure (found.reverse, done.reverse)
  | e :: es => do
    let (t, e) ← typing expected.head? e
    typingList expected.tail (t :: found) (e :: done) es

/-- `typingList` on the expressions of named fields. -/
def typingFields [Policy] (expected : List Ty) (found : List (String × Ty)) (done : List (String × Expr)) :
    List (String × Expr) → Check (List (String × Ty) × List (String × Expr))
  | [] => pure (found.reverse, done.reverse)
  | (name, e) :: fs => do
    let (t, e) ← typing expected.head? e
    typingFields expected.tail ((name, t) :: found) ((name, e) :: done) fs

end

/-- Infer the type of an expression. -/
def infer [Policy] (e : Expr) : Check (Ty × Expr) := typing none e

/-- Check an expression against a type. -/
def check [Policy] (e : Expr) (expected : Ty) : Check Expr :=
  Prod.snd <$> typing (some expected) e

-- The equations are made here, once for all the proofs that use them.
attribute [local simp] typing typingList typingFields

end Check

end Reified
