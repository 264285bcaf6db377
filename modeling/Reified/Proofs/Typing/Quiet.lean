import Reified.Proofs.Frames.Settle
import Reified.Proofs.Typing.Signed
import Reified.Typing.Stmt

/-!
# What checking an expression leaves alone

Checking an expression changes the table and the variables that wait for frames to close, and nothing else,
whether it succeeds or fails: names come into scope by declarations and patterns only, and the functions and
loops around a place are those of the statements around it.

## Main definitions

* `Checker.Setting` — all of a checker but its table and the variables that wait for its frames
* `Check.Leaves` — an action that leaves a part of the checker as it is
* `Check.Quiet` — an action that leaves the setting as it is

## Main results

* `Check.quiet_typing` — checking an expression
-/

namespace Reified

/-- All of a checker but its table and the variables that wait for its frames to close. -/
structure Checker.Setting where
  scope : Scope
  frameDepth : Nat
  diagnostics : Diagnostics
  returns : List Ty
  loopDepth : Nat

/-- All of a checker but its table and the variables that wait for its frames to close. -/
def Checker.setting (s : Checker) : Checker.Setting :=
  ⟨s.scope, s.frames.depth, s.diagnostics, s.returns, s.loopDepth⟩

namespace Check

variable {α β : Type}

/-- The action leaves a part of the checker as it is, whether it succeeds or fails. -/
structure Leaves {γ : Type} (part : Checker → γ) (act : Check α) : Prop where
  ensures : ∀ x, Ensures (fun s => part s = x) (fun _ => True) act

/-- The action changes the table and the variables that wait for frames only. -/
abbrev Quiet (act : Check α) : Prop := Leaves Checker.setting act

namespace Leaves

variable {γ δ : Type} {part : Checker → γ} {act : Check α}

theorem pure (a : α) : Leaves part (Pure.pure a) := ⟨fun _ => .pure trivial⟩

theorem fail (e : TyError) (span : Span) : Leaves part (Check.fail e span : Check α) :=
  ⟨fun _ => .fail e span⟩

theorem throw (e : CheckError) : Leaves part (MonadExcept.throw e : Check α) := ⟨fun _ => .throw e⟩

theorem get : Leaves part (MonadState.get : Check Checker) :=
  ⟨fun _ => Ensures.get.mono fun _ _ => trivial⟩

theorem bind {next : α → Check β} (h : Leaves part act) (hnext : ∀ a, Leaves part (next a)) :
    Leaves part (act >>= next) :=
  ⟨fun x => (h.ensures x).bind fun a _ => (hnext a).ensures x⟩

theorem map {f : α → β} (h : Leaves part act) : Leaves part (f <$> act) :=
  ⟨fun x => (h.ensures x).map fun _ _ => trivial⟩

theorem ite {c : Prop} [Decidable c] {x y : Check α} (hx : Leaves part x) (hy : Leaves part y) :
    Leaves part (if c then x else y) := by
  split
  · exact hx
  · exact hy

/-- What depends only on the part is left as it is, too. -/
theorem of_eq {part' : Checker → δ} (h : Leaves part act) (g : γ → δ)
    (hpart : ∀ s, part' s = g (part s)) : Leaves part' act := by
  refine ⟨fun x s hs => ?_⟩
  have h1 := h.ensures (part s) s rfl
  cases hact : act s with
  | ok a s' =>
    rw [hact] at h1
    exact ⟨(hpart s').trans ((congrArg g h1.1).trans ((hpart s).symm.trans hs)), trivial⟩
  | error e s' =>
    rw [hact] at h1
    exact (hpart s').trans ((congrArg g h1).trans ((hpart s).symm.trans hs))

theorem eq_of_ok (h : Leaves part act) {s s' : Checker} {a : α} (hact : act s = .ok a s') :
    part s' = part s := by
  have h1 := h.ensures (part s) s rfl
  rw [hact] at h1
  exact h1.1

theorem eq_of_error (h : Leaves part act) {s s' : Checker} {e : CheckError}
    (hact : act s = .error e s') : part s' = part s := by
  have h1 := h.ensures (part s) s rfl
  rw [hact] at h1
  exact h1

end Leaves

/-! ## Elementary actions -/

theorem quiet_onTable (f : Table → α × Table) : Quiet (onTable f) :=
  ⟨fun _ _ h => ⟨h, trivial⟩⟩

theorem quiet_onFrames {f : Frames → Table → α × Frames × Table}
    (hf : ∀ F T, (f F T).2.1.depth = F.depth) : Quiet (onFrames f) := by
  refine ⟨fun x s h => ⟨h ▸ ?_, trivial⟩⟩
  exact congrArg (Checker.Setting.mk s.scope · s.diagnostics s.returns s.loopDepth) (hf s.frames s.table)

theorem quiet_resolve (t : Ty) : Quiet (resolve t) := quiet_onTable _

theorem quiet_resolveDeep (t : Ty) : Quiet (resolveDeep t) := quiet_onTable _

theorem quiet_substitute (image : List (Nat × Ty)) (t : Ty) : Quiet (substitute image t) :=
  quiet_onTable _

theorem quiet_unify (t u : Ty) (span : Span) : Quiet (unify t u span) := by
  constructor
  rintro around ⟨T, S, F, D, R, L⟩ h
  simp only [unify]
  cases T.unify t u with
  | ok _ T' => exact ⟨h, trivial⟩
  | error e T' => exact h

theorem quiet_newVar (name : String) (inferred rigid : Bool) : Quiet (newVar name inferred rigid) :=
  quiet_onFrames fun F _ => F.depth_record _

theorem quiet_freshVar (name : String) : Quiet (freshVar name) := quiet_newVar name false false

theorem quiet_instantiate (t : Ty) : Quiet (instantiate t) :=
  quiet_onFrames fun F _ => F.depth_foldl_record _

theorem quiet_lookup (name : String) (span : Span) : Quiet (lookup name span) := by
  refine .bind .get fun s => ?_
  cases s.scope.lookup name with
  | some t => exact quiet_instantiate t
  | none => exact .fail _ _

theorem quiet_unknown [Policy] (span : Span) : Quiet (unknown span) :=
  .ite (.fail _ _) (.pure ())

theorem quiet_hole [Policy] (name : String) (span : Span) : Quiet (hole name span) :=
  (quiet_unknown span).bind fun _ => quiet_freshVar name

theorem quiet_typeExpr (t : TypeExpr) : Quiet (typeExpr t) := by
  refine .bind .get fun s => ?_
  cases s.scope.interpret t with
  | ok t => exact .pure t
  | error e => exact .throw e

theorem quiet_optionalType (name : String) : (t : Option TypeExpr) → Quiet (optionalType name t)
  | some t => quiet_typeExpr t
  | none => quiet_freshVar name

theorem quiet_typeValue (t : TypeExpr) (span : Span) : Quiet (typeValue t span) := by
  refine (quiet_typeExpr t).bind fun _ => .bind .get fun s => ?_
  dsimp only
  split
  · exact .fail _ _
  · exact .pure ()

theorem quiet_mapM {f : α → Check β} (hf : ∀ a, Quiet (f a)) : (a : Option α) → Quiet (a.mapM f)
  | some a => (hf a).map
  | none => .pure none

/-! ## Expressions -/

theorem quiet_openSlots (span : Span) : (ts : List Ty) → (image : List (Nat × Ty)) →
    (slots : List Ty) → Quiet (openSlots span ts image slots)
  | [], _, _ => .pure _
  | slot :: rest, image, slots => by
    unfold openSlots
    refine (quiet_resolve _).bind fun inner => (quiet_newVar _ _ _).bind fun v => ?_
    split
    · exact quiet_openSlots span rest _ _
    · exact (quiet_unify _ _ _).bind fun _ => quiet_openSlots span rest _ _

theorem quiet_substituteAll (image : List (Nat × Ty)) : (ts done : List Ty) →
    Quiet (substituteAll image done ts)
  | [], _ => .pure _
  | t :: ts, _ => (quiet_substitute image t).bind fun _ => quiet_substituteAll image ts _

theorem quiet_instantiateImplicit (params : List Ty) (result : Ty) (implicit : Nat) (span : Span) :
    Quiet (instantiateImplicit params result implicit span) := by
  have hopen : Quiet (do
      let r ← openSlots span (params.take implicit) [] []
      let params ← substituteAll r.1 [] params
      let result ← substitute r.1 result
      return (params, result, r.2)) :=
    (quiet_openSlots ..).bind fun r => (quiet_substituteAll r.1 params []).bind fun _ =>
      (quiet_substitute r.1 result).bind fun _ => .pure _
  unfold instantiateImplicit
  split
  · exact .pure _
  · exact hopen

theorem quiet_conclude (expected : Option Ty) (found : Ty) (e : Expr) :
    Quiet (conclude expected found e) := by
  unfold conclude
  split
  · exact (quiet_unify _ _ _).bind fun _ => .pure _
  · exact .pure _

theorem quiet_fieldType [Policy] (object : Ty) (field : String) (span : Span) :
    Quiet (fieldType object field span) := by
  unfold fieldType
  refine (quiet_resolve object).bind fun r => ?_
  split
  · split
    · exact .pure _
    · exact (quiet_resolveDeep _).bind fun _ => .fail _ _
  · exact quiet_hole field span
  · exact quiet_hole field span
  · exact (quiet_resolveDeep _).bind fun _ => .fail _ _

theorem quiet_expectedForm : (expected : Option Ty) → Quiet (expectedForm expected)
  | some t => (quiet_resolve t).map
  | none => .pure none

variable [Policy]

mutual

/-- **Checking an expression** changes the table and the variables that wait for frames only. -/
theorem quiet_typing : (e : Expr) → (expected : Option Ty) → Quiet (typing expected e)
  | .ident n x, expected => by
    rw [typing]
    exact (quiet_expectedForm expected).bind fun _ => (quiet_lookup x n.span).bind fun _ =>
      quiet_conclude ..
  | .literal n v, expected => by
    rw [typing]
    exact (quiet_expectedForm expected).bind fun _ => quiet_conclude ..
  | .paren n inner, expected => by
    rw [typing]
    exact (quiet_expectedForm expected).bind fun _ => (quiet_typing inner expected).bind fun _ =>
      .pure _
  | .binary n op l r, expected => by
    have hboth {p : Option Ty} {q : Ty → Option Ty} {u : Ty} : Quiet (do
        let (t, l) ← typing p l
        let (_, r) ← typing (q t) r
        conclude expected u (.binary n op l r)) :=
      (quiet_typing l p).bind fun l' => (quiet_typing r (q l'.1)).bind fun _ => quiet_conclude ..
    rw [typing]
    refine (quiet_expectedForm expected).bind fun _ => ?_
    dsimp only
    split
    · exact hboth (q := fun _ => some .bool)
    · exact hboth (q := fun _ => some .bool)
    · exact hboth (q := some)
    · refine (quiet_lookup _ n.span).bind fun t => (quiet_resolve t).bind fun _ => ?_
      split
      · exact hboth (q := fun _ => some _)
      · exact .fail _ _
  | .object n fs, expected => by
    have hinfer : Quiet (do
        let (ts, fs) ← typingFields [] [] [] fs
        conclude expected (.record ts) (.object n fs)) :=
      (quiet_typingFields fs _ _ _).bind fun _ => quiet_conclude ..
    rw [typing]
    refine (quiet_expectedForm expected).bind fun form => ?_
    dsimp only
    split
    · exact .ite ((quiet_typingFields fs _ _ _).bind fun _ => .pure _) hinfer
    · exact hinfer
  | .array n es, expected => by
    rw [typing]
    refine (quiet_expectedForm expected).bind fun form => ?_
    dsimp only
    split
    · exact (quiet_typingList es _ _ _).bind fun _ => .pure _
    · cases es with
      | nil => exact (quiet_freshVar "").bind fun _ => quiet_conclude ..
      | cons first rest =>
        exact (quiet_typing first none).bind fun _ => (quiet_typingList rest _ _ _).bind fun _ =>
          quiet_conclude ..
  | .tuple n es, expected => by
    have hinfer : Quiet (do
        let (ts, es) ← typingList [] [] [] es
        conclude expected (.tuple ts) (.tuple n es)) :=
      (quiet_typingList es _ _ _).bind fun _ => quiet_conclude ..
    rw [typing]
    refine (quiet_expectedForm expected).bind fun form => ?_
    dsimp only
    split
    · exact .ite ((quiet_typingList es _ _ _).bind fun _ => .pure _) hinfer
    · exact hinfer
  | .call n callee args implicit, expected => by
    rw [typing]
    refine (quiet_expectedForm expected).bind fun _ => (quiet_typing callee none).bind fun f => ?_
    refine (quiet_resolve f.1).bind fun t => ?_
    dsimp only
    split
    · next params result count =>
      have hargs : Quiet (do
          let (params, result, slots) ← instantiateImplicit params result count n.span
          let (_, args) ← typingList (params.drop count) [] [] args
          conclude expected result (.call n f.2 args (some slots))) :=
        (quiet_instantiateImplicit ..).bind fun _ => (quiet_typingList args _ _ _).bind fun _ =>
          quiet_conclude ..
      split
      · exact .bind (.fail _ _) fun _ => hargs
      · exact hargs
    · exact (quiet_typingList args _ _ _).bind fun _ => (quiet_hole "" n.span).bind fun _ =>
        quiet_conclude ..
    · exact (quiet_resolveDeep _).bind fun _ => .fail _ _
  | .subscript n target index, expected => by
    rw [typing]
    refine (quiet_expectedForm expected).bind fun _ => (quiet_typing target none).bind fun r => ?_
    refine (quiet_resolve r.1).bind fun t => ?_
    dsimp only
    split
    · exact (quiet_typing index _).bind fun _ => quiet_conclude ..
    · refine (quiet_resolveDeep r.1).bind fun whole => ?_
      split
      · exact .fail _ _
      · split
        · exact .fail _ _
        · exact (quiet_typing index none).bind fun _ => quiet_conclude ..
    · exact (quiet_typing index none).bind fun _ => (quiet_hole "" n.span).bind fun _ =>
        quiet_conclude ..
    · exact (quiet_freshVar "").bind fun _ => (quiet_resolveDeep _).bind fun _ => .fail _ _
  | .member n object field, expected => by
    rw [typing]
    exact (quiet_expectedForm expected).bind fun _ => (quiet_typing object none).bind fun r =>
      (quiet_fieldType r.1 field n.span).bind fun _ => quiet_conclude ..
  | .type n t, expected => by
    rw [typing]
    exact (quiet_expectedForm expected).bind fun _ => (quiet_typeValue t n.span).bind fun _ =>
      quiet_conclude ..

theorem quiet_typingList : (es : List Expr) → (expected found : List Ty) → (done : List Expr) →
    Quiet (typingList expected found done es)
  | [], _, _, _ => by
    rw [typingList]
    exact .pure _
  | e :: es, expected, _, _ => by
    rw [typingList]
    exact (quiet_typing e _).bind fun _ => quiet_typingList es ..

theorem quiet_typingFields : (fs : List (String × Expr)) → (expected : List Ty) →
    (found : List (String × Ty)) → (done : List (String × Expr)) →
    Quiet (typingFields expected found done fs)
  | [], _, _, _ => by
    rw [typingFields]
    exact .pure _
  | (name, e) :: fs, expected, _, _ => by
    rw [typingFields]
    exact (quiet_typing e _).bind fun _ => quiet_typingFields fs ..

end

theorem quiet_infer (e : Expr) : Quiet (infer e) := quiet_typing e none

theorem quiet_check (e : Expr) (t : Ty) : Quiet (check e t) := (quiet_typing e (some t)).map

end Check

end Reified
