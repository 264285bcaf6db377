import Reified.Proofs.Table.Growth
import Reified.Proofs.Typing.Actions
import Reified.Typing.Stmt

/-!
# What actions of the checker learn

The table of a checker only learns, whether an action succeeds or fails. So what is said of the answer
of an action can be said in view of a later table, in particular of the last one, in which all recorded
types are resolved: two types that are the same now are the same then.

Whether the table learns must not depend on what is known of earlier answers, since that may in turn
depend on the last table. The knowledge is therefore a premise of what is said of the answer only.

## Main definitions

* `Check.Learns` — the table learns, and the answer has a property in view of a later table

## Main results

* `Check.Learns.bind` — one action after the other
* `Check.learns_resolve`, `Check.learns_unify`, … — the elementary actions
* `Check.learns_pattern`, `Check.learns_paramTypes`, … — actions without expressions
-/

namespace Reified

namespace Check

variable {α β : Type} {F : Table} {known : Prop}

/-- The table learns. If something is known and the table after the action is earlier than `F`, the
answer has the property. -/
def Learns (F : Table) (known : Prop) (post : α → Prop) (act : Check α) : Prop :=
  ∀ s, s.table.Tame → match act s with
    | .ok a s' => s.table.Grows s'.table ∧ (known → s'.table.Grows F → post a)
    | .error _ s' => s.table.Grows s'.table

namespace Learns

variable {post : α → Prop} {act : Check α}

theorem pure {a : α} (h : known → post a) : Learns F known post (Pure.pure a) :=
  fun _ hs => ⟨.refl hs, fun hk _ => h hk⟩

theorem fail (e : TyError) (span : Span) : Learns F known post (Check.fail e span) :=
  fun _ hs => .refl hs

/-- One action after the other. -/
theorem bind {next : α → Check β} {post' : β → Prop} (h : Learns F known post act)
    (hnext : ∀ a, Learns F (known ∧ post a) post' (next a)) :
    Learns F known post' (act >>= next) := by
  intro s hs
  have h1 := h s hs
  show match EStateM.bind act next s with
    | .ok b s' => s.table.Grows s'.table ∧ (known → s'.table.Grows F → post' b)
    | .error _ s' => s.table.Grows s'.table
  rw [EStateM.bind]
  cases hact : act s with
  | ok a s₁ =>
    rw [hact] at h1
    have h2 := hnext a s₁ h1.1.tame
    cases hrest : next a s₁ with
    | ok b s₂ =>
      rw [hrest] at h2
      simp only [hrest]
      exact ⟨h1.1.trans h2.1, fun hk hF => h2.2 ⟨hk, h1.2 hk (h2.1.trans hF)⟩ hF⟩
    | error e s₂ =>
      rw [hrest] at h2
      simp only [hrest]
      exact h1.1.trans h2
  | error e s₁ =>
    rw [hact] at h1
    exact h1

theorem mono {post' : α → Prop} (h : Learns F known post act)
    (hpost : known → ∀ a, post a → post' a) : Learns F known post' act := by
  intro s hs
  have h1 := h s hs
  cases hact : act s with
  | ok a s' =>
    rw [hact] at h1
    exact ⟨h1.1, fun hk hF => hpost hk a (h1.2 hk hF)⟩
  | error e s' =>
    rw [hact] at h1
    exact h1

theorem map {f : α → β} {post' : β → Prop} (h : Learns F known post act)
    (hpost : known → ∀ a, post a → post' (f a)) : Learns F known post' (f <$> act) := by
  rw [← bind_pure_comp]
  exact h.bind fun a => .pure fun hk => hpost hk.1 a hk.2

theorem get : Learns F known (fun _ => True) MonadState.get :=
  fun _ hs => ⟨.refl hs, fun _ _ => trivial⟩

/-- An action that succeeds and leaves the table alone. -/
theorem of_table_eq {a : Checker → α} {s' : Checker → Checker}
    (hact : ∀ s, act s = .ok (a s) (s' s)) (htable : ∀ s, (s' s).table = s.table) :
    Learns F known (fun _ => True) act := by
  intro s hs
  rw [hact]
  exact ⟨by rw [htable]; exact .refl hs, fun _ _ => trivial⟩

end Learns

/-- Nothing is said of the answer. -/
abbrev LearnsOnly (act : Check α) : Prop := ∀ {F known}, Learns F known (fun _ => True) act

/-! ## Elementary actions -/

theorem learns_resolve (t : Ty) : Learns F known (fun r => F.deep r = F.deep t) (resolve t) :=
  fun _ hs => ⟨(hs.resolve t).1, fun _ hF => ((hs.resolve t).1.trans hF).deep_eq (hs.resolve t).2⟩

theorem learns_resolveDeep (t : Ty) :
    Learns F known (fun r => F.deep r = F.deep t) (resolveDeep t) :=
  fun _ hs => ⟨(hs.resolveDeep t).1, fun _ hF => by
    have h := (hs.resolveDeep t).1.trans hF
    show F.deep (Table.resolveDeep _ t).1 = _
    rw [(hs.resolveDeep t).2, h.deep]⟩

theorem learns_substitute (image : List (Nat × Ty)) (t : Ty) : LearnsOnly (substitute image t) :=
  fun _ hs => ⟨hs.substitute t image, fun _ _ => trivial⟩

theorem learns_unify (t u : Ty) (span : Span) : LearnsOnly (unify t u span) := by
  rintro F known ⟨T, S, R, D, rs, L⟩ hs
  have hT := hs.unify t u
  simp only [unify]
  cases hunify : T.unify t u with
  | ok _ T' =>
    rw [hunify] at hT
    exact ⟨hT, fun _ _ => trivial⟩
  | error e T' =>
    rw [hunify] at hT
    exact hT

theorem learns_newVar (name : String) (inferred rigid : Bool) :
    LearnsOnly (newVar name inferred rigid) :=
  fun s hs => ⟨hs.newVar name inferred rigid s.frames.depth, fun _ _ => trivial⟩

theorem learns_freshVar (name : String) : LearnsOnly (freshVar name) :=
  learns_newVar name false false

theorem learns_instantiate (t : Ty) : LearnsOnly (instantiate t) :=
  fun s hs => ⟨hs.instantiate t s.frames.depth, fun _ _ => trivial⟩

theorem learns_pushScope : LearnsOnly pushScope := Learns.of_table_eq (fun _ => rfl) fun _ => rfl

theorem learns_popScope : LearnsOnly popScope := Learns.of_table_eq (fun _ => rfl) fun _ => rfl

theorem learns_bindValue (name : String) (t : Ty) : LearnsOnly (bindValue name t) :=
  Learns.of_table_eq (fun _ => rfl) fun _ => rfl

theorem learns_bindType (name : String) (t : Ty) : LearnsOnly (bindType name t) :=
  Learns.of_table_eq (fun _ => rfl) fun _ => rfl

theorem learns_pushFrame : LearnsOnly pushFrame := Learns.of_table_eq (fun _ => rfl) fun _ => rfl

theorem grows_settle (depth : Nat) (ids done : List Nat) (R : Frames) {T : Table} (hT : T.Tame) :
    T.Grows (Frames.settle depth ids R T done).2.2 := by
  induction ids generalizing R T done with
  | nil => exact .refl hT
  | cons id ids ih =>
    rw [Frames.settle]
    split
    · exact ih _ _ hT
    · split
      · exact (hT.generalize id).trans (ih _ _ (hT.generalize id).tame)
      · exact ih _ _ hT

/-- Closing a frame only marks variables as generalized. -/
theorem grows_pop (R : Frames) {T : Table} (hT : T.Tame) : T.Grows (R.pop T).2.2 := by
  unfold Frames.pop
  split
  · exact .refl hT
  · exact grows_settle _ _ _ _ hT

theorem learns_popFrame : LearnsOnly popFrame :=
  fun s hs => ⟨grows_pop s.frames hs, fun _ _ => trivial⟩

theorem learns_enterBody (t : Ty) : LearnsOnly (enterBody t) :=
  Learns.of_table_eq (fun _ => rfl) fun _ => rfl

theorem learns_leaveBody (loopDepth : Nat) : LearnsOnly (leaveBody loopDepth) :=
  Learns.of_table_eq (fun _ => rfl) fun _ => rfl

theorem learns_setLoopDepth (f : Nat → Nat) : LearnsOnly (setLoopDepth f) :=
  Learns.of_table_eq (fun _ => rfl) fun _ => rfl

theorem learns_jump (keyword : String) (span : Span) : LearnsOnly (jump keyword span) := by
  intro F known
  refine Learns.get.bind fun s => ?_
  split
  · exact .fail _ _
  · exact .pure fun _ => trivial

theorem learns_lookup (name : String) (span : Span) : LearnsOnly (lookup name span) := by
  intro F known
  refine Learns.get.bind fun s => ?_
  split
  · exact learns_instantiate _
  · exact .fail _ _

theorem learns_unknown [Policy] (span : Span) :
    Learns F known (fun _ => Policy.refuses span = false) (unknown span) := by
  unfold unknown
  split
  · exact .fail _ _
  · next h => exact .pure fun _ => by simpa using h

theorem learns_hole [Policy] (name : String) (span : Span) :
    Learns F known (fun _ => Policy.refuses span = false) (hole name span) :=
  (learns_unknown span).bind fun _ => (learns_freshVar name).mono fun hk _ _ => hk.2

/-! ## Written types -/

theorem learns_typeExpr (t : TypeExpr) : LearnsOnly (typeExpr t) := by
  intro F known s hs
  cases ht : s.scope.interpret t with
  | ok u =>
    rw [typeExpr_of_ok ht]
    exact ⟨.refl hs, fun _ _ => trivial⟩
  | error e =>
    rw [typeExpr_of_error ht]
    exact .refl hs

theorem learns_optionalType (name : String) (t : Option TypeExpr) :
    LearnsOnly (optionalType name t) := by
  cases t with
  | some t => exact learns_typeExpr t
  | none => exact learns_freshVar name

theorem learns_typeValue (t : TypeExpr) (span : Span) : LearnsOnly (typeValue t span) := by
  intro F known
  refine (learns_typeExpr t).bind fun _ => Learns.get.bind fun s => ?_
  dsimp only
  split
  · exact .fail _ _
  · exact .pure fun _ => trivial

/-! ## Implicit parameters -/

theorem learns_openSlots (span : Span) (types : List Ty) (image : List (Nat × Ty))
    (slots : List Ty) : LearnsOnly (openSlots span types image slots) := by
  intro F known
  induction types generalizing image slots known with
  | nil => exact .pure fun _ => trivial
  | cons slot rest ih =>
    rw [openSlots_cons]
    refine (learns_resolve _).bind fun inner => (learns_newVar _ true false).bind fun v => ?_
    split
    · exact ih _ _
    · exact (learns_unify _ _ span).bind fun _ => ih _ _

theorem learns_substituteAll (image : List (Nat × Ty)) (done types : List Ty) :
    LearnsOnly (substituteAll image done types) := by
  intro F known
  induction types generalizing done known with
  | nil => exact .pure fun _ => trivial
  | cons t types ih =>
    rw [substituteAll]
    exact (learns_substitute image t).bind fun u => ih _

theorem learns_instantiateImplicit (params : List Ty) (result : Ty) (implicit : Nat) (span : Span) :
    LearnsOnly (instantiateImplicit params result implicit span) := by
  intro F known
  unfold instantiateImplicit
  split
  · exact .pure fun _ => trivial
  · refine (learns_openSlots span _ _ _).bind fun r => ?_
    refine (learns_substituteAll _ _ _).bind fun _ => ?_
    exact (learns_substitute _ _).bind fun _ => .pure fun _ => trivial

/-! ## Expected types -/

theorem learns_expectedForm (expected : Option Ty) : LearnsOnly (expectedForm expected) := by
  cases expected with
  | some t => exact (learns_resolve t).map fun _ _ _ => trivial
  | none => exact .pure fun _ => trivial

theorem learns_completion (expected : Ty) (rest : List Decl) :
    LearnsOnly (completion expected rest) := by
  intro F known
  unfold completion
  split
  · exact .pure fun _ => trivial
  · exact learns_freshVar ""

/-- A unification at the end of a check. -/
theorem learns_unless {α : Type} {c : Prop} [Decidable c] {t u : Ty} {span : Span} {a : α}
    {post : α → Prop} (h : known → post a) : Learns F known post (do
      unless c do unify t u span
      return a) := by
  split
  · exact .pure h
  · exact (learns_unify t u span).bind fun _ => .pure fun hk => h hk.1

/-! ## Functions and patterns -/

theorem learns_hoist (ds : List Decl) : LearnsOnly (hoist ds) := by
  intro F known
  induction ds generalizing known with
  | nil => exact .pure fun _ => trivial
  | cons d ds ih =>
    cases d with
    | fn head body =>
      rw [hoist]
      refine (learns_freshVar _).bind fun t => ?_
      exact (learns_bindValue _ t).bind fun _ => ih
    | letDecl d => rw [hoist_letDecl]; exact ih
    | stmt s => rw [hoist_stmt]; exact ih

theorem learns_bindTypeParams (names : List String) : LearnsOnly (bindTypeParams names) := by
  intro F known
  induction names generalizing known with
  | nil => exact .pure fun _ => trivial
  | cons name names ih =>
    rw [bindTypeParams]
    refine (learns_newVar name false true).bind fun t => ?_
    exact (learns_bindType name t).bind fun _ => ih

theorem learns_paramTypes (done : List Ty) (implicit : Nat) (ps : List Param) :
    LearnsOnly (paramTypes done implicit ps) := by
  intro F known
  induction ps generalizing done implicit known with
  | nil => exact .pure fun _ => trivial
  | cons p ps ih =>
    have hbind : ∀ {known}, Learns F known (fun _ => True) (do
        let v ← newVar p.name true true
        bindType p.name v
        paramTypes (.binding p.name v :: done) (implicit + 1) ps) :=
      (learns_newVar p.name true true).bind fun v =>
        (learns_bindType p.name v).bind fun _ => ih _ _
    rw [paramTypes]
    split
    · split
      · exact (Learns.fail _ _ : Learns F _ (fun _ => True) _).bind fun _ => hbind
      · exact hbind
    · exact (learns_optionalType p.name p.annotation).bind fun t => ih _ _

theorem learns_bindParams (ps : List Param) (types : List Ty) : LearnsOnly (bindParams ps types) := by
  intro F known
  induction ps generalizing types known with
  | nil => exact .pure fun _ => trivial
  | cons p ps ih =>
    cases types with
    | nil => exact .pure fun _ => trivial
    | cons t types =>
      rw [bindParams]
      exact (learns_bindValue _ _).bind fun _ => ih _

section pattern

variable [Policy]

mutual

theorem learns_pattern : (p : Pattern) → ∀ {F : Table} {known : Prop} {t : Ty},
    Learns F known (fun _ => True) (pattern t p)
  | .ident name _, F, known, t => by
    rw [pattern]
    exact learns_bindValue name t
  | .any _, F, known, t => by
    rw [pattern]
    exact .pure fun _ => trivial
  | .literal v span, F, known, t => by
    rw [pattern]
    exact learns_unify t v.ty span
  | .object entries span, F, known, t => by
    rw [pattern]
    refine (learns_resolve t).bind fun u => ?_
    split
    · exact learns_entryPatterns entries
    · exact (learns_unknown span).bind fun _ => learns_freshPatterns entries
    · exact (learns_unknown span).bind fun _ => learns_freshPatterns entries
    · exact (learns_resolveDeep _).bind fun _ => .fail _ _

theorem learns_entryPatterns : (entries : List (String × Pattern)) →
    ∀ {F : Table} {known : Prop} {t : Ty} {fs : List (String × Ty)} {span : Span},
    Learns F known (fun _ => True) (entryPatterns t fs span entries)
  | [], F, known, t, fs, span => by
    rw [entryPatterns]
    exact .pure fun _ => trivial
  | (name, p) :: entries, F, known, t, fs, span => by
    rw [entryPatterns]
    split
    · exact (learns_resolveDeep _).bind fun _ => .fail _ _
    · exact (learns_pattern p).bind fun _ => learns_entryPatterns entries

theorem learns_freshPatterns : (entries : List (String × Pattern)) →
    ∀ {F : Table} {known : Prop}, Learns F known (fun _ => True) (freshPatterns entries)
  | [], F, known => by
    rw [freshPatterns]
    exact .pure fun _ => trivial
  | (name, p) :: entries, F, known => by
    rw [freshPatterns]
    refine (learns_freshVar name).bind fun t => ?_
    exact (learns_pattern p).bind fun _ => learns_freshPatterns entries

end

end pattern

end Check

end Reified
