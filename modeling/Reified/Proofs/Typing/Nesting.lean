import Reified.Proofs.Typing.Quiet

/-!
# How deep a checker is nested

Scopes and frames are opened and closed by the constructs that introduce names, and functions and loops are
entered and left. Everything else that is done to check a program happens at one depth: it may bind names in
the innermost scope, but opens and closes nothing.

## Main definitions

* `Checker.Nesting` — what is open around the current place
* `Check.Level` — an action that opens and closes nothing and reports nothing

## Main results

* `Check.Leaves.level` — checking an expression, as whatever is quiet
* `Check.level_pattern`, `Check.level_letDecl` — binding names
-/

namespace Reified

/-- What is open around the current place: the numbers of scopes and of frames, the result types of the
functions, the innermost first, and the number of loops inside the innermost function. -/
structure Checker.Nesting where
  scopes : Nat
  frames : Nat
  returns : List Ty
  loops : Nat

/-- What is open around the current place of a checker. -/
def Checker.nesting (s : Checker) : Checker.Nesting :=
  ⟨s.scope.depth, s.frames.depth, s.returns, s.loopDepth⟩

namespace Scope

variable {S : Scope}

@[simp] theorem depth_insert (name : String) (t : Ty) : (S.insert name t).depth = S.depth := by
  obtain ⟨frames⟩ := S
  cases frames <;> rfl

@[simp] theorem depth_insertType (name : String) (t : Ty) : (S.insertType name t).depth = S.depth := by
  obtain ⟨frames⟩ := S
  cases frames <;> rfl

end Scope

namespace Check

variable {α : Type} {act : Check α}

/-- The action opens and closes nothing, and it reports nothing. -/
abbrev Level (act : Check α) : Prop := Leaves (fun s => (s.nesting, s.diagnostics)) act

/-- What changes the table and the variables that wait for frames only opens and closes nothing. -/
theorem Leaves.level (h : Quiet act) : Level act :=
  h.of_eq (fun x => (⟨x.scope.depth, x.frameDepth, x.returns, x.loopDepth⟩, x.diagnostics)) fun _ => rfl

theorem level_onScope {f : Scope → Scope} (hf : ∀ S, (f S).depth = S.depth) : Level (onScope f) := by
  refine ⟨fun x s h => ⟨h ▸ ?_, trivial⟩⟩
  exact congrArg (fun d => (Checker.Nesting.mk d s.frames.depth s.returns s.loopDepth, s.diagnostics)) (hf s.scope)

theorem level_bindValue (name : String) (t : Ty) : Level (bindValue name t) :=
  level_onScope fun _ => Scope.depth_insert name t

theorem level_bindType (name : String) (t : Ty) : Level (bindType name t) :=
  level_onScope fun _ => Scope.depth_insertType name t

theorem level_hoist (ds : List Decl) : Level (hoist ds) := by
  induction ds with
  | nil => exact .pure ()
  | cons d ds ih =>
    cases d with
    | fn head body =>
      rw [hoist]
      exact (quiet_freshVar _).level.bind fun _ => (level_bindValue _ _).bind fun _ => ih
    | letDecl d => rw [hoist_letDecl]; exact ih
    | stmt s => rw [hoist_stmt]; exact ih

theorem level_bindTypeParams : (names : List String) → Level (bindTypeParams names)
  | [] => .pure ()
  | _ :: names => (quiet_newVar ..).level.bind fun _ => (level_bindType _ _).bind fun _ =>
      level_bindTypeParams names

theorem level_paramTypes : (ps : List Param) → (done : List Ty) → (implicit : Nat) →
    Level (paramTypes done implicit ps)
  | [], _, _ => .pure _
  | p :: ps, done, implicit => by
    have hnext : Level (do
        let v ← newVar p.name true true
        bindType p.name v
        paramTypes (.binding p.name v :: done) (implicit + 1) ps) :=
      (quiet_newVar ..).level.bind fun _ => (level_bindType _ _).bind fun _ =>
        level_paramTypes ps _ _
    rw [paramTypes]
    split
    · split
      · exact .bind (.fail _ _) fun _ => hnext
      · exact hnext
    · exact (quiet_optionalType ..).level.bind fun _ => level_paramTypes ps _ _

theorem level_bindParams : (ps : List Param) → (ts : List Ty) → Level (bindParams ps ts)
  | [], _ => .pure ()
  | _ :: _, [] => .pure ()
  | _ :: ps, _ :: ts => (level_bindValue _ _).bind fun _ => level_bindParams ps ts

variable [Policy]

mutual

theorem level_pattern : (p : Pattern) → (t : Ty) → Level (pattern t p)
  | .ident name _, t => by
    rw [pattern]
    exact level_bindValue _ _
  | .any _, t => by
    rw [pattern]
    exact .pure ()
  | .literal v span, t => by
    rw [pattern]
    exact (quiet_unify ..).level
  | .object entries span, t => by
    rw [pattern]
    refine (quiet_resolve t).level.bind fun r => ?_
    split
    · exact level_entryPatterns entries ..
    · exact (quiet_unknown span).level.bind fun _ => level_freshPatterns entries
    · exact (quiet_unknown span).level.bind fun _ => level_freshPatterns entries
    · exact (quiet_resolveDeep _).level.bind fun _ => .fail _ _

theorem level_entryPatterns : (entries : List (String × Pattern)) → (t : Ty) →
    (fs : List (String × Ty)) → (span : Span) → Level (entryPatterns t fs span entries)
  | [], _, _, _ => by
    rw [entryPatterns]
    exact .pure ()
  | (name, p) :: entries, t, fs, span => by
    rw [entryPatterns]
    split
    · exact (quiet_resolveDeep t).level.bind fun _ => .fail _ _
    · exact (level_pattern p _).bind fun _ => level_entryPatterns entries t fs span

theorem level_freshPatterns : (entries : List (String × Pattern)) →
    Level (freshPatterns entries)
  | [] => by
    rw [freshPatterns]
    exact .pure ()
  | (name, p) :: entries => by
    rw [freshPatterns]
    exact (quiet_freshVar name).level.bind fun t => (level_pattern p t).bind fun _ =>
      level_freshPatterns entries

end

theorem level_letDecl (d : LetDecl) : Level (letDecl d) := by
  unfold letDecl
  split
  · exact (quiet_typeExpr _).level.bind fun t => (quiet_check d.init t).level.bind fun _ =>
      (level_bindValue _ _).bind fun _ => .pure _
  · exact (quiet_infer d.init).level.bind fun _ => (level_bindValue _ _).bind fun _ => .pure _

theorem level_forInit : (init : Option ForInit) → Level (forInit init)
  | none => .pure _
  | some (.expr e) => (quiet_infer e).level.bind fun _ => .pure _
  | some (.letDecl d) => (level_letDecl d).bind fun _ => .pure _

end Check

end Reified
