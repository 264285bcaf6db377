import Mathlib
import Reified.Proofs.Typing.Containment
import Reified.Typing.Program

/-!
# What a rejected declaration leaves behind

When the check of a top-level declaration fails, scopes, frames and counts are brought back to what they
were, but the table is not. What the check has found out about a variable that is not yet generalized
remains: such are the variables that stand for the functions of the program until their declarations are
reached. So a declaration can be rejected because of an earlier one that was rejected itself.

Names all of whose variables are generalized are safe, and so are those of whose variables the check has
bound none.

## Main definitions

* `Checker.recover` — the checker after a rejected declaration
* `Checker.Starts` — the states in which a top-level declaration of a program is about to be checked
* `Checker.Idle` — the invariant of these states
* `Checker.Recovered` — what is the same after a rejected declaration, and what may have become more definite

## Main results

* `Checker.Idle.topLevel` — a top-level declaration keeps the invariant, or fails above all that there was
* `Checker.Idle.recover` — after a failed check the invariant holds again
* `Checker.Starts.recovered` — what a rejected declaration leaves behind, whatever came before it
* `Checker.Starts.rejected_leavesTrace` — a rejected declaration can still be noticed
-/

namespace Reified

/-- An unbound flexible variable takes a name. -/
theorem Table.unify_unbound {T : Table} {v : TyVar} (hu : T.binding? v.id = none)
    (hr : v.rigid = false) (n : String) :
    T.unify (.var v) (.name n) = .ok () (T.setBinding v.id (.name n)) := by
  have hb : T.isBound v.id = false := isBound_eq_false.mpr hu
  simp [unify, unifyWithin, unifyForms, bind, occurs, occursWithin, lowerUntil, binds, hb, hr, Ty.vars]

namespace Checker

open Check (Contains Anything contains_freshVar contains_bindValue)

variable {B : Base} {p : Position} {known : Table → Prop} {s s' s₁ : Checker}

/-! ## Between declarations -/

/-- All that there is, with nothing set apart. -/
def around (s : Checker) : Base :=
  ⟨fun _ => False, s.frames.depth, s.scope.frames, s.returns, s.table⟩

/-- A checker that can begin with a declaration. -/
structure Idle (s : Checker) : Prop where
  held : Held s.around .base s
  scopes : s.scope.frames ≠ []

/-- The base may be all that there is. -/
theorem Held.here (h : Held B p s) : Held s.around .base s := by
  obtain ⟨apart, depth, scopes, returns, table⟩ := B
  obtain rfl : s.frames.depth = depth := h.depth
  exact
    { placed := h.placed
      graded := h.graded
      apart := nofun
      drawn := .refl _
      depth := rfl
      covers := ⟨fun f hf x hx => (h.covers.values f hf x hx).mono fun _ h => ⟨False.elim, h.2⟩,
        fun f hf x hx => (h.covers.types f hf x hx).mono fun _ h => ⟨False.elim, h.2⟩⟩
      results := fun t ht => (h.results t ht).mono fun _ h => ⟨False.elim, h.2⟩
      scopes := ⟨[], rfl, rfl⟩
      returns := rfl }

theorem insert_ne_nil {S : Scope} (h : S.frames ≠ []) (name : String) (t : Ty) :
    (S.insert name t).frames ≠ [] := by
  obtain ⟨frames⟩ := S
  cases frames with
  | nil => exact absurd rfl h
  | cons f fs => exact List.cons_ne_nil _ _

theorem Held.frames_eq (h : Held B .base s) : s.scope.frames = B.scopes := by
  obtain ⟨inner, hlength, hscopes⟩ := h.scopes
  obtain rfl := List.eq_nil_of_length_eq_zero hlength
  exact hscopes

/-- A name may be bound to a scheme. -/
theorem Held.bound (h : Held B .base s) (hs : s.scope.frames ≠ []) (name : String) {t : Ty}
    (ht : B.Scheme s.table t) : Idle { s with scope := s.scope.insert name t } := by
  have hcovers := h.covers.insert name ht
  refine ⟨Held.here (B := { B with scopes := (s.scope.insert name t).frames })
    { h with covers := ⟨hcovers.values, hcovers.types⟩, scopes := ⟨[], rfl, rfl⟩ }, ?_⟩
  exact insert_ne_nil hs name t

/-! ## The states before declarations -/

/-- The checker after the declaration at a position was rejected, whose check began with `s` and failed with
`s₁`. -/
def recover (s : Checker) (index : Nat) (d : Decl) (e : CheckError) (s₁ : Checker) : Checker :=
  ((s₁.report index e).unwind s.scope.depth s.frames.depth s.returns.length s.loopDepth).after
    (bindRejected d)

theorem checkDecls_rejected [Check.Policy] {d : Decl} {e : CheckError}
    (h : checkTopLevel d s = .error e s₁) (index : Nat) (done : List (Decl × Bool)) (ds : List Decl) :
    checkDecls index done (d :: ds) s =
      checkDecls (index + 1) ((d, false) :: done) ds (s.recover index d e s₁) := by
  rw [checkDecls, h]
  rfl

/-- A checker that is about to check a top-level declaration of the program. -/
inductive Starts [Check.Policy] (program : Program) : Checker → Prop where
  | first : Starts program (initial.after (openProgram program))
  | accepted {s s' : Checker} {d d' : Decl} : Starts program s → checkTopLevel d s = .ok d' s' →
      Starts program s'
  | rejected {s s₁ : Checker} {d : Decl} {e : CheckError} (index : Nat) : Starts program s →
      checkTopLevel d s = .error e s₁ → Starts program (s.recover index d e s₁)

section initial

theorem contains_declareOperators (ops : List Operator) :
    Contains B p.inScope p.inScope known Anything (declareOperators ops) := by
  induction ops generalizing known with
  | nil => exact .pure fun _ _ => trivial
  | cons op ops ih =>
    rw [declareOperators]
    refine (contains_freshVar "a").bind fun t => (contains_bindValue op.symbol fun T hk => ?_).bind fun _ => ih
    have hsort : ∀ sort : OperandSort, B.Live T (sort.ty t) := fun sort => by
      cases sort
      · exact Table.Remains.name _
      · exact Table.Remains.name _
      · exact hk.2
    exact Table.Live.scheme (.fn (by simp [hsort]) (hsort _))

theorem declareOperators_ok (ops : List Operator) (s : Checker) :
    ∃ s', declareOperators ops s = .ok () s' := by
  induction ops generalizing s with
  | nil => exact ⟨s, rfl⟩
  | cons op ops ih => exact ih _

theorem hoist_ok (ds : List Decl) (s : Checker) : ∃ s', Check.hoist ds s = .ok () s' := by
  induction ds generalizing s with
  | nil => exact ⟨s, rfl⟩
  | cons d ds ih =>
    cases d with
    | fn head body => exact ih _
    | letDecl d => exact ih s
    | stmt d => exact ih s

theorem types_initial : initial.scope.frames.map ScopeFrame.types = [[]] := rfl

/-- The checker that knows the operators can begin with a program. -/
theorem idle_initial : initial.Idle := by
  let B : Base := ⟨fun _ => False, 1, [], [], blank.table⟩
  let s : Checker := { blank with scope := blank.scope.push, frames := blank.frames.push }
  have hplaced : Frames.Placed blank.frames blank.table := .empty
  have hgraded : blank.table.Graded := fun v w hw => by
    rw [Table.level_of_size_le (T := blank.table) (Nat.zero_le w)]
    exact Nat.zero_le _
  have hs : Held B (Position.base.inScope) s :=
    { placed := hplaced.push
      graded := hgraded
      apart := nofun
      drawn := .refl _
      depth := rfl
      covers := ⟨by simp [s, blank, Scope.push, Scope.empty], by simp [s, blank, Scope.push, Scope.empty]⟩
      results := nofun
      scopes := ⟨[⟨[], []⟩], rfl, rfl⟩
      returns := rfl }
  obtain ⟨s', hs'⟩ := declareOperators_ok Operator.all s
  have hcontains : Contains B Position.base.inScope Position.base.inScope (fun _ => True) Anything
      (declareOperators Operator.all) := contains_declareOperators _
  have h := hcontains s hs fun _ _ => trivial
  rw [hs'] at h
  obtain ⟨hheld, -⟩ := h
  have hone : s'.frames.depth = 0 + 1 := hheld.depth
  obtain ⟨-, hplaced', hhealthy, hdepth, hscheme, -⟩ :=
    Check.evolves_pop (X := fun _ => False) hheld.placed hheld.graded hone
  have hbuiltins : declareBuiltins blank = .ok () ⟨(s'.frames.pop s'.table).2.2, s'.scope,
      (s'.frames.pop s'.table).2.1, s'.diagnostics, s'.returns, s'.loopDepth⟩ := by
    show EStateM.bind (declareOperators Operator.all) (fun _ => Check.popFrame) s = _
    rw [EStateM.bind, hs']
    rfl
  have hvalues : ∀ f ∈ s'.scope.frames, ∀ x ∈ f.values, (s'.frames.pop s'.table).2.2.Scheme
      (fun _ => False) (s'.frames.pop s'.table).2.1.depth x.2 := fun f hf x hx => by
    rw [hdepth]
    exact hscheme _ ((hheld.covers.values f hf x hx).mono fun _ h => h.1)
  have htypes := types_initial
  rw [initial, hbuiltins] at htypes ⊢
  have hreturns : s'.returns = [] := hheld.returns
  refine ⟨{ placed := hplaced', graded := hhealthy.graded, apart := nofun, drawn := .refl _,
            depth := rfl, covers := ?_, results := ?_, scopes := ⟨[], rfl, rfl⟩, returns := rfl }, fun hnil => ?_⟩
  · refine ⟨hvalues, fun f hf x hx => ?_⟩
    have hnone := List.mem_map_of_mem (f := ScopeFrame.types) hf
    rw [htypes, List.mem_singleton] at hnone
    exact absurd (hnone ▸ hx) List.not_mem_nil
  · intro t ht
    exact absurd (hreturns ▸ ht) List.not_mem_nil
  · rw [show s'.scope.frames = [] from hnil] at htypes
    cases htypes

/-- A checker that can begin with a program can begin with its declarations. -/
theorem Idle.openProgram (hs : s.Idle) (program : Program) : (s.after (openProgram program)).Idle := by
  let s₁ : Checker := { s with frames := s.frames.push }
  have hcontains : ∀ B, Contains B .base Position.base.inScope (fun _ => True) Anything
      (Check.pushScope >>= fun _ => Check.hoist program) := fun B =>
    Check.contains_pushScope.bind fun _ => Check.contains_hoist program
  have h := hcontains _ s₁ hs.held.inFrame fun _ _ => trivial
  obtain ⟨s', hs'⟩ := hoist_ok program { s₁ with scope := s₁.scope.push }
  have hopen : Checker.openProgram program s = .ok () s' := by
    show EStateM.bind Check.pushScope (fun _ => Check.hoist program) s₁ = _
    exact hs'
  have hstep : (Check.pushScope >>= fun _ => Check.hoist program) s₁ = .ok () s' := hs'
  rw [hstep] at h
  rw [after, hopen]
  obtain ⟨inner, hlength, hscopes⟩ := h.1.scopes
  refine ⟨h.1.here, fun hnil => ?_⟩
  rw [hnil] at hscopes
  obtain ⟨rfl, -⟩ := List.append_eq_nil_iff.mp hscopes.symm
  cases hlength

end initial

/-! ## Declarations -/

section topLevel

variable {α β : Type}

/-- The variable for the value of a declaration. -/
def discard (s : Checker) : TyVar := ⟨s.table.size, "", false, false⟩

/-- The checker in which this variable has been created. -/
def withDiscard (s : Checker) : Checker :=
  { s with
    table := (s.table.newVar "" false false s.frames.depth).2
    frames := s.frames.record s.table.size }

/-- All that there is, with this variable set apart. -/
def aside (s : Checker) : Base := s.around.reserve s.table.size

theorem Idle.withDiscard (hs : s.Idle) :
    Held s.aside .base s.withDiscard ∧ s.aside.Evolves s.table s.withDiscard.table :=
  hs.held.reserve "" false false

/-- As long as it is set apart, the variable is live and unbound. -/
theorem discard_later (hheld : Held s.aside .base s₁)
    (hev : s.aside.Evolves s.withDiscard.table s₁.table) :
    s₁.table.binding? s.discard.id = none ∧ s₁.around.Live s₁.table (.var s.discard) := by
  have hlt : s.discard.id < s.withDiscard.table.size := by
    rw [withDiscard, Table.size_newVar]
    exact Nat.lt_succ_self _
  have hu : s.withDiscard.table.binding? s.discard.id = none := by
    rw [withDiscard, Table.binding?_newVar]
    exact Table.binding?_of_size_le le_rfl
  have hlevel : s.withDiscard.table.level s.discard.id = s.frames.depth := by
    rw [withDiscard, Table.level_newVar]
    exact if_pos rfl
  have hmark : s.withDiscard.table.isGeneralized s.discard.id = false := by
    rw [withDiscard, Table.isGeneralized_newVar]
    simp [Table.isGeneralized, Table.size, discard]
  have hunbound := hev.sealed _ (.inl (.inr rfl)) hu
  obtain ⟨hg, hle⟩ := hev.apart _ hlt (.inr rfl) hu hlevel.le
  have hdepth : s₁.frames.depth = s.frames.depth := hheld.depth
  exact ⟨hunbound, .of_unbound (hlt.trans_le hev.size) hunbound
    ⟨False.elim, hg.trans hmark, (hle.trans hlevel.le).trans hdepth.ge⟩⟩

/-- The value of a declaration of a name is the unit value, which nothing contradicts. -/
theorem Idle.concludes (hs : s.Idle) {v : TyVar} (hu : s.table.binding? v.id = none)
    (hr : v.rigid = false) (hlive : s.around.Live s.table (.var v)) (span : Span) :
    ∃ s', Check.unify (.var v) .void span s = .ok () s' ∧ s'.Idle := by
  have hunify := Table.unify_unbound hu hr "Void"
  have hok : Check.unify (.var v) .void span s =
      .ok () { s with table := s.table.setBinding v.id .void } := by
    simp only [Check.unify, Ty.void, hunify]
  have hcontains : Contains s.around .base .base (s.around.Live · (.var v)) Anything
      (Check.unify (.var v) .void span) :=
    Check.contains_unify span (fun _ h => h) fun _ _ => Table.Remains.name _
  have h := hcontains s hs.held fun T hT => hT.live _ le_rfl _ hlive
  rw [hok] at h
  exact ⟨_, hok, h.1.here, hs.scopes⟩

/-- The next declaration can begin, or the check has failed above all that there was. -/
def Continues (s : Checker) : EStateM.Result CheckError Checker α → Prop
  | .ok _ s' => s'.Idle
  | .error _ s₁ => Left s.around s.table s₁

/-- The declaration of a name finds its type, binds the name, and has the unit value. -/
theorem Idle.declares (hs : s.Idle) {act : Check (Ty × α)} (name : String) (span : Ty × α → Span)
    (f : Ty × α → β)
    (h : ∀ B : Base, Contains B .base .base (fun _ => True) (fun r T => B.Scheme T r.1) act) :
    s.Continues ((do
      let discard ← Check.freshVar ""
      let r ← act
      Check.bindValue name r.1
      Check.unify discard .void (span r)
      return f r : Check β) s) := by
  obtain ⟨hs₀, hnew⟩ := hs.withDiscard
  have h1 := h s.aside s.withDiscard hs₀ fun _ _ => trivial
  have hstep : (do
      let discard ← Check.freshVar ""
      let r ← act
      Check.bindValue name r.1
      Check.unify discard .void (span r)
      return f r : Check β) s = match act s.withDiscard with
        | .error e s₁ => .error e s₁
        | .ok r s₁ => (do
            Check.unify (.var s.discard) .void (span r)
            return f r : Check β) { s₁ with scope := s₁.scope.insert name r.1 } := by
    show EStateM.bind act _ s.withDiscard = _
    rw [EStateM.bind]
    cases act s.withDiscard <;> rfl
  rw [hstep]
  cases hact : act s.withDiscard with
  | error e s₁ =>
    rw [hact] at h1
    exact { h1 with evolves := (hnew.trans h1.evolves).forget hs.held.healthy fun w hw =>
      (hw.resolve_left id).ge }
  | ok r s₁ =>
    rw [hact] at h1
    obtain ⟨hheld, hev, hscheme⟩ := h1
    have hframes : s₁.scope.frames = s.scope.frames := hheld.frames_eq
    have hbound := hheld.bound (hframes ▸ hs.scopes) name (hscheme _ hheld.later)
    obtain ⟨hu, hlive⟩ := discard_later hheld hev
    obtain ⟨s', hs', hidle⟩ := hbound.concludes hu rfl hlive (span r)
    have hok : (do
        Check.unify (.var s.discard) .void (span r)
        return f r : Check β) { s₁ with scope := s₁.scope.insert name r.1 } = .ok (f r) s' := by
      show EStateM.bind (Check.unify (.var s.discard) .void (span r)) _ _ = _
      rw [EStateM.bind, hs']
      rfl
    simp only [hok]
    exact hidle

/-- **A top-level declaration** leads to a state in which the next one can begin, or its check fails above
all that there was. -/
theorem Idle.topLevel [Check.Policy] (hs : s.Idle) (d : Decl) :
    s.Continues (checkTopLevel d s) := by
  cases d with
  | letDecl d =>
    have hdecl : checkTopLevel (.letDecl d) = (do
        let discard ← Check.freshVar ""
        let r ← Check.letType d
        Check.bindValue d.name r.1
        Check.unify discard .void r.2.span
        return .letDecl r.2) := by
      unfold checkTopLevel
      simp only [Check.decl, Check.letDecl_eq, bind_assoc, pure_bind]
    rw [hdecl]
    exact hs.declares d.name (fun r => r.2.span) (fun r => Decl.letDecl r.2) fun B =>
      (Check.contains_letType d).mono fun T _ r h => h.scheme
  | fn head body =>
    have hdecl : checkTopLevel (.fn head body) = (do
        let discard ← Check.freshVar ""
        let r ← Check.fnType head fun result =>
          Check.inBlock result body head.bodySpan (Check.decls result [] body)
        Check.bindValue head.name r.1
        Check.unify discard .void head.span
        return .fn { head with signature := some r.1 } r.2) := by
      unfold checkTopLevel
      simp only [Check.decl, Check.function_eq, bind_assoc, pure_bind]
    rw [hdecl]
    exact hs.declares head.name (fun _ => head.span)
      (fun r => Decl.fn { head with signature := some r.1 } r.2) fun B =>
        Check.contains_fnType fun t ht => Check.contains_inBlock ht fun ht => Check.contains_decls body ht
  | stmt st =>
    have hcontains : Contains s.around .base .base (fun _ => True) Anything (checkTopLevel (.stmt st)) := by
      unfold checkTopLevel
      simp only [Check.decl]
      exact (contains_freshVar "").bind fun t => (Check.contains_stmt st fun T hk => hk.2).bind fun _ =>
        .pure fun _ _ => trivial
    have h := hcontains s hs.held fun _ _ => trivial
    cases hact : checkTopLevel (.stmt st) s with
    | ok d' s' =>
      rw [hact] at h
      have hframes : s'.scope.frames = s.scope.frames := h.1.frames_eq
      exact ⟨h.1.here, hframes ▸ hs.scopes⟩
    | error e s₁ =>
      rw [hact] at h
      exact h

end topLevel

/-! ## Unwinding -/

/-- Closing inner frames. -/
theorem closeFrames_spec {X : Nat → Prop} {depth n : Nat} {F : Frames} {T : Table} (h : F.Placed T)
    (hgraded : T.Graded) (hle : depth ≤ F.depth) (hn : F.depth ≤ depth + n) :
    T.Evolves X depth (closeFrames depth n F T).2 ∧
      (closeFrames depth n F T).1.Placed (closeFrames depth n F T).2 ∧
      (closeFrames depth n F T).2.Graded ∧ (closeFrames depth n F T).1.depth = depth := by
  induction n generalizing F T with
  | zero => exact ⟨.refl h.tame, h, hgraded, le_antisymm hn hle⟩
  | succ n ih =>
    rw [closeFrames]
    split
    · next hlt =>
      obtain ⟨k, hk⟩ := Nat.exists_eq_add_one_of_ne_zero (Nat.ne_zero_of_lt hlt)
      obtain ⟨hev, hplaced, hhealthy, hdepth, -, -⟩ := Check.evolves_pop (X := X) h hgraded hk
      have hkle : depth ≤ k := by omega
      obtain ⟨hev', hrest⟩ := ih hplaced hhealthy.graded (hdepth ▸ hkle) (by omega)
      exact ⟨(hev.mono_depth hkle).trans hev', hrest⟩
    · next hnot => exact ⟨.refl h.tame, h, hgraded, le_antisymm (Nat.le_of_not_lt hnot) hle⟩

theorem truncate_of_suffix {S S' : Scope} (h : S.frames <:+ S'.frames) : S'.truncate S.depth = S := by
  obtain ⟨inner, hinner⟩ := h
  rw [Scope.truncate, Scope.depth, ← hinner, List.length_append, Nat.add_sub_cancel, List.drop_left]

theorem drop_of_suffix {α : Type} {base all : List α} (h : base <:+ all) :
    all.drop (all.length - base.length) = base := by
  obtain ⟨inner, rfl⟩ := h
  rw [List.length_append, Nat.add_sub_cancel, List.drop_left]

/-- **Unwinding after a failed check** leads back to the surroundings; the table is a new one to start
with. -/
theorem Left.unwind (hs : Held s.around .base s) (h : Left s.around s.table s₁) :
    ∀ s', s' = s₁.unwind s.scope.depth s.frames.depth s.returns.length s.loopDepth →
      Held { s.around with table := s'.table } .base s' ∧ s.around.Evolves s.table s'.table ∧
        s'.scope = s.scope ∧ s'.returns = s.returns ∧ s'.loopDepth = s.loopDepth := by
  rintro s' rfl
  obtain ⟨T, S, F, D, R, L⟩ := s₁
  obtain ⟨hev, hplaced, hgraded, hdepth⟩ := closeFrames_spec (X := fun _ => False) (n := F.depth) h.placed
    h.graded h.depth (Nat.le_add_left _ _)
  have hall := h.evolves.trans hev
  have hscope : S.truncate s.scope.depth = s.scope := truncate_of_suffix h.scopes
  have hreturns : R.drop (R.length - s.returns.length) = s.returns := drop_of_suffix h.returns
  refine ⟨?_, hall, hscope, hreturns, rfl⟩
  exact
    { placed := hplaced
      graded := hgraded
      apart := nofun
      drawn := .refl _
      depth := hdepth
      covers := ⟨fun f hf x hx => hall.scheme _ le_rfl _ (hs.covers.values f (hscope ▸ hf) x hx),
        fun f hf x hx => hall.live _ le_rfl _ (hs.covers.types f (hscope ▸ hf) x hx)⟩
      results := fun t ht => hall.live _ le_rfl _ (hs.results t (hreturns ▸ ht))
      scopes := ⟨[], rfl, congrArg Scope.frames hscope⟩
      returns := hreturns }

/-! ## After a rejected declaration -/

/-- What a rejected declaration leaves behind: depths and counts are as before, the name of a rejected `let`
stands for a new variable, and what names stood for has only become more definite, where the check has bound
variables that were not generalized. -/
structure Recovered (d : Decl) (s s' : Checker) : Prop where
  frames : s'.frames.depth = s.frames.depth
  returns : s'.returns = s.returns
  loopDepth : s'.loopDepth = s.loopDepth
  scope : (∀ l, d ≠ .letDecl l) → s'.scope = s.scope
  rejectedLet : ∀ l, d = .letDecl l → ∃ v : TyVar, s'.scope = s.scope.insert l.name (.var v) ∧
    s.table.size ≤ v.id ∧ v.id < s'.table.size ∧ s'.table.isBound v.id = false ∧
      s'.table.isGeneralized v.id = false
  learns : ∀ f ∈ s.scope.frames, ∀ x ∈ f.values ++ f.types,
    (s'.table.resolveDeep x.2).1 = (s'.table.resolveDeep (s.table.resolveDeep x.2).1).1
  keeps : ∀ f ∈ s.scope.frames, ∀ x ∈ f.values ++ f.types,
    (∀ w ∈ (s.table.resolveDeep x.2).1.vars,
      s.table.isGeneralized w.id = true ∨ s'.table.isBound w.id = false) →
    (s'.table.resolveDeep x.2).1 = (s.table.resolveDeep x.2).1

theorem resolveDeep_later {T T' : Table} {X : Nat → Prop} {depth : Nat} (hT : T.Tame)
    (h : T.Evolves X depth T') (t : Ty) :
    (T'.resolveDeep t).1 = (T'.resolveDeep (T.resolveDeep t).1).1 ∧
      ((∀ w ∈ (T.resolveDeep t).1.vars, T.isGeneralized w.id = true ∨ T'.isBound w.id = false) →
        (T'.resolveDeep t).1 = (T.resolveDeep t).1) := by
  have hT' := h.grows.tame
  simp only [(Table.steady_resolveDeep hT.acyclic _).1, (Table.steady_resolveDeep hT'.acyclic _).1]
  refine ⟨(h.grows.deep t).symm, fun hw => ?_⟩
  have hunbound : ∀ w ∈ (T.deep t).vars, T'.deep (.var w) = .var w := fun w hmem => by
    refine Table.deep_var_of_unbound ((hw w hmem).elim (fun hg => ?_) Table.isBound_eq_false.mp)
    exact h.sealed w.id (.inr hg) (Table.unbound_of_mem_vars_deep hT.acyclic hmem)
  rw [← h.grows.deep, Table.deep_eq_subst, Ty.subst_congr hunbound, Ty.subst_var]

/-- Recovering from a failed check. -/
theorem Idle.recover (hs : s.Idle) (h : Left s.around s.table s₁) (index : Nat) (d : Decl)
    (e : CheckError) : (s.recover index d e s₁).Idle ∧ Recovered d s (s.recover index d e s₁) := by
  have hleft : Left s.around s.table (s₁.report index e) :=
    ⟨h.placed, h.graded, h.evolves, h.depth, h.scopes, h.returns⟩
  obtain ⟨hheld, hev, hscope, hreturns, hloop⟩ := Left.unwind hs.held hleft _ rfl
  unfold Checker.recover
  generalize (s₁.report index e).unwind s.scope.depth s.frames.depth s.returns.length s.loopDepth = s₂
    at hheld hev hscope hreturns hloop ⊢
  have htame := hs.held.placed.tame
  have hother : s₂.Idle ∧ ((∀ l, d ≠ .letDecl l) → Recovered d s s₂) :=
    ⟨⟨hheld.here, hscope ▸ hs.scopes⟩, fun hd =>
      ⟨hheld.depth, hreturns, hloop, fun _ => hscope, fun l hl => absurd hl (hd l),
        fun f _ x _ => (resolveDeep_later htame hev x.2).1,
        fun f _ x _ => (resolveDeep_later htame hev x.2).2⟩⟩
  cases d with
  | fn head body => exact ⟨hother.1, hother.2 nofun⟩
  | stmt st => exact ⟨hother.1, hother.2 nofun⟩
  | letDecl l =>
    have hcontains : ∀ B : Base, Contains B .base .base (fun _ => True) (fun r T => B.Live T r)
        (Check.freshVar l.name) := fun _ => contains_freshVar l.name
    obtain ⟨hnew, hev', hlive⟩ := hcontains _ s₂ hheld fun _ _ => trivial
    have hidle := hnew.bound (hscope ▸ hs.scopes) l.name (hlive _ hnew.later).scheme
    have hall := hev.trans hev'
    refine ⟨hidle, hnew.depth, hreturns, hloop, fun hd => absurd rfl (hd l), ?_,
      fun f _ x _ => (resolveDeep_later htame hall x.2).1,
      fun f _ x _ => (resolveDeep_later htame hall x.2).2⟩
    rintro _ ⟨⟩
    refine ⟨⟨s₂.table.size, l.name, false, false⟩, hscope ▸ rfl, hev.size, ?_, ?_, ?_⟩
    · exact (Table.size_newVar l.name false false s₂.frames.depth).symm ▸ Nat.lt_succ_self _
    · refine Table.isBound_eq_false.mpr ?_
      exact (Table.binding?_newVar l.name false false s₂.frames.depth s₂.table.size).trans
        (Table.binding?_of_size_le le_rfl)
    · refine (Table.isGeneralized_newVar l.name false false s₂.frames.depth s₂.table.size).trans ?_
      simp [Table.isGeneralized, Table.size]

/-- **The checker is sound between declarations**, whatever has been accepted and rejected before. -/
theorem Starts.idle [Check.Policy] {program : Program} (h : Starts program s) : s.Idle := by
  induction h with
  | first => exact idle_initial.openProgram program
  | @accepted s s' d d' _ hok ih =>
    have hnext := ih.topLevel d
    rw [hok] at hnext
    exact hnext
  | @rejected s s₁ d e index _ hfail ih =>
    have hnext := ih.topLevel d
    rw [hfail] at hnext
    exact (ih.recover hnext index d e).1

/-- **What a rejected declaration leaves behind.** -/
theorem Starts.recovered [Check.Policy] {program : Program} {d : Decl} {e : CheckError}
    (hs : Starts program s) (hfail : checkTopLevel d s = .error e s₁) (index : Nat) :
    Recovered d s (s.recover index d e s₁) := by
  have hnext := hs.idle.topLevel d
  rw [hfail] at hnext
  exact (hs.idle.recover hnext index d e).2

/-- A sum in which a name stands beside a truth value. -/
def sumOfTruth : Decl :=
  .stmt (.expr (.binary default .add (.ident default "f") (.literal default (.bool true))))

/-- The declaration of a function of that name. -/
def declOfF : Decl := .fn { (default : FnHead) with name := "f" } []

/-- The checker before the two of them. -/
def beforeSum : Checker := initial.after (openProgram [sumOfTruth, declOfF])

/-- The variable that stands for the function until its declaration is reached. -/
def placeholderOfF : Ty := .var ⟨10, "f", false, false⟩

/-- The sum is rejected, but by then the function is taken for a number. -/
theorem rejected_sumOfTruth : (match checkTopLevel sumOfTruth beforeSum with
    | .error _ s₁ => decide (((closeFrames beforeSum.frames.depth s₁.frames.depth s₁.frames
        s₁.table).2.resolveDeep placeholderOfF).1 = .number)
    | .ok _ _ => false) = true := by
  cbv

/-- All that the rejected sum leaves behind. -/
theorem Starts.recovered_sumOfTruth : ∃ e s₁, checkTopLevel sumOfTruth beforeSum = .error e s₁ ∧
    Starts [sumOfTruth, declOfF] beforeSum ∧
      Recovered sumOfTruth beforeSum (beforeSum.recover 0 sumOfTruth e s₁) := by
  have hrejected := rejected_sumOfTruth
  cases hcheck : checkTopLevel sumOfTruth beforeSum with
  | ok d s' =>
    rw [hcheck] at hrejected
    cases hrejected
  | error e s₁ =>
    have hstart : Starts [sumOfTruth, declOfF] beforeSum := .first
    exact ⟨e, s₁, rfl, hstart, hstart.recovered hcheck 0⟩

/-- **A rejected declaration can still be noticed.** A function is used in a sum that is rejected for another
reason; after that its name stands for a number. -/
theorem Starts.rejected_leavesTrace :
    ¬ ∀ (s s₁ : Checker) (d : Decl) (e : CheckError), Starts [sumOfTruth, declOfF] s →
      checkTopLevel d s = .error e s₁ → ∀ index name t, s.scope.lookup name = some t →
        ((s.recover index d e s₁).table.resolveDeep t).1 = (s.table.resolveDeep t).1 := by
  intro h
  have hlookup : beforeSum.scope.lookup "f" = some placeholderOfF := by cbv
  have hbefore : (beforeSum.table.resolveDeep placeholderOfF).1 = placeholderOfF := by cbv
  have hrejected := rejected_sumOfTruth
  cases hcheck : checkTopLevel sumOfTruth beforeSum with
  | ok d s' =>
    rw [hcheck] at hrejected
    cases hrejected
  | error e s₁ =>
    rw [hcheck] at hrejected
    have hafter : ((beforeSum.recover 0 sumOfTruth e s₁).table.resolveDeep placeholderOfF).1 = .number :=
      of_decide_eq_true hrejected
    have hsame := h beforeSum s₁ sumOfTruth e .first hcheck 0 "f" placeholderOfF hlookup
    rw [hafter, hbefore] at hsame
    cases hsame

end Checker

end Reified
