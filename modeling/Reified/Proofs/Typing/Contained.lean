import Reified.Proofs.Table.Instances
import Reified.Proofs.Typing.Learns

/-!
# What a check can reach

A check works above a base: the scopes and the functions around the place where it starts, and the depth
of the frames there. As long as what is in scope has schemes for types, whatever the check computes with
is live, so it binds no variable that has been generalized, and none that is set apart. As long as the
check does not fail, what gets further out than the base is drawn there by bindings. What is above the base
grows and shrinks. When a check fails, the base is still there below whatever has been opened.

What is known of types holds of later tables too, so the properties in what follows are asked of every
later table.

## Main definitions

* `Base`, `Position` — where the checker works
* `Checker.Held` — the state at a place
* `Checker.Left` — the state in which a failed check leaves the checker
* `Check.Contains` — an action that goes from a place to a place, or fails

## Main results

* `Check.Contains.bind` — one action after the other
* `Check.contains_unify`, `Check.contains_instantiate`, … — the elementary actions
* `Check.contains_inFrame` — an action in a frame of its own
-/

namespace Reified

/-- The surroundings of a check: the variables that are set apart, the number of open frames, the scopes,
the result types of the functions, and the table at its start. -/
structure Base where
  apart : Nat → Prop
  depth : Nat
  scopes : List ScopeFrame
  returns : List Ty
  table : Table

namespace Base

/-- A type that a check can work with. -/
abbrev Live (B : Base) (T : Table) (t : Ty) : Prop := T.Live B.apart B.depth t

/-- A type that a name can have. -/
abbrev Scheme (B : Base) (T : Table) (t : Ty) : Prop := T.Scheme B.apart B.depth t

/-- A later table. -/
abbrev Evolves (B : Base) (T T' : Table) : Prop := T.Evolves B.apart B.depth T'

/-- One more variable is set apart. -/
def reserve (B : Base) (id : Nat) : Base := { B with apart := fun w => B.apart w ∨ w = id }

/-- Values in scope have schemes for types, and types in scope are live. -/
structure Covers (B : Base) (T : Table) (S : Scope) : Prop where
  values : ∀ f ∈ S.frames, ∀ x ∈ f.values, B.Scheme T x.2
  types : ∀ f ∈ S.frames, ∀ x ∈ f.types, B.Live T x.2

namespace Covers

variable {B : Base} {T T' : Table} {S : Scope}

theorem later (h : B.Covers T S) (hev : B.Evolves T T') : B.Covers T' S where
  values f hf x hx := hev.scheme _ le_rfl _ (h.values f hf x hx)
  types f hf x hx := hev.live _ le_rfl _ (h.types f hf x hx)

theorem push (h : B.Covers T S) : B.Covers T S.push where
  values := List.forall_mem_cons.mpr ⟨nofun, h.values⟩
  types := List.forall_mem_cons.mpr ⟨nofun, h.types⟩

theorem pop (h : B.Covers T S) : B.Covers T S.pop where
  values f hf := h.values f (List.mem_of_mem_tail hf)
  types f hf := h.types f (List.mem_of_mem_tail hf)

theorem insert (h : B.Covers T S) (name : String) {t : Ty} (ht : B.Scheme T t) :
    B.Covers T (S.insert name t) := by
  obtain ⟨frames⟩ := S
  cases frames with
  | nil => exact h
  | cons f fs =>
    obtain ⟨hf, hfs⟩ := List.forall_mem_cons.mp h.values
    refine ⟨List.forall_mem_cons.mpr ⟨fun x hx => ?_, hfs⟩,
      List.forall_mem_cons.mpr (List.forall_mem_cons.mp h.types)⟩
    rcases Fields.mem_of_mem_insert hx with rfl | hx
    · exact ht
    · exact hf x hx

theorem insertType (h : B.Covers T S) (name : String) {t : Ty} (ht : B.Live T t) :
    B.Covers T (S.insertType name t) := by
  obtain ⟨frames⟩ := S
  cases frames with
  | nil => exact h
  | cons f fs =>
    obtain ⟨hf, hfs⟩ := List.forall_mem_cons.mp h.types
    refine ⟨List.forall_mem_cons.mpr (List.forall_mem_cons.mp h.values),
      List.forall_mem_cons.mpr ⟨fun x hx => ?_, hfs⟩⟩
    rcases Fields.mem_of_mem_insert hx with rfl | hx
    · exact ht
    · exact hf x hx

theorem lookup (h : B.Covers T S) {name : String} {t : Ty} (ht : S.lookup name = some t) :
    B.Scheme T t := by
  obtain ⟨f, hf, hget⟩ := List.exists_of_findSome?_eq_some ht
  exact h.values f hf _ (Fields.mem_of_get?_eq_some hget)

theorem lookupType (h : B.Covers T S) {name : String} {t : Ty} (ht : S.lookupType name = some t) :
    B.Live T t := by
  obtain ⟨f, hf, hget⟩ := List.exists_of_findSome?_eq_some ht
  exact h.types f hf _ (Fields.mem_of_get?_eq_some hget)

end Covers

end Base

/-- Where a check has got to above its base: the number of scopes, and the result types of functions. -/
structure Position where
  scopes : Nat
  returns : List Ty

namespace Position

/-- The base itself. -/
def base : Position := ⟨0, []⟩

/-- Inside a further scope. -/
def inScope (p : Position) : Position := { p with scopes := p.scopes + 1 }

/-- Inside the body of a function with the given result type. -/
def inBody (t : Ty) (p : Position) : Position := { p with returns := t :: p.returns }

end Position

namespace Checker

variable {B : Base} {p : Position} {s s' s₁ : Checker}

/-- The state of a checker at a place above a base. -/
structure Held (B : Base) (p : Position) (s : Checker) : Prop where
  placed : s.frames.Placed s.table
  graded : s.table.Graded
  apart : ∀ w, B.apart w → w < s.table.size ∧ s.table.binding? w = none
  drawn : B.table.Drawn B.depth s.table
  depth : s.frames.depth = B.depth
  covers : B.Covers s.table s.scope
  results : ∀ t ∈ s.returns, B.Live s.table t
  scopes : ∃ inner, inner.length = p.scopes ∧ s.scope.frames = inner ++ B.scopes
  returns : s.returns = p.returns ++ B.returns

/-- The state in which a check has failed that began with the table `T`. -/
structure Left (B : Base) (T : Table) (s : Checker) : Prop where
  placed : s.frames.Placed s.table
  graded : s.table.Graded
  evolves : B.Evolves T s.table
  depth : B.depth ≤ s.frames.depth
  scopes : B.scopes <:+ s.scope.frames
  returns : B.returns <:+ s.returns

namespace Held

theorem healthy (h : Held B p s) : s.table.Healthy := ⟨h.placed.tame, h.placed.known, h.graded⟩

theorem later (h : Held B p s) : B.Evolves s.table s.table := .refl h.placed.tame

theorem left (h : Held B p s) : Left B s.table s where
  placed := h.placed
  graded := h.graded
  evolves := h.later
  depth := h.depth.ge
  scopes := by
    obtain ⟨inner, -, hscopes⟩ := h.scopes
    exact ⟨inner, hscopes.symm⟩
  returns := ⟨p.returns, h.returns.symm⟩

/-- Only the table and the frames have changed. -/
theorem step (h : Held B p s) (hev : B.Evolves s.table s'.table) (hplaced : s'.frames.Placed s'.table)
    (hgraded : s'.table.Graded) (hdrawn : s.table.Drawn B.depth s'.table)
    (hdepth : s'.frames.depth = s.frames.depth) (hscope : s'.scope = s.scope)
    (hreturns : s'.returns = s.returns) : Held B p s' where
  placed := hplaced
  graded := hgraded
  apart w hw := ⟨(h.apart w hw).1.trans_le hev.size, hev.sealed w (.inl hw) (h.apart w hw).2⟩
  drawn := h.drawn.trans hdrawn hev.grows
  depth := hdepth.trans h.depth
  covers := hscope ▸ h.covers.later hev
  results t ht := hev.live _ le_rfl _ (h.results t (hreturns ▸ ht))
  scopes := hscope ▸ h.scopes
  returns := hreturns.trans h.returns

/-- The table may be one to start with. -/
theorem anew (h : Held B p s) : Held { B with table := s.table } p s :=
  { h with drawn := .refl _, covers := ⟨h.covers.values, h.covers.types⟩ }

/-- A new variable may be set apart from the start: nothing that was there can reach it. -/
theorem reserve (h : Held B p s) (name : String) (inferred rigid : Bool) :
    Held (B.reserve s.table.size) p { s with
      table := (s.table.newVar name inferred rigid s.frames.depth).2
      frames := s.frames.record s.table.size } ∧
      (B.reserve s.table.size).Evolves s.table (s.table.newVar name inferred rigid s.frames.depth).2 := by
  have hhealthy := h.healthy
  have hev : (B.reserve s.table.size).Evolves s.table _ :=
    Table.evolves_newVar hhealthy name inferred rigid s.frames.depth
  have hwiden : ∀ w, (B.reserve s.table.size).apart w → B.apart w ∨ s.table.size ≤ w := fun w hw =>
    hw.imp_right Eq.ge
  have hcovers : (B.reserve s.table.size).Covers s.table s.scope :=
    ⟨fun f hf x hx => (h.covers.values f hf x hx).widen hhealthy hwiden,
      fun f hf x hx => (h.covers.types f hf x hx).widen hhealthy hwiden⟩
  have hgrows := hhealthy.tame.newVar name inferred rigid s.frames.depth
  refine ⟨?_, hev⟩
  exact
    { placed := h.placed.newVar name inferred rigid
      graded := (hhealthy.newVar name inferred rigid s.frames.depth).graded
      apart := fun w hw => by
        rw [Table.size_newVar, Table.binding?_newVar]
        rcases hw with hw | rfl
        · exact ⟨Nat.lt_succ_of_lt (h.apart w hw).1, (h.apart w hw).2⟩
        · exact ⟨Nat.lt_succ_self _, Table.binding?_of_size_le le_rfl⟩
      drawn := h.drawn.trans (.newVar name inferred rigid h.depth.ge) hgrows
      depth := (Frames.depth_record s.frames s.table.size).trans h.depth
      covers := hcovers.later hev
      results := fun t ht => hev.live _ le_rfl _ ((h.results t ht).widen hhealthy hwiden)
      scopes := h.scopes
      returns := h.returns }

/-- In a further frame, everything else belongs to the base. -/
theorem inFrame (h : Held B p s) :
    Held ⟨B.apart, B.depth + 1, s.scope.frames, s.returns, s.table⟩ .base
      { s with frames := s.frames.push } where
  placed := h.placed.push
  graded := h.graded
  apart := h.apart
  drawn := .refl _
  depth := congrArg Nat.succ h.depth
  covers := ⟨fun f hf x hx => (h.covers.values f hf x hx).mono_depth (Nat.le_succ _),
    fun f hf x hx => (h.covers.types f hf x hx).mono_depth (Nat.le_succ _)⟩
  results t ht := (h.results t ht).mono_depth (Nat.le_succ _)
  scopes := ⟨[], rfl, rfl⟩
  returns := rfl

end Held

theorem Left.since (h : Left B s'.table s₁) (hev : B.Evolves s.table s'.table) : Left B s.table s₁ :=
  { h with evolves := hev.trans h.evolves }

end Checker

namespace Check

open Checker (Held Left)

variable {α β : Type} {B : Base} {p q r : Position} {known : Table → Prop}

/-- The action goes from a place to a place, or fails above the base. If something is known of all later
tables at first, then the answer has the property in view of all later tables. -/
def Contains (B : Base) (p q : Position) (known : Table → Prop) (post : α → Table → Prop) (act : Check α) :
    Prop :=
  ∀ s, Held B p s → (∀ T, B.Evolves s.table T → known T) → match act s with
    | .ok a s' => Held B q s' ∧ B.Evolves s.table s'.table ∧ ∀ T, B.Evolves s'.table T → post a T
    | .error _ s' => Left B s.table s'

namespace Contains

variable {post : α → Table → Prop} {act : Check α}

theorem pure {a : α} (h : ∀ T, known T → post a T) : Contains B p p known post (Pure.pure a) :=
  fun _ hs hk => ⟨hs, hs.later, fun T hT => h T (hk T hT)⟩

theorem fail (e : TyError) (span : Span) : Contains B p q known post (Check.fail e span) :=
  fun _ hs _ => hs.left

/-- One action after the other. -/
theorem bind {next : α → Check β} {post' : β → Table → Prop} (h : Contains B p q known post act)
    (hnext : ∀ a, Contains B q r (fun T => known T ∧ post a T) post' (next a)) :
    Contains B p r known post' (act >>= next) := by
  intro s hs hk
  have h1 := h s hs hk
  show match EStateM.bind act next s with
    | .ok b s' => Held B r s' ∧ B.Evolves s.table s'.table ∧ ∀ T, B.Evolves s'.table T → post' b T
    | .error _ s' => Left B s.table s'
  rw [EStateM.bind]
  cases hact : act s with
  | ok a s₁ =>
    rw [hact] at h1
    obtain ⟨hheld, hev, hpost⟩ := h1
    have h2 := hnext a s₁ hheld fun T hT => ⟨hk T (hev.trans hT), hpost T hT⟩
    cases hrest : next a s₁ with
    | ok b s₂ =>
      rw [hrest] at h2
      simp only [hrest]
      exact ⟨h2.1, hev.trans h2.2.1, h2.2.2⟩
    | error e s₂ =>
      rw [hrest] at h2
      simp only [hrest]
      exact h2.since hev
  | error e s₁ =>
    rw [hact] at h1
    exact h1

theorem mono {post' : α → Table → Prop} (h : Contains B p q known post act)
    (hpost : ∀ T, known T → ∀ a, post a T → post' a T) : Contains B p q known post' act := by
  intro s hs hk
  have h1 := h s hs hk
  cases hact : act s with
  | ok a s' =>
    rw [hact] at h1
    exact ⟨h1.1, h1.2.1, fun T hT => hpost T (hk T (h1.2.1.trans hT)) a (h1.2.2 T hT)⟩
  | error e s' =>
    rw [hact] at h1
    exact h1

theorem map {f : α → β} {post' : β → Table → Prop} (h : Contains B p q known post act)
    (hpost : ∀ T, known T → ∀ a, post a T → post' (f a) T) : Contains B p q known post' (f <$> act) := by
  rw [← bind_pure_comp]
  exact h.bind fun a => .pure fun T hk => hpost T hk.1 a hk.2

/-- The results of the functions around the place are live. -/
theorem get : Contains B p p known (fun s T => ∀ t ∈ s.returns, B.Live T t) MonadState.get :=
  fun _ hs _ => ⟨hs, hs.later, fun _ hT t ht => hT.live _ le_rfl _ (hs.results t ht)⟩

end Contains

/-- Nothing is said of the answer. -/
abbrev Anything {α : Type} : α → Table → Prop := fun _ _ => True

/-! ## Elementary actions -/

section elementary

variable {t u : Ty}

/-- Shortcuts in the table. -/
theorem contains_onTable {post : α → Table → Prop} {f : Table → α × Table}
    (h : ∀ T, T.Healthy → known T → T.Unchanged (f T).2 ∧ ∀ T', B.Evolves (f T).2 T' → post (f T).1 T') :
    Contains B p p known post (onTable f) := by
  intro s hs hk
  obtain ⟨hunchanged, hpost⟩ := h s.table hs.healthy (hk _ hs.later)
  have hev : B.Evolves s.table _ := hunchanged.evolves hs.healthy
  have hhealthy := hunchanged.healthy
  have hplaced := hs.placed.sink hhealthy.tame hunchanged.known
    (fun w hw => (hunchanged.unbound w).mp hw) fun w _ => (hunchanged.level w).le
  have hdrawn : s.table.Drawn B.depth _ :=
    .of_level hunchanged.size (fun w => (hunchanged.unbound w).mp) hunchanged.level
  exact ⟨hs.step hev hplaced hhealthy.graded hdrawn rfl rfl rfl, hev, hpost⟩

theorem contains_resolve (h : ∀ T, known T → B.Live T t) :
    Contains B p p known (fun r T => B.Live T r) (resolve t) := by
  refine contains_onTable fun T hT hk => ?_
  obtain ⟨hunchanged, hbelow, hdeep⟩ := Table.unchanged_resolve hT (h T hk).below
  refine ⟨hunchanged, fun T' hT' => hT'.live _ le_rfl _ ?_⟩
  refine ((hunchanged.evolves hT).live _ le_rfl _ (h T hk)).congr (hunchanged.size.symm ▸ hbelow) ?_
  rw [hunchanged.deep, hunchanged.deep, hdeep]

/-- A resolved type is a scheme if the type is. -/
theorem contains_resolveDeep (h : ∀ T, known T → B.Scheme T t) :
    Contains B p p known (fun r T => B.Scheme T r) (resolveDeep t) := by
  refine contains_onTable fun T hT hk => ?_
  have hscheme := h T hk
  obtain ⟨hunchanged, hdeep⟩ := Table.unchanged_resolveDeep hT hscheme.below
  refine ⟨hunchanged, fun T' hT' => hT'.scheme _ le_rfl _ ?_⟩
  refine ((hunchanged.evolves hT).scheme _ le_rfl _ hscheme).congr (fun v hv => ?_) ?_
  · rw [hdeep] at hv
    exact hunchanged.size.symm ▸ Table.below_deep hT.tame.acyclic hT.below_binding hscheme.below v hv
  · rw [hdeep, hunchanged.deep, hunchanged.deep, Table.deep_deep hT.tame.acyclic]

theorem contains_substitute {image : List (Nat × Ty)} (h : ∀ T, known T → B.Live T t)
    (himage : ∀ T, known T → ∀ x ∈ image, B.Live T x.2) :
    Contains B p p known (fun r T => B.Live T r) (substitute image t) := by
  refine contains_onTable fun T hT hk => ?_
  have hunchanged := Table.unchanged_substitute hT (h T hk).below image
  refine ⟨hunchanged, fun T' hT' => hT'.live _ le_rfl _ ((hunchanged.evolves hT).live _ le_rfl _ ?_)⟩
  exact (h T hk).substitute hT (himage T hk)

theorem contains_unify (span : Span) (ht : ∀ T, known T → B.Live T t)
    (hu : ∀ T, known T → B.Live T u) : Contains B p p known Anything (unify t u span) := by
  rintro ⟨T, S, F, D, R, L⟩ hs hk
  have hknown := hk T hs.later
  have hworks := Table.works_unify hs.healthy (fun w hw => (hs.apart w hw).2) (ht T hknown) (hu T hknown)
  have hev := hworks.evolves (e := B.depth) hs.healthy (hs.placed.tame.unify t u)
  have hplaced := hs.placed.sink hworks.tame hworks.known hworks.unbound fun w _ => hworks.level w
  have hunified := hs.placed.known.unify hs.placed.tame (ht T hknown).below (hu T hknown).below
  simp only [unify]
  cases hunify : T.unify t u with
  | ok _ T' =>
    rw [hunify] at hworks hev hplaced hunified
    obtain ⟨hrefines, hknown'⟩ := hunified
    exact ⟨hs.step hev hplaced hworks.graded (hrefines.drawn hknown'.size) rfl rfl rfl, hev,
      fun _ _ => trivial⟩
  | error e T' =>
    -- a level may have been lowered for nothing
    rw [hunify] at hworks hev hplaced
    exact { hs.left with placed := hplaced, graded := hworks.graded, evolves := hev }

/-- New variables in the innermost frame. -/
theorem contains_onFrames {post : α → Table → Prop} {f : Frames → Table → α × Frames × Table}
    (h : ∀ F T, Frames.Placed F T → T.Healthy → (∀ w, B.apart w → w < T.size) → F.depth = B.depth →
      known T → B.Evolves T (f F T).2.2 ∧ (f F T).2.1.Placed (f F T).2.2 ∧ (f F T).2.2.Healthy ∧
        T.Drawn B.depth (f F T).2.2 ∧ (f F T).2.1.depth = F.depth ∧
        ∀ T', B.Evolves (f F T).2.2 T' → post (f F T).1 T') :
    Contains B p p known post (onFrames f) := by
  intro s hs hk
  obtain ⟨hev, hplaced, hhealthy, hdrawn, hdepth, hpost⟩ :=
    h s.frames s.table hs.placed hs.healthy (fun w hw => (hs.apart w hw).1) hs.depth (hk _ hs.later)
  exact ⟨hs.step hev hplaced hhealthy.graded hdrawn hdepth rfl rfl, hev, hpost⟩

theorem contains_newVar (name : String) (inferred rigid : Bool) :
    Contains B p p known (fun r T => B.Live T r) (newVar name inferred rigid) := by
  refine contains_onFrames fun F T hplaced hT hX hdepth _ => ?_
  have hlive := Table.live_newVar hX name inferred rigid F.depth
  refine ⟨Table.evolves_newVar hT name inferred rigid F.depth, hplaced.newVar name inferred rigid,
    hT.newVar name inferred rigid F.depth, .newVar name inferred rigid hdepth.ge,
    Frames.depth_record F T.size, fun T' hT' => ?_⟩
  exact hT'.live _ le_rfl _ (hdepth ▸ hlive)

theorem contains_freshVar (name : String) :
    Contains B p p known (fun r T => B.Live T r) (freshVar name) :=
  contains_newVar name false false

theorem contains_instantiate (h : ∀ T, known T → B.Scheme T t) :
    Contains B p p known (fun r T => B.Live T r) (instantiate t) := by
  refine contains_onFrames fun F T hplaced hT hX hdepth hk => ?_
  have hscheme := h T hk
  have hinstance : B.Evolves T (T.instantiate t F.depth).2.2 ∧ (T.instantiate t F.depth).2.2.Healthy ∧
      B.Live (T.instantiate t F.depth).2.2 (T.instantiate t F.depth).1 := by
    rw [hdepth]
    exact Table.live_instantiate hT hX hscheme
  obtain ⟨hev, hhealthy, hlive⟩ := hinstance
  exact ⟨hev, hplaced.instantiate hscheme.below, hhealthy, hdepth ▸ hplaced.drawn_instantiate hscheme.below,
    Frames.depth_foldl_record F _, fun T' hT' => hT'.live _ le_rfl _ hlive⟩

end elementary

/-! ## Scopes, bodies and loops -/

section scope

variable {t : Ty}

theorem contains_onScope {f : Scope → Scope} (hreturns : q.returns = p.returns)
    (hcovers : ∀ T S, known T → B.Covers T S → B.Covers T (f S))
    (hscopes : ∀ S inner, inner.length = p.scopes → S.frames = inner ++ B.scopes →
      ∃ inner, inner.length = q.scopes ∧ (f S).frames = inner ++ B.scopes) :
    Contains B p q known Anything (onScope f) := by
  intro s hs hk
  obtain ⟨inner, hlength, hframes⟩ := hs.scopes
  exact ⟨{ hs with
    covers := hcovers _ _ (hk _ hs.later) hs.covers
    scopes := hscopes _ inner hlength hframes
    returns := hs.returns.trans (hreturns ▸ rfl) }, hs.later, fun _ _ => trivial⟩

theorem contains_pushScope : Contains B p p.inScope known Anything pushScope :=
  contains_onScope rfl (fun _ _ _ h => h.push) fun _ inner hlength hframes =>
    ⟨⟨[], []⟩ :: inner, congrArg Nat.succ hlength, congrArg (List.cons _) hframes⟩

theorem contains_popScope : Contains B p.inScope p known Anything popScope :=
  contains_onScope rfl (fun _ _ _ h => h.pop) fun S inner hlength hframes => by
    obtain ⟨f, inner, rfl⟩ := List.exists_cons_of_length_eq_add_one hlength
    exact ⟨inner, Nat.succ.inj hlength, congrArg List.tail hframes⟩

theorem contains_bindValue (name : String) (h : ∀ T, known T → B.Scheme T t) :
    Contains B p.inScope p.inScope known Anything (bindValue name t) :=
  contains_onScope rfl (fun T _ hk hS => hS.insert name (h T hk)) fun S inner hlength hframes => by
    obtain ⟨f, inner, rfl⟩ := List.exists_cons_of_length_eq_add_one hlength
    obtain ⟨frames⟩ := S
    obtain rfl : frames = f :: inner ++ B.scopes := hframes
    exact ⟨{ f with values := Fields.insert name t f.values } :: inner, hlength, rfl⟩

theorem contains_bindType (name : String) (h : ∀ T, known T → B.Live T t) :
    Contains B p.inScope p.inScope known Anything (bindType name t) :=
  contains_onScope rfl (fun T _ hk hS => hS.insertType name (h T hk)) fun S inner hlength hframes => by
    obtain ⟨f, inner, rfl⟩ := List.exists_cons_of_length_eq_add_one hlength
    obtain ⟨frames⟩ := S
    obtain rfl : frames = f :: inner ++ B.scopes := hframes
    exact ⟨{ f with types := Fields.insert name t f.types } :: inner, hlength, rfl⟩

theorem contains_enterBody (h : ∀ T, known T → B.Live T t) :
    Contains B p (p.inBody t) known Anything (enterBody t) :=
  fun _ hs hk => ⟨{ hs with
    results := List.forall_mem_cons.mpr ⟨h _ (hk _ hs.later), hs.results⟩
    returns := congrArg _ hs.returns }, hs.later, fun _ _ => trivial⟩

theorem contains_leaveBody (loopDepth : Nat) :
    Contains B (p.inBody t) p known Anything (leaveBody loopDepth) :=
  fun _ hs _ => ⟨{ hs with
    results := fun u hu => hs.results u (List.mem_of_mem_tail hu)
    returns := congrArg List.tail hs.returns }, hs.later, fun _ _ => trivial⟩

theorem contains_setLoopDepth (f : Nat → Nat) : Contains B p p known Anything (setLoopDepth f) :=
  fun _ hs _ => ⟨{ hs with }, hs.later, fun _ _ => trivial⟩

theorem contains_jump (keyword : String) (span : Span) :
    Contains B p p known Anything (jump keyword span) := by
  refine Contains.get.bind fun s => ?_
  split
  · exact .fail _ _
  · exact .pure fun _ _ => trivial

theorem contains_lookup (name : String) (span : Span) :
    Contains B p p known (fun r T => B.Live T r) (lookup name span) := by
  intro s hs hk
  rw [lookup_eq]
  cases hlookup : s.scope.lookup name with
  | none => exact hs.left
  | some t =>
    have hcontains : Contains B p p (fun T => B.Scheme T t) (fun r T => B.Live T r) (instantiate t) :=
      contains_instantiate fun _ h => h
    exact hcontains s hs fun T hT => hT.scheme _ le_rfl _ (hs.covers.lookup hlookup)

theorem contains_unknown [Policy] (span : Span) : Contains B p p known Anything (unknown span) := by
  unfold unknown
  split
  · exact .fail _ _
  · exact .pure fun _ _ => trivial

theorem contains_hole [Policy] (name : String) (span : Span) :
    Contains B p p known (fun r T => B.Live T r) (hole name span) :=
  (contains_unknown span).bind fun _ => contains_freshVar name

end scope

/-! ## Frames -/

/-- Closing a frame: what is live or a scheme further out remains so, every type in which what is set apart
remains as rigid at most becomes a scheme, and no level changes. -/
theorem evolves_pop {F : Frames} {T : Table} {X : Nat → Prop} {depth : Nat} (h : F.Placed T)
    (hgraded : T.Graded) (hd : F.depth = depth + 1) :
    T.Evolves X depth (F.pop T).2.2 ∧ (F.pop T).2.1.Placed (F.pop T).2.2 ∧ (F.pop T).2.2.Healthy ∧
      (F.pop T).2.1.depth = depth ∧
      (∀ t, T.Remains (Table.Spares X) t → (F.pop T).2.2.Scheme X depth t) ∧
      T.Drawn depth (F.pop T).2.2 := by
  have hhealthy : T.Healthy := ⟨h.tame, h.known, hgraded⟩
  obtain ⟨ids, -, hmem, -, htable, hdepth, hplaced⟩ := h.pop_spec (hd ▸ Nat.succ_pos _)
  rw [hd] at hmem hdepth
  have hids : ∀ id ∈ ids, id < T.size ∧ depth < T.level id := fun id hid => by
    have hstays := (hmem id).mp hid
    simp only [Table.stays, Bool.and_eq_true, decide_eq_true_eq] at hstays
    exact ⟨Table.lt_size_of_lt_level hstays.2, hstays.2⟩
  refine ⟨?_, hplaced, ?_, hdepth, fun t ht => ?_, ?_⟩ <;> rw [htable]
  · exact Table.evolves_generalizeAll hhealthy hids
  · exact hhealthy.generalizeAll ids
  · exact Table.scheme_generalizeAll h.tame.acyclic hmem ht
  · exact .of_level (Table.size_generalizeAll ids) (fun w hw => (Table.binding?_generalizeAll ids w) ▸ hw)
      (Table.level_generalizeAll ids)

/-- **An action in a frame of its own.** Above whatever base it is contained, and its answer begins with a
live type. When the frame is closed, that type is a scheme. -/
theorem contains_inFrame {act : Check (Ty × α)}
    (h : ∀ B : Base, Contains B .base .base (fun _ => True) (fun r T => B.Live T r.1) act) :
    Contains B p p known (fun r T => B.Scheme T r.1) (do
      pushFrame
      let r ← act
      popFrame
      return r) := by
  intro s hs _
  -- the base of the action is all that there is
  let B' : Base := ⟨B.apart, B.depth + 1, s.scope.frames, s.returns, s.table⟩
  let s₁ : Checker := { s with frames := s.frames.push }
  have h1 := h B' s₁ hs.inFrame fun _ _ => trivial
  have hstep : (do
      pushFrame
      let r ← act
      popFrame
      return r : Check (Ty × α)) s = match act s₁ with
        | .ok r s₂ => .ok r ⟨(s₂.frames.pop s₂.table).2.2, s₂.scope, (s₂.frames.pop s₂.table).2.1,
            s₂.diagnostics, s₂.returns, s₂.loopDepth⟩
        | .error e s₂ => .error e s₂ := by
    show EStateM.bind act _ s₁ = _
    rw [EStateM.bind]
    cases act s₁ <;> rfl
  rw [hstep]
  cases hact : act s₁ with
  | error e s₂ =>
    rw [hact] at h1
    exact
      { placed := h1.placed
        graded := h1.graded
        evolves := h1.evolves.mono_depth (Nat.le_succ _)
        depth := (Nat.le_succ _).trans h1.depth
        scopes := hs.left.scopes.trans h1.scopes
        returns := hs.left.returns.trans h1.returns }
  | ok r s₂ =>
    rw [hact] at h1
    obtain ⟨hheld, hev, hlive⟩ := h1
    obtain ⟨hpop, hplaced, hhealthy, hdepth, hscheme, hdrawn⟩ :=
      evolves_pop (X := B.apart) hheld.placed hheld.graded hheld.depth
    have hdrawn := (hheld.drawn.mono (Nat.le_succ _)).trans hdrawn hpop.grows
    have hall := (hev.mono_depth (Nat.le_succ _)).trans hpop
    obtain ⟨inner, hlength, hscopes⟩ := hheld.scopes
    obtain rfl := List.eq_nil_of_length_eq_zero hlength
    have hscope : s₂.scope = s.scope := congrArg Scope.mk hscopes
    exact ⟨hs.step hall hplaced hhealthy.graded hdrawn (hdepth.trans hs.depth.symm) hscope hheld.returns, hall,
      fun T hT => hT.scheme _ le_rfl _ (hscheme _ ((hlive _ hheld.later).mono fun _ h => h.1))⟩

end Check

end Reified
