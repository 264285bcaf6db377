import Reified.Proofs.Table.Live
import Reified.Proofs.Table.Monomorphic
import Reified.Proofs.Ty.Proper
import Reified.Proofs.Typing.Actions
import Reified.Typing.Stmt

/-!
# Proper checkers

All types that a checker computes with are proper over the variables that have been created so far. The list of
these grows while a program is checked. What is proper over some variables is proper over more of them, so an
action is described by what it does from one list of variables to a longer one.

## Main definitions

* `Table.Proper`, `Checker.Proper` — all types in a table or a checker are proper
* `Check.Forms` — an action that keeps a checker proper, and answers something over its variables

## Main results

* `Table.Proper.unify`, `Table.Proper.instantiate`, … — the operations on a table
* `Check.Forms.bind` — one action after the other
* `Check.forms_unify`, `Check.forms_lookup`, … — the elementary actions
-/

namespace Reified

/-! ## Tables -/

/-- The table was built over the variables, and binds them to proper types. -/
structure Table.Proper (vs : List TyVar) (T : Table) : Prop extends T.Inv vs where
  counted : ∀ id t, T.binding? id = some t → t.Counted

namespace Table

theorem changes_counted : Changes (fun T => T.Tame ∧ ∀ id t, T.binding? id = some t → t.Counted) Ty.Counted :=
  changes_ofKind (fun _ => trivial) Ty.Part.counted

theorem creates_counted (level : Nat) :
    Creates (fun _ T => T.Tame ∧ ∀ id t, T.binding? id = some t → t.Counted) (fun _ => Ty.Counted) level where
  shortcuts _ := changes_counted.toShortcuts
  mono _ ht := ht
  newVar {_ T} name inferred h :=
    have hb := binding?_newVar (T := T) name inferred false level
    ⟨(h.1.newVar name inferred false level).tame, fun id t ht => h.2 id t (hb id ▸ ht)⟩

namespace Proper

variable {vs : List TyVar} {T : Table} {t u : Ty}

theorem tame (h : T.Proper vs) : T.Tame := ⟨h.acyclic, h.quiet⟩

theorem kept (h : T.Proper vs) : T.Tame ∧ ∀ id t, T.binding? id = some t → t.Counted := ⟨h.tame, h.counted⟩

theorem empty : Table.empty.Proper [] where
  toInv := Inv.empty
  counted id t h := by simp [Table.empty, binding?] at h

/-- A change that keeps the invariant and the bindings. -/
theorem of_binding?_eq {T' : Table} {ws : List TyVar} (h : T.Proper vs) (hT : T'.Inv ws)
    (hb : ∀ id, T'.binding? id = T.binding? id) : T'.Proper ws :=
  ⟨hT, fun id t ht => h.counted id t (hb id ▸ ht)⟩

theorem unify (h : T.Proper vs) (ht : t.Proper vs) (hu : u.Proper vs) : (T.unify t u).table.Proper vs :=
  ⟨h.toInv.unify ht.toOver hu.toOver, (changes_counted.unify h.kept ht.counted hu.counted).2⟩

theorem resolve (h : T.Proper vs) (ht : t.Proper vs) :
    (T.resolve t).1.Proper vs ∧ (T.resolve t).2.Proper vs := by
  obtain ⟨hagrees, hover, -⟩ := resolve_spec h.toInv ht.toOver
  obtain ⟨hcounted, -, hkept⟩ := changes_counted.resolve h.kept ht.counted
  exact ⟨⟨hover, hcounted⟩, hagrees.inv, hkept⟩

/-- What a proper type stands for is proper. -/
theorem deep (h : T.Proper vs) (ht : t.Proper vs) : (T.deep t).Proper vs := by
  obtain ⟨rank, hr⟩ := h.acyclic.exists_ranks
  -- by induction on a bound for the ranks of the variables of the type
  suffices key : ∀ n t, t.Proper vs → (T.deepWithin n t).Proper vs from key _ t ht
  intro n
  induction n with
  | zero => exact fun _ ht => ht
  | succ n ih =>
    intro t ht
    rw [deepWithin]
    refine ht.subst fun v hv => ?_
    cases hb : T.binding? v.id with
    | none => exact .var (ht.vars v hv)
    | some s => exact ih s ⟨h.now.written v.id s hb, h.counted v.id s hb⟩

theorem resolveDeep (h : T.Proper vs) (ht : t.Proper vs) :
    (T.resolveDeep t).1.Proper vs ∧ (T.resolveDeep t).2.Proper vs := by
  obtain ⟨hdeep, hagrees⟩ := resolveDeep_spec h.toInv ht.toOver
  exact ⟨hdeep ▸ h.deep ht, hagrees.inv, (changes_counted.resolveDeep h.kept ht.counted).2⟩

theorem substitute (h : T.Proper vs) (ht : t.Proper vs) {image : List (Nat × Ty)}
    (himage : ∀ x ∈ image, x.2.Proper vs) :
    (T.substitute t image).1.Proper vs ∧ (T.substitute t image).2.Proper vs := by
  refine ⟨?_, h.toInv.substitute ht.toOver image, (changes_counted.substitute h.kept ht.counted image).2⟩
  rw [substitute_eq h.acyclic]
  refine (h.deep ht).subst fun v hv => ?_
  cases hlookup : image.lookup v.id with
  | some u =>
    obtain ⟨before, after, rfl, -⟩ := List.lookup_eq_some_iff.mp hlookup
    exact himage (v.id, u) (by simp)
  | none => exact .var ((h.deep ht).vars v hv)

theorem newVar (h : T.Proper vs) (name : String) (inferred rigid : Bool) (level : Nat) :
    (T.newVar name inferred rigid level).2.Proper (vs ++ [(T.newVar name inferred rigid level).1]) :=
  h.of_binding?_eq (h.toInv.newVar name inferred rigid level) (binding?_newVar name inferred rigid level)

theorem generalize (h : T.Proper vs) (id : Nat) : (T.generalize id).Proper vs :=
  h.of_binding?_eq (h.toInv.generalize id) (binding?_generalize id)

/-- **An instance** is proper over the variables and its copies. -/
theorem instantiate (h : T.Proper vs) (ht : t.Proper vs) (level : Nat) :
    (T.instantiate t level).1.Proper (vs ++ (T.instantiate t level).2.1) ∧
      (T.instantiate t level).2.2.Proper (vs ++ (T.instantiate t level).2.1) := by
  have hinv := h.toInv.instantiate ht.toOver level
  have hcounted := (@Creates.instantiate T _ _ level vs (creates_counted level) h.kept t ht.counted).2
  obtain ⟨S, hmade, heq⟩ := T.instantiate_eq h.acyclic t level
  rw [heq] at hinv hcounted ⊢
  refine ⟨(h.deep ht).subst fun v hv => ?_, hinv, hcounted⟩
  cases hg : T.isGeneralized v.id with
  | false =>
    rw [renamed_of_not hg]
    exact .var (List.mem_append_left _ ((h.deep ht).vars v hv))
  | true =>
    obtain ⟨w, hw, hid⟩ := exists_marked hv hg
    rw [copies_eq_map_renamed, ← renamed_eq_of_id (mem_marked hw).1 (mem_marked hw).2 hid]
    exact .var (List.mem_append_right _ (List.mem_map_of_mem hw))

end Proper

end Table

/-! ## Checkers -/

/-- All types in scope are proper. -/
structure Scope.Proper (vs : List TyVar) (s : Scope) : Prop where
  values : ∀ f ∈ s.frames, ∀ x ∈ f.values, x.2.Proper vs
  types : ∀ f ∈ s.frames, ∀ x ∈ f.types, x.2.Proper vs

namespace Scope.Proper

variable {vs ws : List TyVar} {s : Scope}

theorem mono (h : s.Proper vs) (hvs : vs <+: ws) : s.Proper ws :=
  ⟨fun f hf x hx => (h.values f hf x hx).mono hvs, fun f hf x hx => (h.types f hf x hx).mono hvs⟩

theorem push (h : s.Proper vs) : s.push.Proper vs where
  values := List.forall_mem_cons.mpr ⟨nofun, h.values⟩
  types := List.forall_mem_cons.mpr ⟨nofun, h.types⟩

theorem pop (h : s.Proper vs) : s.pop.Proper vs where
  values f hf := h.values f (List.mem_of_mem_tail hf)
  types f hf := h.types f (List.mem_of_mem_tail hf)

theorem truncate (h : s.Proper vs) (depth : Nat) : (s.truncate depth).Proper vs where
  values f hf := h.values f (List.mem_of_mem_drop hf)
  types f hf := h.types f (List.mem_of_mem_drop hf)

theorem insert (h : s.Proper vs) (name : String) {t : Ty} (ht : t.Proper vs) :
    (s.insert name t).Proper vs := by
  obtain ⟨frames⟩ := s
  cases frames with
  | nil => exact h
  | cons f fs =>
    obtain ⟨hf, hfs⟩ := List.forall_mem_cons.mp h.values
    refine ⟨List.forall_mem_cons.mpr ⟨fun x hx => ?_, hfs⟩,
      List.forall_mem_cons.mpr (List.forall_mem_cons.mp h.types)⟩
    rcases Fields.mem_of_mem_insert hx with rfl | hx
    · exact ht
    · exact hf x hx

theorem insertType (h : s.Proper vs) (name : String) {t : Ty} (ht : t.Proper vs) :
    (s.insertType name t).Proper vs := by
  obtain ⟨frames⟩ := s
  cases frames with
  | nil => exact h
  | cons f fs =>
    obtain ⟨hf, hfs⟩ := List.forall_mem_cons.mp h.types
    refine ⟨List.forall_mem_cons.mpr (List.forall_mem_cons.mp h.values),
      List.forall_mem_cons.mpr ⟨fun x hx => ?_, hfs⟩⟩
    rcases Fields.mem_of_mem_insert hx with rfl | hx
    · exact ht
    · exact hf x hx

theorem lookup (h : s.Proper vs) {name : String} {t : Ty} (ht : s.lookup name = some t) : t.Proper vs := by
  obtain ⟨f, hf, hget⟩ := List.exists_of_findSome?_eq_some ht
  exact h.values f hf _ (Fields.mem_of_get?_eq_some hget)

theorem lookupType (h : s.Proper vs) {name : String} {t : Ty} (ht : s.lookupType name = some t) :
    t.Proper vs := by
  obtain ⟨f, hf, hget⟩ := List.exists_of_findSome?_eq_some ht
  exact h.types f hf _ (Fields.mem_of_get?_eq_some hget)

end Scope.Proper

/-- All types that a checker has to do with are proper. -/
structure Checker.Proper (vs : List TyVar) (s : Checker) : Prop where
  table : s.table.Proper vs
  scope : s.scope.Proper vs
  returns : ∀ t ∈ s.returns, t.Proper vs

namespace Check

open Checker (Proper)

variable {α β : Type} {vs ws : List TyVar}

/-- The action keeps a checker proper, over the variables that there were and some more, and its answer has a
property that is about all of these. -/
def Forms (vs : List TyVar) (post : List TyVar → α → Prop) (act : Check α) : Prop :=
  ∀ s, Proper vs s → match act s with
    | .ok a s' => ∃ ws, vs <+: ws ∧ Proper ws s' ∧ post ws a
    | .error _ s' => ∃ ws, vs <+: ws ∧ Proper ws s'

/-- Nothing is said of the answer. -/
abbrev Formed {α : Type} : List TyVar → α → Prop := fun _ _ => True

namespace Forms

variable {post post' : List TyVar → α → Prop} {act : Check α}

theorem pure {a : α} (h : post vs a) : Forms vs post (Pure.pure a) :=
  fun _ hs => ⟨vs, List.prefix_rfl, hs, h⟩

theorem throw (e : CheckError) : Forms vs post (throw e) := fun _ hs => ⟨vs, List.prefix_rfl, hs⟩

theorem fail (e : TyError) (span : Span) : Forms vs post (Check.fail e span) :=
  fun _ hs => ⟨vs, List.prefix_rfl, hs⟩

/-- One action after the other. -/
theorem bind {next : α → Check β} {post' : List TyVar → β → Prop} (h : Forms vs post act)
    (hnext : ∀ ws, vs <+: ws → ∀ a, post ws a → Forms ws post' (next a)) : Forms vs post' (act >>= next) := by
  intro s hs
  have h1 := h s hs
  show match EStateM.bind act next s with
    | .ok b s' => ∃ ws, vs <+: ws ∧ Proper ws s' ∧ post' ws b
    | .error _ s' => ∃ ws, vs <+: ws ∧ Proper ws s'
  rw [EStateM.bind]
  cases hact : act s with
  | ok a s₁ =>
    rw [hact] at h1
    obtain ⟨ws, hws, hs₁, ha⟩ := h1
    have h2 := hnext ws hws a ha s₁ hs₁
    cases hrest : next a s₁ with
    | ok b s₂ =>
      rw [hrest] at h2
      obtain ⟨us, hus, hs₂, hb⟩ := h2
      simp only [hrest]
      exact ⟨us, hws.trans hus, hs₂, hb⟩
    | error e s₂ =>
      rw [hrest] at h2
      obtain ⟨us, hus, hs₂⟩ := h2
      simp only [hrest]
      exact ⟨us, hws.trans hus, hs₂⟩
  | error e s₁ =>
    rw [hact] at h1
    exact h1

theorem mono (h : Forms vs post act) (hpost : ∀ ws, vs <+: ws → ∀ a, post ws a → post' ws a) :
    Forms vs post' act := by
  intro s hs
  have h1 := h s hs
  cases hact : act s with
  | ok a s' =>
    rw [hact] at h1
    obtain ⟨ws, hws, hs', ha⟩ := h1
    exact ⟨ws, hws, hs', hpost ws hws a ha⟩
  | error e s' =>
    rw [hact] at h1
    exact h1

theorem map {f : α → β} {post' : List TyVar → β → Prop} (h : Forms vs post act)
    (hpost : ∀ ws, vs <+: ws → ∀ a, post ws a → post' ws (f a)) : Forms vs post' (f <$> act) := by
  rw [← bind_pure_comp]
  exact h.bind fun ws hws a ha => .pure (hpost ws hws a ha)

/-- The state that an action looks at is proper. -/
theorem get : Forms vs (fun ws s => Proper ws s) MonadState.get :=
  fun _ hs => ⟨vs, List.prefix_rfl, hs, hs⟩

end Forms

/-! ## Elementary actions -/

section elementary

variable {t u : Ty}

theorem forms_resolve (ht : t.Proper vs) : Forms vs (fun ws r => r.Proper ws) (resolve t) := fun _ hs =>
  ⟨vs, List.prefix_rfl, ⟨(hs.table.resolve ht).2, hs.scope, hs.returns⟩, (hs.table.resolve ht).1⟩

theorem forms_resolveDeep (ht : t.Proper vs) : Forms vs (fun ws r => r.Proper ws) (resolveDeep t) := fun _ hs =>
  ⟨vs, List.prefix_rfl, ⟨(hs.table.resolveDeep ht).2, hs.scope, hs.returns⟩, (hs.table.resolveDeep ht).1⟩

theorem forms_substitute {image : List (Nat × Ty)} (himage : ∀ x ∈ image, x.2.Proper vs) (ht : t.Proper vs) :
    Forms vs (fun ws r => r.Proper ws) (substitute image t) := fun _ hs =>
  have h := hs.table.substitute ht himage
  ⟨vs, List.prefix_rfl, ⟨h.2, hs.scope, hs.returns⟩, h.1⟩

theorem forms_unify (ht : t.Proper vs) (hu : u.Proper vs) (span : Span) : Forms vs Formed (unify t u span) := by
  rintro ⟨T, S, F, D, R, L⟩ hs
  have hT := hs.table.unify ht hu
  simp only [unify]
  cases hunify : T.unify t u with
  | ok _ T' =>
    rw [hunify] at hT
    exact ⟨vs, List.prefix_rfl, ⟨hT, hs.scope, hs.returns⟩, trivial⟩
  | error e T' =>
    rw [hunify] at hT
    exact ⟨vs, List.prefix_rfl, hT, hs.scope, hs.returns⟩

theorem forms_newVar (name : String) (inferred rigid : Bool) :
    Forms vs (fun ws r => r.Proper ws) (newVar name inferred rigid) := fun s hs => by
  have hws : vs <+: vs ++ [(s.table.newVar name inferred rigid s.frames.depth).1] := List.prefix_append vs _
  refine ⟨_, hws, ⟨hs.table.newVar name inferred rigid s.frames.depth, hs.scope.mono hws, fun t ht =>
    (hs.returns t ht).mono hws⟩, .var (List.mem_append_right _ (List.mem_singleton_self _))⟩

theorem forms_freshVar (name : String) : Forms vs (fun ws r => r.Proper ws) (freshVar name) :=
  forms_newVar name false false

theorem forms_instantiate (ht : t.Proper vs) : Forms vs (fun ws r => r.Proper ws) (instantiate t) := fun s hs => by
  have h := hs.table.instantiate ht s.frames.depth
  have hws : vs <+: vs ++ (s.table.instantiate t s.frames.depth).2.1 := List.prefix_append vs _
  exact ⟨_, hws, ⟨h.2, hs.scope.mono hws, fun t ht => (hs.returns t ht).mono hws⟩, h.1⟩

theorem forms_pushScope : Forms vs Formed pushScope :=
  fun _ hs => ⟨vs, List.prefix_rfl, ⟨hs.table, hs.scope.push, hs.returns⟩, trivial⟩

theorem forms_popScope : Forms vs Formed popScope :=
  fun _ hs => ⟨vs, List.prefix_rfl, ⟨hs.table, hs.scope.pop, hs.returns⟩, trivial⟩

theorem forms_bindValue (name : String) (ht : t.Proper vs) : Forms vs Formed (bindValue name t) :=
  fun _ hs => ⟨vs, List.prefix_rfl, ⟨hs.table, hs.scope.insert name ht, hs.returns⟩, trivial⟩

theorem forms_bindType (name : String) (ht : t.Proper vs) : Forms vs Formed (bindType name t) :=
  fun _ hs => ⟨vs, List.prefix_rfl, ⟨hs.table, hs.scope.insertType name ht, hs.returns⟩, trivial⟩

theorem forms_pushFrame : Forms vs Formed pushFrame :=
  fun _ hs => ⟨vs, List.prefix_rfl, ⟨hs.table, hs.scope, hs.returns⟩, trivial⟩

/-- Closing a frame only marks variables as generalized. -/
theorem proper_settle (depth : Nat) (ids done : List Nat) (F : Frames) {T : Table} (h : T.Proper vs) :
    (Frames.settle depth ids F T done).2.2.Proper vs := by
  induction ids generalizing F T done with
  | nil => exact h
  | cons id ids ih =>
    rw [Frames.settle]
    split
    · exact ih _ _ h
    · split
      · exact ih _ _ (h.generalize id)
      · exact ih _ _ h

theorem proper_pop (F : Frames) {T : Table} (h : T.Proper vs) : (F.pop T).2.2.Proper vs := by
  unfold Frames.pop
  split
  · exact h
  · exact proper_settle _ _ _ _ h

theorem forms_popFrame : Forms vs Formed popFrame :=
  fun s hs => ⟨vs, List.prefix_rfl, ⟨proper_pop s.frames hs.table, hs.scope, hs.returns⟩, trivial⟩

theorem forms_enterBody (ht : t.Proper vs) : Forms vs Formed (enterBody t) := fun _ hs =>
  ⟨vs, List.prefix_rfl, ⟨hs.table, hs.scope, List.forall_mem_cons.mpr ⟨ht, hs.returns⟩⟩, trivial⟩

theorem forms_leaveBody (loopDepth : Nat) : Forms vs Formed (leaveBody loopDepth) := fun _ hs =>
  ⟨vs, List.prefix_rfl, ⟨hs.table, hs.scope, fun t ht => hs.returns t (List.mem_of_mem_tail ht)⟩, trivial⟩

theorem forms_setLoopDepth (f : Nat → Nat) : Forms vs Formed (setLoopDepth f) := fun _ hs =>
  ⟨vs, List.prefix_rfl, ⟨hs.table, hs.scope, hs.returns⟩, trivial⟩

theorem forms_jump (keyword : String) (span : Span) : Forms vs Formed (jump keyword span) :=
  Forms.get.bind fun _ _ _ _ => by
    split
    · exact .fail _ _
    · exact .pure trivial

theorem forms_lookup (name : String) (span : Span) : Forms vs (fun ws r => r.Proper ws) (lookup name span) :=
  Forms.get.bind fun _ _ s hs => by
    cases ht : s.scope.lookup name with
    | some t => exact forms_instantiate (hs.scope.lookup ht)
    | none => exact .fail _ _

theorem forms_unknown [Policy] (span : Span) : Forms vs Formed (unknown span) := by
  unfold unknown
  split
  · exact .fail _ _
  · exact .pure trivial

theorem forms_hole [Policy] (name : String) (span : Span) : Forms vs (fun ws r => r.Proper ws) (hole name span) :=
  (forms_unknown span).bind fun _ _ _ _ => forms_freshVar name

end elementary

end Check

end Reified
