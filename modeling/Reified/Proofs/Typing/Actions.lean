import Reified.Proofs.Eval.Plain
import Reified.Proofs.Typing.Explicit
import Reified.Typing.Stmt

/-!
# What actions of the checker keep

An action of the checker keeps a predicate of checkers whether it succeeds or fails: a failure leaves
the state as it was reached. Its answer, if there is one, satisfies a predicate of its own.

The predicate that is kept here is that all types are explicit: the bindings of the table, the types
of the values in scope, and the result types of the functions around the current place. No type in
scope then stands for an inferred parameter.

## Main definitions

* `Check.Ensures` — what an action keeps, and what it answers
* `Check.succeeds` — whether an action succeeds, as a truth value
* `Scope.Explicit`, `Checker.Explicit` — all types are explicit

## Main results

* `Check.Ensures.bind` — one action after the other
* `Check.ensures_typeExpr`, `Check.ensures_typeValue` — written types
* `Check.openSlots_cons` — one slot of a signature after the other
-/

namespace Reified

namespace Check

variable {α β : Type}

/-! ## Actions -/

/-- A sequence succeeds if both actions do. -/
theorem bind_eq_ok {x : Check α} {f : α → Check β} {s s' : Checker} {b : β}
    (h : (x >>= f) s = .ok b s') : ∃ a s₁, x s = .ok a s₁ ∧ f a s₁ = .ok b s' := by
  change EStateM.bind x f s = _ at h
  unfold EStateM.bind at h
  split at h
  next a s₁ hx => exact ⟨a, s₁, hx, h⟩
  next => cases h

/-- A sequence whose first action succeeds. -/
theorem bind_of_ok {x : Check α} {f : α → Check β} {s s₁ : Checker} {a : α} (h : x s = .ok a s₁) :
    (x >>= f) s = f a s₁ := by
  show EStateM.bind x f s = _
  rw [EStateM.bind, h]

/-- Whether the action succeeds in a state. -/
def succeeds (act : Check α) (s : Checker) : Bool :=
  match act s with
  | .ok .. => true
  | .error .. => false

theorem exists_ok_of_succeeds {act : Check α} {s : Checker} (h : act.succeeds s = true) :
    ∃ a s', act s = .ok a s' := by
  unfold succeeds at h
  split at h
  · next a s' hact => exact ⟨a, s', hact⟩
  · cases h

theorem exists_error_of_not_succeeds {act : Check α} {s : Checker} (h : act.succeeds s = false) :
    ∃ e s', act s = .error e s' := by
  unfold succeeds at h
  split at h
  · cases h
  · next e s' hact => exact ⟨e, s', hact⟩

/-- The action keeps a predicate of checkers, and its answer satisfies another predicate. -/
def Ensures (keep : Checker → Prop) (post : α → Prop) (act : Check α) : Prop :=
  ∀ s, keep s → match act s with
    | .ok a s' => keep s' ∧ post a
    | .error _ s' => keep s'

namespace Ensures

variable {keep : Checker → Prop} {post post' : α → Prop} {act : Check α}

theorem pure {a : α} (h : post a) : Ensures keep post (Pure.pure a) :=
  fun _ hs => ⟨hs, h⟩

theorem throw (e : CheckError) : Ensures keep post (throw e) :=
  fun _ hs => hs

theorem fail (e : TyError) (span : Span) : Ensures keep post (Check.fail e span) :=
  fun _ hs => hs

/-- One action after the other. -/
theorem bind {next : α → Check β} {post' : β → Prop} (h : Ensures keep post act)
    (hnext : ∀ a, post a → Ensures keep post' (next a)) : Ensures keep post' (act >>= next) := by
  intro s hs
  have h1 := h s hs
  show match EStateM.bind act next s with
    | .ok b s' => keep s' ∧ post' b
    | .error _ s' => keep s'
  rw [EStateM.bind]
  cases hact : act s with
  | ok a s' =>
    rw [hact] at h1
    exact hnext a h1.2 s' h1.1
  | error e s' =>
    rw [hact] at h1
    exact h1

theorem mono (h : Ensures keep post act) (hpost : ∀ a, post a → post' a) :
    Ensures keep post' act := by
  intro s hs
  have h1 := h s hs
  cases hact : act s with
  | ok a s' =>
    rw [hact] at h1
    exact ⟨h1.1, hpost a h1.2⟩
  | error e s' =>
    rw [hact] at h1
    exact h1

theorem map {f : α → β} {post' : β → Prop} (h : Ensures keep post act)
    (hpost : ∀ a, post a → post' (f a)) : Ensures keep post' (f <$> act) := by
  rw [← bind_pure_comp]
  exact h.bind fun a ha => .pure (hpost a ha)

/-- The state that an action looks at satisfies what is kept. -/
theorem get : Ensures keep keep MonadState.get :=
  fun _ hs => ⟨hs, hs⟩

end Ensures

end Check

/-! ## Explicit checkers -/

/-- All values in scope have explicit types, and every type in scope is a type parameter that has no
value at run time. -/
structure Scope.Explicit (s : Scope) : Prop where
  values : ∀ f ∈ s.frames, ∀ x ∈ f.values, x.2.Explicit
  types : ∀ f ∈ s.frames, ∀ x ∈ f.types, ∃ v : TyVar, x.2 = .var v ∧ v.inferred = false

/-- All types that a checker has to do with are explicit. -/
structure Checker.Explicit (s : Checker) : Prop where
  table : s.table.Explicit
  scope : s.scope.Explicit
  returns : ∀ t ∈ s.returns, t.Explicit

namespace Scope.Explicit

variable {s : Scope}

theorem push (h : s.Explicit) : s.push.Explicit where
  values := List.forall_mem_cons.mpr ⟨by simp, h.values⟩
  types := List.forall_mem_cons.mpr ⟨by simp, h.types⟩

theorem pop (h : s.Explicit) : s.pop.Explicit where
  values f hf := h.values f (List.mem_of_mem_tail hf)
  types f hf := h.types f (List.mem_of_mem_tail hf)

theorem truncate (h : s.Explicit) (depth : Nat) : (s.truncate depth).Explicit where
  values f hf := h.values f (List.mem_of_mem_drop hf)
  types f hf := h.types f (List.mem_of_mem_drop hf)

theorem insert (h : s.Explicit) (name : String) {t : Ty} (ht : t.Explicit) :
    (s.insert name t).Explicit := by
  obtain ⟨frames⟩ := s
  cases frames with
  | nil => exact h
  | cons f fs =>
    obtain ⟨hf, hfs⟩ := List.forall_mem_cons.mp h.values
    refine ⟨List.forall_mem_cons.mpr ⟨fun x hx => ?_, hfs⟩, ?_⟩
    · rcases Fields.mem_of_mem_insert hx with rfl | hx
      · exact ht
      · exact hf x hx
    · exact List.forall_mem_cons.mpr (List.forall_mem_cons.mp h.types)

theorem insertType (h : s.Explicit) (name : String) {v : TyVar} (hv : v.inferred = false) :
    (s.insertType name (.var v)).Explicit := by
  obtain ⟨frames⟩ := s
  cases frames with
  | nil => exact h
  | cons f fs =>
    obtain ⟨hf, hfs⟩ := List.forall_mem_cons.mp h.types
    refine ⟨?_, List.forall_mem_cons.mpr ⟨fun x hx => ?_, hfs⟩⟩
    · exact List.forall_mem_cons.mpr (List.forall_mem_cons.mp h.values)
    · rcases Fields.mem_of_mem_insert hx with rfl | hx
      · exact ⟨v, rfl, hv⟩
      · exact hf x hx

theorem lookup (h : s.Explicit) {name : String} {t : Ty} (ht : s.lookup name = some t) :
    t.Explicit := by
  obtain ⟨f, hf, hget⟩ := List.exists_of_findSome?_eq_some ht
  exact h.values f hf _ (Fields.mem_of_get?_eq_some hget)

theorem lookupType (h : s.Explicit) {name : String} {t : Ty} (ht : s.lookupType name = some t) :
    ∃ v : TyVar, t = .var v ∧ v.inferred = false := by
  obtain ⟨f, hf, hget⟩ := List.exists_of_findSome?_eq_some ht
  exact h.types f hf _ (Fields.mem_of_get?_eq_some hget)

end Scope.Explicit

namespace Check

open Checker (Explicit)

/-! ## Elementary actions -/

section elementary

variable {t : Ty}

theorem ensures_resolve (ht : t.Explicit) : Ensures Explicit Ty.Explicit (resolve t) :=
  fun _ hs => ⟨⟨(hs.table.resolve ht).2, hs.scope, hs.returns⟩, (hs.table.resolve ht).1⟩

theorem ensures_resolveDeep (ht : t.Explicit) : Ensures Explicit Ty.Explicit (resolveDeep t) :=
  fun _ hs => ⟨⟨(hs.table.resolveDeep ht).2, hs.scope, hs.returns⟩, (hs.table.resolveDeep ht).1⟩

theorem ensures_unify {t u : Ty} (ht : t.Explicit) (hu : u.Explicit) (span : Span) :
    Ensures Explicit (fun _ => True) (unify t u span) := by
  rintro ⟨T, S, F, D, R, L⟩ hs
  have hT := hs.table.unify ht hu
  simp only [unify]
  cases hunify : T.unify t u with
  | ok _ T' =>
    rw [hunify] at hT
    exact ⟨⟨hT, hs.scope, hs.returns⟩, trivial⟩
  | error e T' =>
    rw [hunify] at hT
    exact ⟨hT, hs.scope, hs.returns⟩

theorem ensures_newVar (name : String) (inferred rigid : Bool) :
    Ensures Explicit (fun t => ∃ v : TyVar, t = .var v ∧ v.inferred = inferred)
      (newVar name inferred rigid) :=
  fun s hs => ⟨⟨hs.table.newVar name inferred rigid s.frames.depth, hs.scope, hs.returns⟩,
    _, rfl, rfl⟩

theorem ensures_freshVar (name : String) : Ensures Explicit Ty.Explicit (freshVar name) :=
  (ensures_newVar name false false).mono fun _ ⟨_, ht, _⟩ => ht ▸ trivial

theorem ensures_instantiate (ht : t.Explicit) : Ensures Explicit Ty.Explicit (instantiate t) :=
  fun s hs => ⟨⟨(hs.table.instantiate ht s.frames.depth).2, hs.scope, hs.returns⟩,
    (hs.table.instantiate ht s.frames.depth).1⟩

theorem ensures_pushScope : Ensures Explicit (fun _ => True) pushScope :=
  fun _ hs => ⟨⟨hs.table, hs.scope.push, hs.returns⟩, trivial⟩

theorem ensures_popScope : Ensures Explicit (fun _ => True) popScope :=
  fun _ hs => ⟨⟨hs.table, hs.scope.pop, hs.returns⟩, trivial⟩

theorem ensures_bindValue (name : String) (ht : t.Explicit) :
    Ensures Explicit (fun _ => True) (bindValue name t) :=
  fun _ hs => ⟨⟨hs.table, hs.scope.insert name ht, hs.returns⟩, trivial⟩

theorem ensures_bindType (name : String) {v : TyVar} (hv : v.inferred = false) :
    Ensures Explicit (fun _ => True) (bindType name (.var v)) :=
  fun _ hs => ⟨⟨hs.table, hs.scope.insertType name hv, hs.returns⟩, trivial⟩

theorem ensures_pushFrame : Ensures Explicit (fun _ => True) pushFrame :=
  fun _ hs => ⟨⟨hs.table, hs.scope, hs.returns⟩, trivial⟩

/-- Closing a frame only marks variables as generalized. -/
theorem explicit_settle (depth : Nat) (ids done : List Nat) (F : Frames) {T : Table}
    (h : T.Explicit) : (Frames.settle depth ids F T done).2.2.Explicit := by
  induction ids generalizing F T done with
  | nil => exact h
  | cons id ids ih =>
    rw [Frames.settle]
    split
    · exact ih _ _ h
    · split
      · exact ih _ _ (h.generalize id)
      · exact ih _ _ h

theorem explicit_pop (F : Frames) {T : Table} (h : T.Explicit) : (F.pop T).2.2.Explicit := by
  unfold Frames.pop
  split
  · exact h
  · exact explicit_settle _ _ _ _ h

theorem ensures_popFrame : Ensures Explicit (fun _ => True) popFrame :=
  fun s hs => ⟨⟨explicit_pop s.frames hs.table, hs.scope, hs.returns⟩, trivial⟩

theorem lookup_eq (name : String) (span : Span) (s : Checker) :
    lookup name span s = (match s.scope.lookup name with
      | some t => instantiate t
      | none => fail (.unknownVariable name) span : Check Ty) s :=
  rfl

theorem ensures_lookup (name : String) (span : Span) :
    Ensures Explicit Ty.Explicit (lookup name span) := by
  refine Ensures.get.bind fun s hs => ?_
  cases ht : s.scope.lookup name with
  | some t => exact ensures_instantiate (hs.scope.lookup ht)
  | none => exact .fail _ _

end elementary

end Check

/-! ## Written types -/

namespace Scope

variable {s : Scope}

theorem exists_of_bind_eq_ok {α β : Type} {x : Except CheckError α} {f : α → Except CheckError β}
    {b : β} (h : x >>= f = .ok b) : ∃ a, x = .ok a ∧ f a = .ok b := by
  cases x with
  | ok a => exact ⟨a, rfl, h⟩
  | error e => cases h

mutual

/-- Where no type parameter is inferred, a written type stands for an explicit type, and every name
in it that is not a type parameter is one that every program knows. -/
theorem interpret_spec (h : s.Explicit) : (t : TypeExpr) → {u : Ty} → s.interpret t = .ok u →
    u.Explicit ∧ ∀ n ∈ t.names, s.lookupType n = none → Ty.isWellKnown n = true
  | .name n span, u, hu => by
    rw [interpret] at hu
    refine ⟨?_, fun m hm hnone => ?_⟩
    · split at hu
      · next t ht =>
        cases hu
        obtain ⟨v, rfl, -⟩ := h.lookupType ht
        trivial
      · split at hu
        · cases hu
          trivial
        · cases hu
    · obtain rfl : m = n := by simpa [TypeExpr.names] using hm
      rw [hnone] at hu
      by_contra hknown
      simp [hknown] at hu
  | .array t, u, hu => by
    rw [interpret] at hu
    obtain ⟨v, hv, hu⟩ := exists_of_bind_eq_ok hu
    cases hu
    obtain ⟨h1, h2⟩ := interpret_spec h t hv
    exact ⟨h1, h2⟩
  | .tuple ts, u, hu => by
    rw [interpret] at hu
    obtain ⟨v, hv, hu⟩ := exists_of_bind_eq_ok hu
    cases hu
    obtain ⟨h1, h2⟩ := interpretList_spec h ts hv
    exact ⟨h1, h2⟩
  | .record fs, u, hu => by
    rw [interpret] at hu
    obtain ⟨v, hv, hu⟩ := exists_of_bind_eq_ok hu
    cases hu
    obtain ⟨h1, h2⟩ := interpretFields_spec h fs hv
    exact ⟨h1, h2⟩
  | .fn ps r, u, hu => by
    rw [interpret] at hu
    obtain ⟨v, hv, hu⟩ := exists_of_bind_eq_ok hu
    obtain ⟨w, hw, hu⟩ := exists_of_bind_eq_ok hu
    cases hu
    obtain ⟨h1, h2⟩ := interpretList_spec h ps hv
    obtain ⟨h3, h4⟩ := interpret_spec h r hw
    refine ⟨⟨h1, h3, rfl⟩, fun n hn => ?_⟩
    exact (List.mem_append.mp hn).elim (h2 n) (h4 n)
  | .union a b, u, hu => by
    rw [interpret] at hu
    obtain ⟨v, hv, hu⟩ := exists_of_bind_eq_ok hu
    obtain ⟨w, hw, hu⟩ := exists_of_bind_eq_ok hu
    cases hu
    obtain ⟨h1, h2⟩ := interpret_spec h a hv
    obtain ⟨h3, h4⟩ := interpret_spec h b hw
    refine ⟨⟨h1, h3⟩, fun n hn => ?_⟩
    exact (List.mem_append.mp hn).elim (h2 n) (h4 n)

theorem interpretList_spec (h : s.Explicit) : (ts : List TypeExpr) → {us : List Ty} →
    s.interpretList ts = .ok us → Ty.ExplicitList us ∧
      ∀ n ∈ TypeExpr.namesList ts, s.lookupType n = none → Ty.isWellKnown n = true
  | [], us, hu => by
    cases hu
    exact ⟨trivial, by simp [TypeExpr.namesList]⟩
  | t :: ts, us, hu => by
    rw [interpretList] at hu
    obtain ⟨v, hv, hu⟩ := exists_of_bind_eq_ok hu
    obtain ⟨w, hw, hu⟩ := exists_of_bind_eq_ok hu
    cases hu
    obtain ⟨h1, h2⟩ := interpret_spec h t hv
    obtain ⟨h3, h4⟩ := interpretList_spec h ts hw
    refine ⟨⟨h1, h3⟩, fun n hn => ?_⟩
    exact (List.mem_append.mp hn).elim (h2 n) (h4 n)

theorem interpretFields_spec (h : s.Explicit) : (fs : List (String × TypeExpr)) →
    {us : List (String × Ty)} → s.interpretFields fs = .ok us → Ty.ExplicitFields us ∧
      ∀ n ∈ TypeExpr.namesFields fs, s.lookupType n = none → Ty.isWellKnown n = true
  | [], us, hu => by
    cases hu
    exact ⟨trivial, by simp [TypeExpr.namesFields]⟩
  | (name, t) :: fs, us, hu => by
    rw [interpretFields] at hu
    obtain ⟨v, hv, hu⟩ := exists_of_bind_eq_ok hu
    obtain ⟨w, hw, hu⟩ := exists_of_bind_eq_ok hu
    cases hu
    obtain ⟨h1, h2⟩ := interpret_spec h t hv
    obtain ⟨h3, h4⟩ := interpretFields_spec h fs hw
    refine ⟨⟨h1, h3⟩, fun n hn => ?_⟩
    exact (List.mem_append.mp hn).elim (h2 n) (h4 n)

end

end Scope

namespace Check

open Checker (Explicit)

theorem typeExpr_eq (t : TypeExpr) (s : Checker) :
    typeExpr t s = (match s.scope.interpret t with
      | .ok t => pure t
      | .error e => throw e : Check Ty) s :=
  rfl

theorem typeExpr_of_ok {s : Checker} {t : TypeExpr} {u : Ty} (h : s.scope.interpret t = .ok u) :
    typeExpr t s = .ok u s := by
  rw [typeExpr_eq, h]
  rfl

theorem typeExpr_of_error {s : Checker} {t : TypeExpr} {e : CheckError}
    (h : s.scope.interpret t = .error e) : typeExpr t s = .error e s := by
  rw [typeExpr_eq, h]
  rfl

theorem typeValue_of_ok {s : Checker} {t : TypeExpr} {u : Ty} (h : s.scope.interpret t = .ok u) (span : Span) :
    typeValue t span s = (match t.names.find? (erased s.scope) with
      | some name => fail (.misuse (.typeParameterAtRunTime name)) span
      | none => pure () : Check Unit) s := by
  simp only [typeValue, bind, EStateM.bind, typeExpr_of_ok h]
  rfl

theorem ensures_typeExpr (t : TypeExpr) : Ensures Explicit Ty.Explicit (typeExpr t) := by
  intro s hs
  cases ht : s.scope.interpret t with
  | ok u =>
    rw [typeExpr_of_ok ht]
    exact ⟨hs, (Scope.interpret_spec hs.scope t ht).1⟩
  | error e =>
    rw [typeExpr_of_error ht]
    exact hs

/-- A written type that can be used as a value has only names that every program knows: any other
name in scope is erased. -/
theorem ensures_typeValue (t : TypeExpr) (span : Span) :
    Ensures Explicit (fun _ => t.WellKnown) (typeValue t span) := by
  intro s hs
  cases ht : s.scope.interpret t with
  | error e =>
    have hfail : typeValue t span s = .error e s := by
      simp only [typeValue, bind, EStateM.bind, typeExpr_of_error ht]
    rw [hfail]
    exact hs
  | ok u =>
    rw [typeValue_of_ok ht]
    cases hfind : t.names.find? (erased s.scope) with
    | some name => exact hs
    | none =>
      refine ⟨hs, fun n hn => (Scope.interpret_spec hs.scope t ht).2 n hn ?_⟩
      cases hlookup : s.scope.lookupType n with
      | none => rfl
      | some u =>
        obtain ⟨v, rfl, hv⟩ := hs.scope.lookupType hlookup
        have herased := List.find?_eq_none.mp hfind n hn
        simp [erased, hlookup, hv] at herased

/-! ## Equations of recursive actions -/

@[simp] theorem hoist_letDecl (d : LetDecl) (ds : List Decl) : hoist (.letDecl d :: ds) = hoist ds := rfl

@[simp] theorem hoist_stmt (s : Stmt) (ds : List Decl) : hoist (.stmt s :: ds) = hoist ds := rfl

theorem openSlots_cons (span : Span) (slot : Ty) (rest : List Ty) (image : List (Nat × Ty)) (slots : List Ty) :
    openSlots span (slot :: rest) image slots = (do
      let inner ← resolve slot.slotType.2
      let v ← newVar slot.slotType.1 true false
      match inner with
      | .var w => openSlots span rest ((w.id, v) :: image) (v :: slots)
      | t => do
        unify v t span
        openSlots span rest image (v :: slots)) := by
  cases slot <;> rfl

end Check

end Reified
