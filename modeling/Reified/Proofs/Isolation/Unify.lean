import Mathlib.Data.Finset.Card
import Mathlib.Tactic.SplitIfs
import Reified.Proofs.Isolation.Search
import Reified.Proofs.Table.Refines
import Reified.Proofs.Table.Unions

/-!
# Unification in a table that is behind another one

Unification, too, is allowed a number of steps through bindings that depends on the number of variables, and
it is unions that make it impossible to read off its result from the equation that it solves. What is shown
here is that moved types in a table behind another one are unified as the types themselves are, with the same
bindings, levels and errors, for any two numbers of steps that are enough.

Whether they are enough is counted on each side by the variables that were passed on the way: what is still
to be unified is smaller than each of them, whatever replaces what the table leaves unbound, so no variable
is passed twice.

## Main definitions

* `TyError.shift`, `Unified.behind` — moved errors and results
* `Table.Passing` — the variables passed on the way to a type

## Main results

* `Table.unify_behind` — **unification of moved types**
-/

namespace Reified

/-! ## Moved errors -/

/-- The misuse with the variables of its types moved up. -/
def Misuse.shift (d : Nat) : Misuse → Misuse
  | .objectPattern t => .objectPattern (t.shift d)
  | .operatorBound symbol t => .operatorBound symbol (t.shift d)
  | .notCallable t => .notCallable (t.shift d)
  | .tupleIndexNotLiteral t => .tupleIndexNotLiteral (t.shift d)
  | .tupleIndexOutOfRange i t => .tupleIndexOutOfRange i (t.shift d)
  | .inferredAfterExplicit p => .inferredAfterExplicit p
  | .returnOutsideFunction => .returnOutsideFunction
  | .jumpOutsideLoop keyword => .jumpOutsideLoop keyword
  | .typeParameterAtRunTime n => .typeParameterAtRunTime n
  | .other text => .other text

/-- The error with the variables of its types moved up. -/
def TyError.shift (d : Nat) : TyError → TyError
  | .mismatch expected found => .mismatch (expected.shift d) (found.shift d)
  | .infinite v t => .infinite (v.shift d) (t.shift d)
  | .missingField field t => .missingField field (t.shift d)
  | .misuse cause => .misuse (cause.shift d)
  | .arity expected found => .arity expected found
  | .unknownVariable name => .unknownVariable name
  | .unknownType name => .unknownType name
  | .cannotInfer parameter => .cannotInfer parameter

/-- The result with its table behind older entries. -/
def Unified.behind (P : Array VarEntry) (k : Nat) : Unified → Unified
  | .ok _ T => .ok () (T.behind P k)
  | .error e T => .error (e.shift P.size) (T.behind P k)

namespace Table

variable {P : Array VarEntry} {k : Nat} {T T' : Table} {N : Nat} {marks : Nat → Bool}

/-! ## Errors and bindings -/

theorem mismatch_behind (hT : T.Acyclic) (a b : Ty) :
    (T.behind P k).mismatch (a.shift P.size) (b.shift P.size) = (T.mismatch a b).behind P k := by
  unfold mismatch
  rw [resolveDeep_behind hT]
  dsimp only
  rw [resolveDeep_behind ((steady_resolveDeep hT a).2.acyclic hT)]
  rfl

theorem missingField_behind (hT : T.Acyclic) (field : String) (a : Ty) :
    (T.behind P k).missingField field (a.shift P.size) = (T.missingField field a).behind P k := by
  unfold missingField
  rw [resolveDeep_behind hT]
  rfl

theorem bind_behind (hT : T.Acyclic) {v : TyVar} (hv : v.id < T.size) (t : Ty) :
    (T.behind P k).bind (v.shift P.size) (t.shift P.size) = (T.bind v t).behind P k := by
  have hsteady := (checks_occurs hT v.id (T.level v.id) t).2
  unfold bind
  rw [show (v.shift P.size).id = v.id + P.size from rfl, level_behind hv, occurs_behind hT]
  generalize T.occurs v.id (T.level v.id) t = r at hsteady ⊢
  obtain ⟨b, S⟩ := r
  cases b with
  | true =>
    dsimp only
    rw [resolveDeep_behind (hsteady.acyclic hT)]
    rfl
  | false => exact congrArg (EStateM.Result.ok ()) (setBinding_behind v.id t)

/-! ## Variables that have been passed -/

/-- The type is over the variables of the table and, whatever replaces what the table leaves unbound, smaller
by `j` at least than each of the variables that have been passed. -/
structure Passing (T : Table) (j : Nat) (V : Finset Nat) (t : Ty) : Prop where
  below : Below T.size t
  passed : V ⊆ Finset.range T.size
  within : ∀ x ∈ V, ∀ θ : TyVar → Ty,
    ((T.deep t).subst θ).size + j ≤ ((T.deep (.var ⟨x, "", false, false⟩)).subst θ).size

namespace Passing

variable {V : Finset Nat} {t : Ty} {j : Nat}

/-- Nothing has been passed. -/
theorem start (h : Below T.size t) (j : Nat) : T.Passing j ∅ t :=
  ⟨h, Finset.empty_subset _, fun x hx => absurd hx (Finset.notMem_empty x)⟩

/-- What a table says that knows more is obtained by a substitution. -/
theorem mono (h : T.Passing j V t) (hgrows : T.Grows T') (hs : T'.size = T.size) :
    T'.Passing j V t := by
  have hdeep (u : Ty) : T'.deep u = (T.deep u).subst fun v => T'.deep (.var v) := by
    rw [← hgrows.deep u, deep_eq_subst]
  refine ⟨hs ▸ h.below, hs ▸ h.passed, fun x hx θ => ?_⟩
  rw [hdeep t, hdeep (.var _), Ty.subst_subst, Ty.subst_subst]
  exact h.within x hx _

theorem weaken (h : T.Passing j V t) : T.Passing 0 V t :=
  ⟨h.below, h.passed, fun x hx θ => by have := h.within x hx θ; omega⟩

/-- The parts of a type are smaller. -/
theorem part (h : T.Passing j V t) {c : Ty} (hc : c.Part t) : T.Passing 1 V c := by
  have hd : (T.deep c).Part (T.deep t) := hc.subst _
  refine ⟨fun v hv => h.below v (hc.vars_subset hv), h.passed, fun x hx θ => ?_⟩
  have h1 := (hd.subst θ).size_lt
  have h2 := h.within x hx θ
  omega

/-- **No variable is passed twice.** The number of variables passed grows when the representative of a bound
variable is taken. -/
theorem resolve (h : T.Passing j V t) (hj : T.binds t = true → 0 < j) (hknown : Known N marks T) :
    ∃ V', V'.card = V.card + (if T.binds t then 1 else 0) ∧
      (T.resolve t).2.Passing 0 V' (T.resolve t).1 := by
  obtain ⟨hsteady, hdeep, -⟩ := steady_resolve hknown.acyclic t
  have hbelow : Below N t := fun v hv => hknown.size ▸ h.below v hv
  have hkind := ((Known.lowering N marks).resolve hknown hbelow).1
  have hsize := hsteady.same.size
  have hbelow' : Below (T.resolve t).2.size (T.resolve t).1 := by
    rw [hsize, hknown.size]
    exact hkind
  have hd (u : Ty) : (T.resolve t).2.deep u = T.deep u := hsteady.same.deep u
  cases hb : T.binds t with
  | false =>
    refine ⟨V, by simp, hbelow', hsize ▸ h.passed, fun x hx θ => ?_⟩
    rw [hd, hd, hdeep]
    exact h.weaken.within x hx θ
  | true =>
    obtain ⟨v, rfl⟩ : ∃ v, t = .var v := by
      cases t with
      | var v => exact ⟨v, rfl⟩
      | _ => simp [binds] at hb
    obtain ⟨s, hs⟩ := isBound_eq_true.mp (show T.isBound v.id = true from hb)
    -- a bound variable is known by its number
    have hself : T.deep (.var ⟨v.id, "", false, false⟩) = T.deep (.var v) := by
      rw [deep_var_of_binding hknown.acyclic hs,
        deep_var_of_binding (v := ⟨v.id, "", false, false⟩) hknown.acyclic hs]
    have hv : v.id ∉ V := fun hv => by
      have hle := h.within v.id hv .var
      have := hj hb
      rw [hself] at hle
      omega
    refine ⟨insert v.id V, by simp [Finset.card_insert_of_notMem hv], hbelow', ?_, fun x hx θ => ?_⟩
    · rw [hsize]
      exact Finset.insert_subset (Finset.mem_range.mpr (h.below v (by simp [Ty.vars]))) h.passed
    · rw [hd, hd, hdeep]
      rcases Finset.mem_insert.mp hx with rfl | hx
      · rw [hself]
        omega
      · exact h.weaken.within x hx θ

end Passing

/-! ## The recursion -/

/-- With numbers of steps that are enough, the two types are unified behind older entries as they are
otherwise. -/
def Follows (P : Array VarEntry) (k N : Nat) (marks : Nat → Bool) (n : Nat) (a b : Ty) : Prop :=
  ∀ (n' : Nat) (T : Table) (i j : Nat) (V W : Finset Nat), T.Tame → Known N marks T →
    T.Passing i V a → T.Passing j W b → (T.binds a = true → 0 < i) → (T.binds b = true → 0 < j) →
    2 * N < n + V.card + W.card → 2 * N < n' + V.card + W.card →
    unifyWithin n' (a.shift P.size) (b.shift P.size) (T.behind P k) =
      (unifyWithin n a b T).behind P k

section recursion

variable {n n' : Nat} {a b : Ty} {V W : Finset Nat}

/-- What a unification leaves behind. -/
theorem leaves_unifyWithin (hT : T.Tame) (hknown : Known N marks T) (ha : Below N a) (hb : Below N b) :
    (unifyWithin n a b T).Leaves (fun T' => T.Refines T' ∧ Known N marks T')
      fun T' => T.Advances T' ∧ Known N marks T' :=
  (outcomes_refines N marks).unifyWithin n a b T ⟨hT, hknown⟩ ha hb

theorem Known.below_of_passing (hknown : Known N marks T) {j : Nat} (h : T.Passing j V a) : Below N a :=
  fun v hv => hknown.size ▸ h.below v hv

theorem Passing.advance {j : Nat} (h : T.Passing j V a) (hknown : Known N marks T)
    (h' : T.Refines T' ∧ Known N marks T') : T'.Passing j V a :=
  h.mono h'.1.grows (h'.2.size.trans hknown.size.symm)

theorem unifyLists_behind {as bs : List Ty} (h : ∀ a ∈ as, ∀ b ∈ bs, Follows P k N marks n a b)
    (hT : T.Tame) (hknown : Known N marks T) (ha : ∀ a ∈ as, T.Passing 1 V a)
    (hb : ∀ b ∈ bs, T.Passing 1 W b) (hn : 2 * N < n + V.card + W.card)
    (hn' : 2 * N < n' + V.card + W.card) :
    unifyLists n' (as.map (Ty.shift P.size)) (bs.map (Ty.shift P.size)) (T.behind P k) =
      (unifyLists n as bs T).behind P k := by
  induction as generalizing bs T with
  | nil => rw [unifyLists.eq_def, unifyLists.eq_def]; rfl
  | cons a as ih =>
    cases bs with
    | nil => rw [unifyLists.eq_def, unifyLists.eq_def]; rfl
    | cons b bs =>
      obtain ⟨ha, has⟩ := List.forall_mem_cons.mp ha
      obtain ⟨hb, hbs⟩ := List.forall_mem_cons.mp hb
      have h1 := h a (by simp) b (by simp) n' T 1 1 V W hT hknown ha hb (fun _ => one_pos)
        (fun _ => one_pos) hn hn'
      have hleaves := leaves_unifyWithin (n := n) hT hknown (hknown.below_of_passing ha)
        (hknown.below_of_passing hb)
      rw [List.map_cons, List.map_cons, unifyLists, unifyLists, h1]
      generalize unifyWithin n a b T = r at hleaves ⊢
      cases r with
      | error e S => rfl
      | ok u S =>
        exact ih (fun a ha b hb => h a (by simp [ha]) b (by simp [hb])) hleaves.1.grows.tame hleaves.2
          (fun a ha => (has a ha).advance hknown hleaves) fun b hb => (hbs b hb).advance hknown hleaves

theorem unifyFields_behind {fs gs : List (String × Ty)}
    (h : ∀ f ∈ fs, ∀ g ∈ gs, Follows P k N marks n f.2 g.2) (hT : T.Tame) (hknown : Known N marks T)
    (hf : ∀ f ∈ fs, T.Passing 1 V f.2) (hg : ∀ g ∈ gs, T.Passing 1 W g.2)
    (hn : 2 * N < n + V.card + W.card) (hn' : 2 * N < n' + V.card + W.card) :
    unifyFields n' (fs.map fun f => (f.1, f.2.shift P.size)) (gs.map fun g => (g.1, g.2.shift P.size))
        (T.behind P k) = (unifyFields n fs gs T).behind P k := by
  induction fs generalizing T with
  | nil => rw [List.map_nil, unifyFields, unifyFields]; rfl
  | cons f fs ih =>
    obtain ⟨name, t⟩ := f
    obtain ⟨ht, hf⟩ := List.forall_mem_cons.mp hf
    have hget := Fields.get?_map (Ty.shift P.size) name gs
    rw [List.map_cons]
    cases hu : Fields.get? name gs with
    | none =>
      rw [unifyFields_of_none hu, unifyFields_of_none (by rw [hget, hu]; rfl), ← Ty.shift_record,
        missingField_behind hknown.acyclic]
    | some u =>
      have hmem := Fields.mem_of_get?_eq_some hu
      have hgu := hg _ hmem
      have h1 := h (name, t) (by simp) (name, u) hmem n' T 1 1 V W hT hknown ht hgu
        (fun _ => one_pos) (fun _ => one_pos) hn hn'
      have hleaves := leaves_unifyWithin (n := n) hT hknown (hknown.below_of_passing ht)
        (hknown.below_of_passing hgu)
      rw [unifyFields_of_some hu, unifyFields_of_some (by rw [hget, hu]; rfl)]
      dsimp only at h1 hleaves ⊢
      rw [h1]
      generalize unifyWithin n t u T = r at hleaves ⊢
      cases r with
      | error e S => rfl
      | ok _ S =>
        exact ih (fun f hf => h f (by simp [hf])) hleaves.1.grows.tame hleaves.2
          (fun f hm => (hf f hm).advance hknown hleaves) fun g hm => (hg g hm).advance hknown hleaves

/-- The attempts at the members of a union: if the first one fails it is undone. -/
theorem attempts_behind {c d l r : Ty} (hT : T.Tame) (hknown : Known N marks T) (ha : Below N a)
    (hb : Below N b) (hl : Below N l) (hr : Below N r)
    (h₁ : unifyWithin n' (a.shift P.size) (b.shift P.size) (T.snapshot.2.behind P k) =
      (unifyWithin n a b T.snapshot.2).behind P k)
    (h₂ : unifyWithin n' (l.shift P.size) (r.shift P.size) (T.behind P k) =
      (unifyWithin n l r T).behind P k) :
    (match unifyWithin n' (a.shift P.size) (b.shift P.size) (T.snapshot.2.behind P k) with
      | .ok _ T => (.ok () T.commit : Unified)
      | .error _ S =>
        match unifyWithin n' (l.shift P.size) (r.shift P.size) (S.rollback T.snapshot.1) with
        | .ok _ T => .ok () T
        | .error _ T => T.mismatch (c.shift P.size) (d.shift P.size)) =
      Unified.behind P k (match unifyWithin n a b T.snapshot.2 with
        | .ok _ T => .ok () T.commit
        | .error _ S =>
          match unifyWithin n l r (S.rollback T.snapshot.1) with
          | .ok _ T => .ok () T
          | .error _ T => T.mismatch c d) := by
  have hkeep := (outcomes_refines N marks).snapshot ⟨hT, hknown⟩
  have hleaves := leaves_unifyWithin (n := n) hkeep.1 hkeep.2 ha hb
  rw [h₁]
  generalize unifyWithin n a b T.snapshot.2 = q at hleaves ⊢
  cases q with
  | ok _ S => exact congrArg (EStateM.Result.ok ()) commit_behind
  | error e S =>
    have hback : S.rollback T.snapshot.1 = T := hleaves.1.restores.rollback_eq hT.quiet
    simp only [Unified.behind]
    rw [rollback_behind, hback, h₂]
    have hleaves := leaves_unifyWithin (n := n) hT hknown hl hr
    generalize unifyWithin n l r T = q at hleaves ⊢
    cases q with
    | ok _ S => rfl
    | error e S => exact mismatch_behind hleaves.2.acyclic c d

/-- Taking a snapshot passes nothing. -/
theorem Passing.snapshot {j : Nat} (h : T.Passing j V a) (hT : T.Acyclic) :
    T.snapshot.2.Passing j V a := by
  have hdeep (u : Ty) : T.snapshot.2.deep u = T.deep u := @deep_congr T T.snapshot.2 hT (fun _ => rfl) u
  refine ⟨h.below, h.passed, fun x hx θ => ?_⟩
  rw [hdeep, hdeep]
  exact h.within x hx θ

theorem unifyExpectedUnion_behind {l r : Ty} (hl : Follows P k N marks n l b)
    (hr : Follows P k N marks n r b) (hT : T.Tame) (hknown : Known N marks T)
    (ha : T.Passing 0 V (.union l r)) (hb : T.Passing 0 W b) (hfb : T.binds b = false)
    (hn : 2 * N < n + V.card + W.card) (hn' : 2 * N < n' + V.card + W.card) :
    unifyExpectedUnion n' (l.shift P.size) (r.shift P.size) (b.shift P.size) (T.behind P k) =
      (unifyExpectedUnion n l r b T).behind P k := by
  have hkeep := (outcomes_refines N marks).snapshot ⟨hT, hknown⟩
  have hunbound (hb : T.binds b = true) : 0 < 0 := by simp [hfb] at hb
  have key := attempts_behind (c := .union l r) (d := b) hT hknown
    (hknown.below_of_passing (ha.part .left)) (hknown.below_of_passing hb)
    (hknown.below_of_passing (ha.part .right)) (hknown.below_of_passing hb)
    (hl n' _ 1 0 V W hkeep.1 hkeep.2 ((ha.part .left).snapshot hT.acyclic) (hb.snapshot hT.acyclic)
      (fun _ => one_pos) hunbound hn hn')
    (hr n' T 1 0 V W hT hknown (ha.part .right) hb (fun _ => one_pos) hunbound hn hn')
  rw [unifyExpectedUnion, unifyExpectedUnion, snapshot_behind]
  exact key

theorem unifyFoundUnion_behind {l r : Ty} (hl : Follows P k N marks n a l)
    (hr : Follows P k N marks n a r) (hT : T.Tame) (hknown : Known N marks T)
    (ha : T.Passing 0 V a) (hb : T.Passing 0 W (.union l r)) (hfa : T.binds a = false)
    (hn : 2 * N < n + V.card + W.card) (hn' : 2 * N < n' + V.card + W.card) :
    unifyFoundUnion n' (a.shift P.size) (l.shift P.size) (r.shift P.size) (T.behind P k) =
      (unifyFoundUnion n a l r T).behind P k := by
  have hkeep := (outcomes_refines N marks).snapshot ⟨hT, hknown⟩
  have hunbound (ha : T.binds a = true) : 0 < 0 := by simp [hfa] at ha
  have key := attempts_behind (c := a) (d := .union l r) hT hknown (hknown.below_of_passing ha)
    (hknown.below_of_passing (hb.part .left)) (hknown.below_of_passing ha)
    (hknown.below_of_passing (hb.part .right))
    (hl n' _ 0 1 V W hkeep.1 hkeep.2 (ha.snapshot hT.acyclic) ((hb.part .left).snapshot hT.acyclic)
      hunbound (fun _ => one_pos) hn hn')
    (hr n' T 0 1 V W hT hknown ha (hb.part .right) hunbound (fun _ => one_pos) hn hn')
  rw [unifyFoundUnion, unifyFoundUnion, snapshot_behind]
  exact key

/-- Two representatives, if smaller pairs of types can be trusted. -/
theorem unifyForms_behind
    (h : ∀ a' b', sizeOf a' + sizeOf b' < sizeOf a + sizeOf b → Follows P k N marks n a' b')
    (hT : T.Tame) (hknown : Known N marks T) (ha : T.Passing 0 V a) (hb : T.Passing 0 W b)
    (hfa : T.binds a = false) (hfb : T.binds b = false) (hn : 2 * N < n + V.card + W.card)
    (hn' : 2 * N < n' + V.card + W.card) :
    unifyForms n' (a.shift P.size) (b.shift P.size) (T.behind P k) = (unifyForms n a b T).behind P k := by
  have hpart : ∀ {c d}, c.Part a → d.Part b → Follows P k N marks n c d := fun hc hd =>
    h _ _ (Nat.add_lt_add hc.sizeOf_lt hd.sizeOf_lt)
  have hleft : ∀ {c}, c.Part a → Follows P k N marks n c b := fun hc =>
    h _ _ (Nat.add_lt_add_right hc.sizeOf_lt _)
  have hright : ∀ {d}, d.Part b → Follows P k N marks n a d := fun hd =>
    h _ _ (Nat.add_lt_add_left hd.sizeOf_lt _)
  have hmismatch := mismatch_behind (P := P) (k := k) hknown.acyclic a b
  have hid (v w : TyVar) : (v.shift P.size).id = (w.shift P.size).id ↔ v.id = w.id :=
    Nat.add_right_cancel_iff
  have hrigid (v : TyVar) : (v.shift P.size).rigid = v.rigid := rfl
  have hbindLeft {v : TyVar} (heq : a = .var v) :
      (T.behind P k).bind (v.shift P.size) (b.shift P.size) = (T.bind v b).behind P k :=
    bind_behind hknown.acyclic (ha.below v (by simp [heq, Ty.vars])) b
  have hbindRight {w : TyVar} (heq : b = .var w) :
      (T.behind P k).bind (w.shift P.size) (a.shift P.size) = (T.bind w a).behind P k :=
    bind_behind hknown.acyclic (hb.below w (by simp [heq, Ty.vars])) a
  have hinner (t : Ty) (ht : t.Part b) :
      unifyWithin n' (a.shift P.size) (t.shift P.size) (T.behind P k) =
        (unifyWithin n a t T).behind P k :=
    hright ht n' T 0 1 V W hT hknown ha (hb.part ht) (fun ha => by simp [hfa] at ha)
      (fun _ => one_pos) hn hn'
  have hbelow {j : Nat} {V : Finset Nat} {t : Ty} (h : T.Passing j V t) : Below N t :=
    hknown.below_of_passing h
  have hparts {c d : Ty} {S : Table} (hc : c.Part a) (hd : d.Part b) (hS : S.Tame)
      (hknown : Known N marks S) (hcS : S.Passing 1 V c) (hdS : S.Passing 1 W d) :
      unifyWithin n' (c.shift P.size) (d.shift P.size) (S.behind P k) =
        (unifyWithin n c d S).behind P k :=
    hpart hc hd n' S 1 1 V W hS hknown hcS hdS (fun _ => one_pos) (fun _ => one_pos) hn hn'
  -- an array, tuple, record, function or name with a type of another form
  have hother (hplain : a.IsForm ∧ a.tyClass ≠ .union) (hne : a.tyClass ≠ b.tyClass) :
      unifyForms n' (a.shift P.size) (b.shift P.size) (T.behind P k) = (unifyForms n a b T).behind P k := by
    obtain ⟨hform, hunion⟩ := hplain
    cases b with
    | binding m t =>
      have h := hinner t .inner
      cases a with
      | var v => exact hform.elim
      | binding m t => exact hform.elim
      | union l r => exact absurd rfl hunion
      | _ =>
        simp only [unifyForms.eq_def, Ty.shift_binding, Ty.shift_name, Ty.shift_array, Ty.shift_tuple,
          Ty.shift_record, Ty.shift_fn] at h ⊢
        exact h
    | var w =>
      have hbind := hbindRight rfl
      cases a with
      | var v => exact hform.elim
      | binding m t => exact hform.elim
      | union l r => exact absurd rfl hunion
      | _ =>
        simp only [unifyForms.eq_def, Ty.shift_var, Ty.shift_name, Ty.shift_array, Ty.shift_tuple,
          Ty.shift_record, Ty.shift_fn, hrigid] at hmismatch hbind ⊢
        split_ifs
        · exact hbind
        · exact hmismatch
    | union l r =>
      have h := unifyFoundUnion_behind (hright .left) (hright .right) hT hknown ha hb hfa hn hn'
      cases a with
      | var v => exact hform.elim
      | binding m t => exact hform.elim
      | union l r => exact absurd rfl hunion
      | _ =>
        simp only [unifyForms.eq_def, Ty.shift_union, Ty.shift_name, Ty.shift_array, Ty.shift_tuple,
          Ty.shift_record, Ty.shift_fn] at h ⊢
        exact h
    | _ =>
      cases a with
      | var v => exact hform.elim
      | binding m t => exact hform.elim
      | union l r => exact absurd rfl hunion
      | _ =>
        first
        | exact absurd rfl hne
        | simp only [unifyForms.eq_def, Ty.shift_name, Ty.shift_array, Ty.shift_tuple,
            Ty.shift_record, Ty.shift_fn] at hmismatch ⊢
          exact hmismatch
  cases a with
  | binding m t =>
    rw [Ty.shift_binding, unifyForms, unifyForms]
    exact hleft .inner n' T 1 0 V W hT hknown (ha.part .inner) hb (fun _ => one_pos)
      (fun hb => by simp [hfb] at hb) hn hn'
  | var v =>
    have hbind := hbindLeft rfl
    cases b with
    | binding m t =>
      simp only [unifyForms.eq_def, Ty.shift_var, Ty.shift_binding]
      exact hinner t .inner
    | var w =>
      have hbind' := hbindRight rfl
      simp only [unifyForms.eq_def, Ty.shift_var, hid, hrigid]
      split_ifs
      · rfl
      · exact hbind
      · exact hbind'
      · exact hmismatch
    | union l r =>
      have hunion := unifyFoundUnion_behind (hright .left) (hright .right) hT hknown ha hb hfa hn hn'
      simp only [unifyForms.eq_def, Ty.shift_var, Ty.shift_union, hrigid]
      split_ifs
      · exact hbind
      · exact hunion
    | _ =>
      simp only [unifyForms.eq_def, Ty.shift_var, Ty.shift_name, Ty.shift_array, Ty.shift_tuple,
        Ty.shift_record, Ty.shift_fn, hrigid] at hmismatch hbind ⊢
      split_ifs
      · exact hbind
      · exact hmismatch
  | union l r =>
    have hunion := unifyExpectedUnion_behind (hleft .left) (hleft .right) hT hknown ha hb hfb hn hn'
    cases b with
    | binding m t =>
      simp only [unifyForms.eq_def, Ty.shift_union, Ty.shift_binding]
      exact hinner t .inner
    | var w =>
      have hbind := hbindRight rfl
      simp only [unifyForms.eq_def, Ty.shift_union, Ty.shift_var, hrigid]
      split_ifs
      · exact hbind
      · exact hunion
    | _ =>
      simp only [unifyForms.eq_def, Ty.shift_union, Ty.shift_name, Ty.shift_array, Ty.shift_tuple,
        Ty.shift_record, Ty.shift_fn] at hunion ⊢
      exact hunion
  | name m =>
    cases b with
    | name m' =>
      simp only [unifyForms.eq_def, Ty.shift_name] at hmismatch ⊢
      split_ifs
      · rfl
      · exact hmismatch
    | _ => exact hother ⟨trivial, fun h => by cases h⟩ fun h => by cases h
  | array t =>
    cases b with
    | array u =>
      simp only [unifyForms.eq_def, Ty.shift_array]
      exact hparts .array .array hT hknown (ha.part .array) (hb.part .array)
    | _ => exact hother ⟨trivial, fun h => by cases h⟩ fun h => by cases h
  | tuple ts =>
    cases b with
    | tuple us =>
      have hlists := unifyLists_behind (fun _ hc _ hd => hpart (.tuple hc) (.tuple hd)) hT hknown
        (fun _ hc => ha.part (.tuple hc)) (fun _ hd => hb.part (.tuple hd)) hn hn'
      simp only [unifyForms.eq_def, Ty.shift_tuple, List.length_map]
      split_ifs
      · exact hlists
      · rfl
    | _ => exact hother ⟨trivial, fun h => by cases h⟩ fun h => by cases h
  | record fs =>
    cases b with
    | record gs =>
      have hfields := unifyFields_behind (fun _ hf _ hg => hpart (.record hf) (.record hg)) hT hknown
        (fun _ hf => ha.part (.record hf)) (fun _ hg => hb.part (.record hg)) hn hn'
      have hleaves := (outcomes_refines N marks).unifyFields
        (fun f hf g hg => (outcomes_refines N marks).unifyWithin n f.2 g.2)
        (fun f hf => hbelow (ha.part (.record hf))) (hbelow hb) ⟨hT, hknown⟩
      simp only [unifyForms.eq_def, Ty.shift_record]
      rw [hfields]
      generalize unifyFields n fs gs T = q at hleaves ⊢
      cases q with
      | error e S => rfl
      | ok _ S =>
        simp only [Unified.behind]
        rw [find?_missing_map (Ty.shift P.size)]
        cases gs.find? fun g => !Fields.has g.1 fs with
        | none => rfl
        | some g =>
          simp only [Option.map_some]
          rw [← Ty.shift_record]
          exact missingField_behind hleaves.2.acyclic g.1 _
    | _ => exact hother ⟨trivial, fun h => by cases h⟩ fun h => by cases h
  | fn ps r j =>
    cases b with
    | fn qs s j' =>
      have hlists := unifyLists_behind (fun _ hc _ hd => hpart (.param hc) (.param hd)) hT hknown
        (fun _ hc => ha.part (.param hc)) (fun _ hd => hb.part (.param hd)) hn hn'
      have hleaves := (outcomes_refines N marks).unifyLists (n := n)
        (fun c _ d _ => (outcomes_refines N marks).unifyWithin n c d)
        (fun _ hc => hbelow (ha.part (.param hc))) (fun _ hd => hbelow (hb.part (.param hd))) ⟨hT, hknown⟩
      simp only [unifyForms.eq_def, Ty.shift_fn, List.length_map]
      split_ifs
      · rw [hlists]
        generalize unifyLists n ps qs T = q at hleaves ⊢
        cases q with
        | error e S => rfl
        | ok _ S =>
          exact hparts .result .result hleaves.1.grows.tame hleaves.2
            ((ha.part .result).advance hknown hleaves) ((hb.part .result).advance hknown hleaves)
      · rfl
    | _ => exact hother ⟨trivial, fun h => by cases h⟩ fun h => by cases h

end recursion

theorem follows_unifyWithin (P : Array VarEntry) (k N : Nat) (marks : Nat → Bool) (n : Nat) (a b : Ty) :
    Follows P k N marks n a b := by
  intro n' T i j V W hT hknown ha hb hi hj hn hn'
  rw [unifyWithin.eq_def, unifyWithin.eq_def, binds_behind, binds_behind]
  split
  · next h =>
    have hV := Finset.card_le_card ha.passed
    have hW := Finset.card_le_card hb.passed
    rw [Finset.card_range, hknown.size] at hV hW
    obtain ⟨m', rfl⟩ : ∃ m', n' = m' + 1 := Nat.exists_eq_succ_of_ne_zero (by omega)
    match n, hn with
    | 0, hn => omega
    | m + 1, hn =>
      obtain ⟨hkind, h₁⟩ := (outcomes_refines N marks).resolve ⟨hT, hknown⟩ (hknown.below_of_passing ha)
      have htame := h₁.1.grows.tame
      have hb₁ := hb.advance hknown h₁
      obtain ⟨hkind', h₂⟩ := (outcomes_refines N marks).resolve ⟨htame, h₁.2⟩ (h₁.2.below_of_passing hb₁)
      obtain ⟨hfa, hfb⟩ := (outcomes_refines N marks).resolve_final ⟨hT, hknown⟩
        (hknown.below_of_passing ha) (hknown.below_of_passing hb)
      have hbinds : (T.resolve a).2.binds b = T.binds b := (steady_resolve hT.acyclic a).1.same.binds b
      obtain ⟨V', hV', ha'⟩ := ha.resolve hi hknown
      obtain ⟨W', hW', hb'⟩ := hb₁.resolve (fun hb => hj (hbinds ▸ hb)) h₁.2
      rw [hbinds] at hW'
      have hcard : V.card + W.card + 1 ≤ V'.card + W'.card := by
        rw [hV', hW']
        rw [Bool.or_eq_true] at h
        rcases h with h | h <;> simp only [h, if_true] <;> split <;> omega
      dsimp only
      rw [resolve_behind hT.acyclic]
      dsimp only
      rw [resolve_behind htame.acyclic]
      exact unifyForms_behind (fun a' b' _ => follows_unifyWithin P k N marks m a' b') h₂.1.grows.tame h₂.2
        (ha'.advance h₁.2 h₂) hb' hfa hfb (by omega) (by omega)
  · next h =>
    rw [Bool.or_eq_true, not_or, Bool.not_eq_true, Bool.not_eq_true] at h
    exact unifyForms_behind (fun a' b' _ => follows_unifyWithin P k N marks n a' b') hT hknown ha.weaken
      hb.weaken h.1 h.2 hn hn'
termination_by (n, sizeOf a + sizeOf b)

/-- **Unification of moved types** in a table that is behind another one. -/
theorem unify_behind (hT : T.Tame) (hknown : Known T.size marks T) {a b : Ty} (ha : Below T.size a)
    (hb : Below T.size b) :
    (T.behind P k).unify (a.shift P.size) (b.shift P.size) = (T.unify a b).behind P k := by
  refine follows_unifyWithin P k T.size marks _ a b _ T 1 1 ∅ ∅ hT hknown (.start ha 1) (.start hb 1)
    (fun _ => one_pos) (fun _ => one_pos) ?_ ?_
  · simp
  · rw [size_behind]
    simp only [Finset.card_empty]
    omega

end Table

end Reified
