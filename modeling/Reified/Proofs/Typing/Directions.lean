import Reified.Proofs.Typing.Fits
import Reified.Proofs.Typing.Recorded

/-!
# Checking against a type and inferring

An expression can be checked against a type, or its type can be inferred and then unified with the expected one.
The bindings are made in another order, and through other variables. But if there are no unions, both determine
the same: that the expression has the expected type. So one of them succeeds if the other one does, and what the
tables say afterwards is the same but for the names of variables.

This needs an expected type that is monomorphic. A variable that is generalized is replaced in each instance of
the types in scope, so it makes a difference whether it is bound before the instance is made.

## Main definitions

* `Check.inferThenUnify` — infer the type of an expression, and unify it with the expected one

## Main results

* `Check.check_agrees` — **checking agrees with inferring and unifying**
* `Check.check_disagrees` — a generalized variable in the expected type, and the choice of representatives
-/

namespace Reified

/-- An identifier has no union in its type. -/
def Expr.UnionFreeIn (s : Checker) (e : Expr) : Prop :=
  ∀ n x t, e = .ident n x → s.scope.lookup x = some t → (s.table.resolveDeep t).1.UnionFree

theorem Expr.simple_of_everywhere {s : Checker} (hT : s.table.Acyclic) {e : Expr} (hdata : e.Everywhere Expr.IsData)
    (hordered : e.Ordered) (hunion : e.Everywhere (Expr.UnionFreeIn s)) : e.Everywhere (Expr.Simple s) := by
  have hfree (e : Expr) (h : e.UnionFreeIn s) (n : Note) (x : String) (t : Ty) (he : e = .ident n x)
      (ht : s.scope.lookup x = some t) : (s.table.deep t).UnionFree :=
    (Table.steady_resolveDeep hT t).1 ▸ h n x t he ht
  have hboth := Expr.Everywhere.map₂ (fun _ => And.intro) e hdata hordered
  exact Expr.Everywhere.map₂ (fun e h hunion => ⟨h.1, h.2, hfree e hunion⟩) e hboth hunion

namespace Check

variable {vs : List TyVar} {s : Checker} {e : Expr} {t : Ty}

/-- Infer the type of an expression, and unify it with the expected one. -/
def inferThenUnify [Policy] (e : Expr) (expected : Ty) : Check Unit := do
  let (found, _) ← infer e
  unify expected found e.span

theorem determines_inferThenUnify [Policy] (hs : s.Known vs) (he : e.Everywhere (Expr.Simple s))
    (ht : s.table.Fit vs t) :
    Determines vs s (fun _ _ _ => True) (fun _ _ => ()) (fun θ _ => e.Fits s θ (t.erase.subst θ))
      (inferThenUnify e t) := by
  have hsince : Since vs s vs s := ⟨hs, rfl, .refl hs.inv⟩
  refine ((finds_typing e he hsince .none).bind (fun θ τ _ => t.erase.subst θ = τ)
    (fun ws s' r _ hon hr => determines_unify hon.inv (ht.onward hon) hr e.span) ?_).congr fun θ _ _ => ?_
  · exact fun τ θ θ' _ hθ h => (ht.written.subst_congr hθ).symm.trans h
  · simp [Meets]

theorem determines_check [Policy] (hs : s.Known vs) (he : e.Everywhere (Expr.Simple s)) (ht : s.table.Fit vs t) :
    Determines vs s (fun _ _ _ => True) (fun _ _ => ()) (fun θ _ => e.Fits s θ (t.erase.subst θ)) (check e t) := by
  have hsince : Since vs s vs s := ⟨hs, rfl, .refl hs.inv⟩
  have hexpected : ExpectedFit vs s.table (some t) := fun u hu => Option.some.inj hu ▸ ht
  rw [check, ← bind_pure_comp]
  refine ((finds_typing e he hsince hexpected).bind (fun _ _ _ => True)
    (fun ws s' r _ hon _ => .pure hon.inv trivial fun _ _ _ => ?_) ?_).congr fun θ _ _ => ?_
  · exact ⟨fun _ => rfl, fun _ => trivial⟩
  · exact fun _ _ _ _ _ _ => trivial
  · simp [Meets]

/-! ## Actions that determine the same -/

section same

variable {α β γ : Type} {post : List TyVar → Table → α → Prop} {post' : List TyVar → Table → γ → Prop}
  {read : α → (TyVar → Ty) → β} {read' : γ → (TyVar → Ty) → β} {R : (TyVar → Ty) → β → Prop} {act : Check α}
  {act' : Check γ} {a : α} {s₁ : Checker}

/-- The solution that has been found shows that the other action has one. -/
theorem Determines.exists_ok (h : Determines vs s post read R act) (h' : Determines vs s post' read' R act')
    (hact : act s = .ok a s₁) : ∃ c s₂, act' s = .ok c s₂ := by
  unfold Determines at h h'
  rw [hact] at h
  obtain ⟨-, ws, h, -⟩ := h
  obtain ⟨hsol, hR⟩ := h.sound _ h.inv.solves_solution
  cases hact' : act' s with
  | ok c s₂ => exact ⟨c, s₂, rfl⟩
  | error e s₂ =>
    rw [hact'] at h'
    exact absurd hR (h' _ _ hsol fun v hv => h.inv.fixesRigid_solution v (h.subset hv))

/-- What the two tables say is the same but for the names of variables. -/
theorem Determines.exists_renaming {c : γ} {s₂ : Checker} (h : Determines vs s post read R act)
    (h' : Determines vs s post' read' R act') (hact : act s = .ok a s₁) (hact' : act' s = .ok c s₂) :
    ∃ ρ : TyVar → TyVar,
      (∀ u : Ty, u.Over vs → (s₁.table.resolveDeep u).1.erase.subst (fun w => .var (ρ w)) =
        (s₂.table.resolveDeep u).1.erase) ∧
      Set.InjOn ρ {w | ∃ v ∈ vs, w ∈ (s₁.table.resolveDeep (.var v)).1.vars} ∧
      ∀ v ∈ vs, v.rigid = true → ρ v = v := by
  unfold Determines at h h'
  rw [hact] at h
  rw [hact'] at h'
  obtain ⟨-, ws₁, h, -⟩ := h
  obtain ⟨-, ws₂, h', -⟩ := h'
  obtain ⟨ρ, hρ, hinj, hrigid⟩ := h.exists_renaming h'
  have hdeep₁ (u : Ty) : (s₁.table.resolveDeep u).1 = s₁.table.deep u := (Table.steady_resolveDeep h.inv.acyclic u).1
  have hdeep₂ (u : Ty) : (s₂.table.resolveDeep u).1 = s₂.table.deep u := (Table.steady_resolveDeep h'.inv.acyclic u).1
  refine ⟨ρ, fun u hu => ?_, ?_, hrigid⟩
  · rw [hdeep₁, hdeep₂, Table.erase_deep, Table.erase_deep, Ty.subst_subst]
    exact hu.subst_congr hρ
  · simp only [hdeep₁]
    simpa only [Table.solution, Ty.vars_erase] using hinj

end same

/-- **Checking agrees with inferring and unifying.** For expressions that put identifiers and literals together,
and for an expected type in which no generalized variable remains, if neither it nor the type of an identifier
has a union in it: one succeeds if and only if the other one does. What any type over the variables that there
were stands for afterwards is the same in both cases, but for the names of variables that have remained unbound,
the names attached to types and the counts of implicit parameters. -/
theorem check_agrees [Policy] (hs : s.Proper vs) (hdata : e.Everywhere Expr.IsData) (hordered : e.Ordered)
    (hidents : e.Everywhere (Expr.UnionFreeIn s)) (ht : t.Proper vs)
    (hunion : (s.table.resolveDeep t).1.UnionFree)
    (hmonomorphic : ∀ v ∈ (s.table.resolveDeep t).1.vars, s.table.isGeneralized v.id = false) :
    ((∃ e' s', check e t s = .ok e' s') ↔ ∃ s', inferThenUnify e t s = .ok () s') ∧
    ∀ e' s₁ s₂, check e t s = .ok e' s₁ → inferThenUnify e t s = .ok () s₂ → ∃ ρ : TyVar → TyVar,
      (∀ u : Ty, u.Over vs → (s₁.table.resolveDeep u).1.erase.subst (fun w => .var (ρ w)) =
        (s₂.table.resolveDeep u).1.erase) ∧
      Set.InjOn ρ {w | ∃ v ∈ vs, w ∈ (s₁.table.resolveDeep (.var v)).1.vars} ∧
      ∀ v ∈ vs, v.rigid = true → ρ v = v := by
  have hinv : s.table.Inv vs := hs.table.toInv
  have hdeep := (Table.steady_resolveDeep hinv.acyclic t).1
  have hknown : s.Known vs := ⟨hinv, fun x u hu => (hs.scope.lookup hu).toOver⟩
  have he := Expr.simple_of_everywhere hinv.acyclic hdata hordered hidents
  have hfit : s.table.Fit vs t := ⟨ht.toOver, hdeep ▸ hunion, fun v hv => hmonomorphic v (hdeep ▸ hv)⟩
  have hcheck := determines_check hknown he hfit
  have hinfer := determines_inferThenUnify hknown he hfit
  refine ⟨⟨fun ⟨e', s₁, h₁⟩ => ?_, fun ⟨s₂, h₂⟩ => hinfer.exists_ok hcheck h₂⟩, ?_⟩
  · obtain ⟨⟨⟩, s₂, h₂⟩ := hcheck.exists_ok hinfer h₁
    exact ⟨s₂, h₂⟩
  · exact fun e' s₁ s₂ h₁ h₂ => hcheck.exists_renaming hinfer h₁ h₂

/-- A number and the operator for inequality, against types that are known. -/
theorem check_agrees_tuple :
    let e : Expr := .tuple default [.literal default (.number default), .ident default "!="]
    let t : Ty := .tuple [.number, .fn [.string, .string] .bool 0]
    ∃ vs e' s₁ s₂, Checker.initial.Proper vs ∧ check e t Checker.initial = .ok e' s₁ ∧
      inferThenUnify e t Checker.initial = .ok () s₂ ∧ ∃ ρ : TyVar → TyVar, ∀ u : Ty, u.Over vs →
        (s₁.table.resolveDeep u).1.erase.subst (fun w => .var (ρ w)) = (s₂.table.resolveDeep u).1.erase := by
  intro e t
  obtain ⟨vs, hinitial⟩ := Checker.proper_initial
  have hname (n : String) : Ty.Proper vs (.name n) := .name n
  have ht : t.Proper vs := by
    refine .tuple (List.forall_mem_cons.mpr ⟨hname _, List.forall_mem_singleton.mpr (.fn ?_ (hname _) ?_)⟩)
    · exact List.forall_mem_cons.mpr ⟨hname _, List.forall_mem_singleton.mpr (hname _)⟩
    · exact Nat.zero_le _
  have hdeep : (Checker.initial.table.resolveDeep t).1 = t := by cbv
  have hoperator : (Checker.initial.scope.lookup "!=").map (fun t => (Checker.initial.table.resolveDeep t).1) =
      some (.fn [.var ⟨9, "a", false, false⟩, .var ⟨9, "a", false, false⟩] .bool 0) := by cbv
  have hidents : e.Everywhere (Expr.UnionFreeIn Checker.initial) := by
    refine ⟨by rintro _ _ _ ⟨⟩, by rintro _ _ _ ⟨⟩, ?_, trivial⟩
    rintro n x u ⟨⟩ hu
    rw [hu, Option.map_some, Option.some.injEq] at hoperator
    rw [hoperator]
    exact ⟨⟨trivial, trivial, trivial⟩, trivial⟩
  have hordered : e.Ordered := ⟨by rintro _ _ ⟨⟩, by rintro _ _ ⟨⟩, by rintro _ _ ⟨⟩, trivial⟩
  obtain ⟨hiff, hagree⟩ := check_agrees (e := e) hinitial ⟨trivial, trivial, trivial, trivial⟩ hordered hidents ht
    (hdeep ▸ ⟨trivial, ⟨⟨trivial, trivial, trivial⟩, trivial⟩, trivial⟩) (hdeep ▸ List.forall_mem_nil _)
  obtain ⟨e', s₁, h₁⟩ : ∃ e' s₁, check e t Checker.initial = .ok e' s₁ := exists_ok_of_succeeds (by cbv)
  obtain ⟨s₂, h₂⟩ := hiff.mp ⟨e', s₁, h₁⟩
  obtain ⟨ρ, hρ, -⟩ := hagree e' s₁ s₂ h₁ h₂
  exact ⟨vs, e', s₁, s₂, hinitial, h₁, h₂, ρ, hρ⟩

/-- If the expected type holds a variable that is generalized, then pushing it into a tuple gives the variable
a value before the type of an identifier is instantiated. And of two unknown types either one can become the name
of the other. -/
theorem check_disagrees :
    (let e : Expr := .tuple default [.literal default (.number default), .ident default "!="]
     let t : Ty := .tuple [.var ⟨9, "a", false, false⟩, .fn [.string, .string] .bool 0]
     match check e t Checker.initial, inferThenUnify e t Checker.initial with
     | .error .., .ok .. => true
     | _, _ => false) = true ∧
    (let v : TyVar := ⟨10, "v", false, false⟩
     let w : TyVar := ⟨11, "w", false, false⟩
     let e : Expr := .array default [.ident default "x", .ident default "y"]
     let valueAfter (act : Check Unit) : Option Ty :=
       let run : Check Unit := do
         bindValue "x" (← freshVar "v")
         bindValue "y" (← freshVar "w")
         act
       match run Checker.initial with
       | .ok _ s => some (s.table.resolveDeep (.var v)).1
       | .error .. => none
     (valueAfter (discard (check e (.array (.var w)))), valueAfter (inferThenUnify e (.array (.var w))))) =
      (some (.var ⟨10, "v", false, false⟩), some (.var ⟨11, "w", false, false⟩)) := by
  constructor
  · cbv
  · cbv

end Check

end Reified
