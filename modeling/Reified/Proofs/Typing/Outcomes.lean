import Reified.Proofs.Typing.Accesses
import Reified.Proofs.Typing.Annotated

/-!
# What a check ends with

A check ends in a state whether it succeeds or fails. What holds at the end of the check of a part, and is kept by
whatever else is done, holds at the end of the check of the whole.

## Main definitions

* `Check.Ends` — what holds of the outcome of an action
* `Check.Subject.Ends` — what holds at the end of the check of a part of the tree
* `Check.Maintains` — a predicate of checkers that the check of a statement or declaration keeps

## Main results

* `Check.Leads.ends` — from the end of the check of a part to the end of the check around it
* `Check.Enters.ends`, `Check.Opens.ends` — what the table knows, from expressions inside to statements around
-/

namespace Reified

namespace Check

variable {α β : Type} {keep : Checker → Prop}

/-! ## Outcomes -/

/-- The state in which an action ends satisfies a predicate, and so does its answer if there is one. -/
def Ends (keep : Checker → Prop) (post : α → Prop) : EStateM.Result CheckError Checker α → Prop
  | .ok a s => keep s ∧ post a
  | .error _ s => keep s

theorem bind_of_error {act : Check α} {next : α → Check β} {s s' : Checker} {e : CheckError}
    (h : act s = .error e s') : (act >>= next) s = .error e s' := by
  show EStateM.bind act next s = _
  rw [EStateM.bind, h]

theorem Ensures.ends {post : α → Prop} {act : Check α} (h : Ensures keep post act) {s : Checker} (hs : keep s) :
    Ends keep post (act s) := by
  have h1 := h s hs
  cases hact : act s with
  | ok a s' =>
    rw [hact] at h1
    exact h1
  | error e s' =>
    rw [hact] at h1
    exact h1

namespace Ends

variable {post : α → Prop} {act : Check α} {s : Checker}

/-- One action after the other. -/
theorem bind {next : α → Check β} {post' : β → Prop} (h : Ends keep post (act s))
    (hnext : ∀ a s₁, act s = .ok a s₁ → keep s₁ → post a → Ends keep post' (next a s₁)) :
    Ends keep post' ((act >>= next) s) := by
  show Ends keep post' (EStateM.bind act next s)
  rw [EStateM.bind]
  cases hact : act s with
  | ok a s₁ =>
    rw [hact] at h
    exact hnext a s₁ hact h.1 h.2
  | error e s₁ =>
    rw [hact] at h
    exact h

/-- What is done after the action keeps the predicate. -/
theorem andThen {next : α → Check β} {post' : β → Prop} (h : Ends keep post (act s))
    (hnext : ∀ a, post a → Ensures keep post' (next a)) : Ends keep post' ((act >>= next) s) :=
  h.bind fun a _ _ hs ha => (hnext a ha).ends hs

theorem mono {post' : α → Prop} (h : Ends keep post (act s)) (hpost : ∀ a, post a → post' a) :
    Ends keep post' (act s) := by
  cases hact : act s with
  | ok a s' =>
    rw [hact] at h
    exact ⟨h.1, hpost a h.2⟩
  | error e s' =>
    rw [hact] at h
    exact h

theorem map {f : α → β} {post' : β → Prop} (h : Ends keep post (act s)) (hpost : ∀ a, post a → post' (f a)) :
    Ends keep post' ((f <$> act) s) := by
  rw [← bind_pure_comp]
  exact h.andThen fun a ha => .pure (hpost a ha)

end Ends

/-- Nothing is said of the answer. -/
abbrev EndsIn (keep : Checker → Prop) (r : EStateM.Result CheckError Checker α) : Prop :=
  Ends keep (fun _ => True) r

theorem EndsIn.map {act : Check α} {f : α → β} {s : Checker} (h : EndsIn keep (act s)) :
    EndsIn keep ((f <$> act) s) :=
  Ends.map h fun _ _ => trivial

/-! ## Statements and declarations -/

variable [Policy] {good : Ty → Prop} {U : Subject → Checker → Prop} {P : Subject} {s s' : Checker}

/-- The check of the part of the tree ends in a state with the property. -/
def Subject.Ends (keep : Checker → Prop) (s : Checker) : Subject → Prop
  | .stmt t st => EndsIn keep (Check.stmt t st s)
  | .cases t u cs => ∀ done, EndsIn keep (Check.matchCases t u done cs s)
  | .decls t ds => ∀ done, EndsIn keep (Check.decls t done ds s)
  | .decl t d => EndsIn keep (Check.decl t d s)

/-- A predicate of checkers that is kept by what the check of statements and declarations does with good types, and
at the given places by the check of a part. -/
structure Maintains (keep : Checker → Prop) (good : Ty → Prop) (U : Subject → Checker → Prop) : Prop where
  void : good .void
  popScope : Ensures keep (fun _ => True) popScope
  popFrame : Ensures keep (fun _ => True) popFrame
  leaveBody : ∀ n, Ensures keep (fun _ => True) (leaveBody n)
  setLoopDepth : ∀ g, Ensures keep (fun _ => True) (setLoopDepth g)
  unify : ∀ {t u} span, good t → good u → Ensures keep (fun _ => True) (unify t u span)
  resolveDeep : ∀ {t}, good t → Ensures keep good (resolveDeep t)
  bindValue : ∀ {t} name, good t → Ensures keep (fun _ => True) (bindValue name t)
  leads : ∀ {P act inside t s s'}, U P s → Leads P act inside → act s = .ok t s' → U (inside t) s'
  part : ∀ {P s}, U P s → (∀ t ∈ P.types, good t) → keep s → P.Ends keep s

namespace Maintains

variable {t : Ty}

/-- A unification at the end of a check. -/
theorem unlessUnify (h : Maintains keep good U) (ht : good t) {c : Prop} [Decidable c] {span : Span} {a : α} :
    Ensures keep (fun _ => True) (do
      unless c do Check.unify t .void span
      return a) := by
  by_cases hc : c
  · simp only [if_pos hc]
    exact .pure trivial
  · simp only [if_neg hc]
    exact (h.unify span ht h.void).bind fun _ _ => .pure trivial

end Maintains

/-- **What holds at the end of the check of a part holds at the end of the check around it**, if the rest of this
keeps it. -/
theorem Leads.ends (hkeep : Maintains keep good U) (hP : U P s) (hgood : ∀ t ∈ P.types, good t)
    (hsignature : ∀ {t head body s₁ s₂ a}, P = .decl t (.fn head body) → pushFrame s = .ok () s₁ →
      enterFunction head s₁ = .ok a s₂ → good a.1)
    {act : Check Ty} {inside : Ty → Subject} {t : Ty} (h : Leads P act inside) (hact : act s = .ok t s')
    (hin : (inside t).Ends keep s') : P.Ends keep s := by
  have hunify : ∀ {t : Ty} (span : Span), t ∈ P.types → Ensures keep (fun _ => True) (unify t .void span) :=
    fun span ht => hkeep.unify span (hgood _ ht) hkeep.void
  have hdone : ∀ {β : Type} {b : β}, Ensures keep (fun _ => True) (pure b : Check β) := .pure trivial
  cases h with
  | block body span =>
    show EndsIn keep (stmt _ (.block body span) s)
    obtain rfl := openBlock_eq_ok hact
    rw [stmt, inBlock_eq, bind_assoc, bind_of_ok hact, bind_assoc]
    refine (hin []).andThen fun _ _ => ?_
    exact (hkeep.popScope.bind fun _ _ => hdone).bind fun _ _ => hdone
  | onlyBranch c st span =>
    obtain ⟨c', s₁, hc, hact⟩ := bind_eq_ok hact
    show EndsIn keep (stmt _ (.cond c st none span) s)
    rw [stmt, bind_of_ok hc]
    dsimp only
    rw [bind_of_ok hact]
    exact hin.andThen fun _ _ => (hunify span (List.mem_singleton_self _)).bind fun _ _ => hdone
  | thenBranch c st alternate span =>
    obtain ⟨c', s₁, hc, hret⟩ := bind_eq_ok hact
    cases hret
    show EndsIn keep (stmt t (.cond c st (some alternate) span) s)
    rw [stmt, bind_of_ok hc]
    refine Ends.bind hin fun st' s₂ hst hs₂ _ => ?_
    have hat := hkeep.leads hP (.elseBranch c st alternate span) ((bind_of_ok hc).trans (bind_of_ok hst))
    have halternate : EndsIn keep (stmt t alternate s₂) := hkeep.part hat hgood hs₂
    exact halternate.andThen fun _ _ => hdone
  | elseBranch c st alternate span =>
    obtain ⟨c', s₁, hc, hact⟩ := bind_eq_ok hact
    obtain ⟨st', s₂, hst, hret⟩ := bind_eq_ok hact
    cases hret
    show EndsIn keep (stmt t (.cond c st (some alternate) span) s)
    rw [stmt, bind_of_ok hc]
    dsimp only
    rw [bind_of_ok hst]
    exact hin.andThen fun _ _ => hdone
  | whileBody c body span =>
    obtain ⟨c', s₁, hc, hact⟩ := bind_eq_ok hact
    obtain ⟨⟨⟩, s₂, hloop, hact⟩ := bind_eq_ok hact
    show EndsIn keep (stmt _ (.whileLoop c body span) s)
    rw [stmt, bind_of_ok hc, bind_of_ok hloop, bind_of_ok hact]
    refine hin.andThen fun _ _ => (hkeep.setLoopDepth _).bind fun _ _ => ?_
    exact hkeep.unlessUnify (hgood _ (List.mem_singleton_self _))
  | forBody init c increment body span =>
    obtain ⟨⟨⟩, s₁, hpush, hact⟩ := bind_eq_ok hact
    obtain ⟨init', s₂, hinit, hact⟩ := bind_eq_ok hact
    obtain ⟨c', s₃, hc, hact⟩ := bind_eq_ok hact
    obtain ⟨increment', s₄, hincrement, hact⟩ := bind_eq_ok hact
    obtain ⟨⟨⟩, s₅, hloop, hact⟩ := bind_eq_ok hact
    show EndsIn keep (stmt _ (.forLoop init c increment body span) s)
    rw [stmt, bind_of_ok hpush, bind_of_ok hinit, bind_of_ok hc, bind_of_ok hincrement, bind_of_ok hloop,
      bind_of_ok hact]
    refine hin.andThen fun _ _ => (hkeep.setLoopDepth _).bind fun _ _ => hkeep.popScope.bind fun _ _ => ?_
    exact hkeep.unlessUnify (hgood _ (List.mem_singleton_self _))
  | cases scrutinee cs default span =>
    have hcases := hact
    rw [← bind_pure_comp] at hact
    obtain ⟨r, s₁, hscrutinee, hret⟩ := bind_eq_ok hact
    cases hret
    show EndsIn keep (stmt _ (.cases scrutinee cs default span) s)
    rw [stmt, bind_of_ok hscrutinee]
    refine Ends.bind (hin []) fun cs' s₂ hcs hs₂ _ => ?_
    cases default with
    | none => exact hdone.ends hs₂
    | some last =>
      have hat := hkeep.leads hP (.default scrutinee cs last span)
        ((bind_of_ok hscrutinee).trans (bind_of_ok hcs))
      have hlast : EndsIn keep (stmt _ last s₂) := hkeep.part hat hgood hs₂
      exact hlast.andThen fun _ _ => hdone
  | default scrutinee cs last span =>
    obtain ⟨r, s₁, hscrutinee, hact⟩ := bind_eq_ok hact
    obtain ⟨cs', s₂, hcs, hret⟩ := bind_eq_ok hact
    cases hret
    show EndsIn keep (stmt t (.cases scrutinee cs (some last) span) s)
    rw [stmt, bind_of_ok hscrutinee]
    dsimp only
    rw [bind_of_ok hcs]
    exact hin.andThen fun _ _ => hdone
  | caseBody p st cs =>
    obtain ⟨⟨⟩, s₁, hpush, hact⟩ := bind_eq_ok hact
    obtain ⟨⟨⟩, s₂, hpattern, hret⟩ := bind_eq_ok hact
    cases hret
    intro done
    rw [matchCases, bind_of_ok hpush, bind_of_ok hpattern]
    refine Ends.bind hin fun st' s₃ hst hs₃ _ => Ends.bind (hkeep.popScope.ends hs₃) fun _ s₄ hpop hs₄ _ => ?_
    have hat := hkeep.leads hP (.nextCases p st cs) ((bind_of_ok hpush).trans
      ((bind_of_ok hpattern).trans ((bind_of_ok hst).trans (bind_of_ok hpop))))
    exact hkeep.part hat hgood hs₄ _
  | nextCases p st cs =>
    obtain ⟨⟨⟩, s₁, hpush, hact⟩ := bind_eq_ok hact
    obtain ⟨⟨⟩, s₂, hpattern, hact⟩ := bind_eq_ok hact
    obtain ⟨st', s₃, hst, hact⟩ := bind_eq_ok hact
    obtain ⟨⟨⟩, s₄, hpop, hret⟩ := bind_eq_ok hact
    cases hret
    intro done
    rw [matchCases, bind_of_ok hpush, bind_of_ok hpattern, bind_of_ok hst, bind_of_ok hpop]
    exact hin _
  | first d ds =>
    intro done
    rw [decls, bind_of_ok hact]
    refine Ends.bind hin fun d' s₂ hd hs₂ _ => ?_
    exact hkeep.part (hkeep.leads hP (.rest d ds) ((bind_of_ok hact).trans (bind_of_ok hd))) hgood hs₂ _
  | rest d ds =>
    obtain ⟨u, s₁, hcompletion, hact⟩ := bind_eq_ok hact
    obtain ⟨d', s₂, hd, hret⟩ := bind_eq_ok hact
    cases hret
    intro done
    rw [decls, bind_of_ok hcompletion, bind_of_ok hd]
    exact hin _
  | statement st =>
    cases hact
    show EndsIn keep (decl t (.stmt st) s)
    rw [decl]
    exact hin.andThen fun _ _ => hdone
  | body head body =>
    obtain ⟨⟨⟩, s₁, hpush, hact⟩ := bind_eq_ok hact
    obtain ⟨⟨signature, result, loopDepth⟩, s₂, henter, hopen⟩ := bind_eq_ok hact
    obtain rfl := openBlock_eq_ok hopen
    have hgood' : good signature := hsignature rfl hpush henter
    show EndsIn keep (decl _ (.fn head body) s)
    rw [decl, function_eq, fnType, fnBody_eq]
    simp only [inBlock_eq, bind_assoc, pure_bind]
    rw [bind_of_ok hpush, bind_of_ok henter]
    dsimp only at hopen ⊢
    rw [bind_of_ok hopen]
    refine (hin []).andThen fun _ _ => hkeep.popScope.bind fun _ _ => (hkeep.leaveBody _).bind fun _ _ => ?_
    refine hkeep.popScope.bind fun _ _ => hkeep.popFrame.bind fun _ _ => ?_
    refine (hkeep.resolveDeep hgood').bind fun u hu => (hkeep.bindValue head.name hu).bind fun _ _ => ?_
    exact (hunify head.span (List.mem_singleton_self _)).bind fun _ _ => hdone

/-! ## What the table knows -/

section grows

variable {T : Table} {Q : Focus}

/-- What the table of a checker knows extends what another one knows. -/
abbrev From (T : Table) (s : Checker) : Prop := T.Grows s.table

omit [Policy] in
theorem Learns.grows {post : α → Prop} {act : Check α} (h : Learns T False post act) :
    Ensures (From T) (fun _ => True) act := by
  intro s hs
  have h1 := h s hs.tame
  cases hact : act s with
  | ok a s' =>
    rw [hact] at h1
    exact ⟨hs.trans h1.1, trivial⟩
  | error e s' =>
    rw [hact] at h1
    exact hs.trans h1

omit [Policy] in
theorem grows_conclude {x : Option Ty} {t : Ty} {e : Expr} :
    Ensures (From T) (fun _ => True) (conclude x t e) := by
  unfold conclude
  split
  · exact ((learns_unify _ _ _).grows).bind fun _ _ => .pure trivial
  · exact .pure trivial

theorem grows_typing {x : Option Ty} {e : Expr} : Ensures (From T) (fun _ => True) (typing x e) :=
  (learns_typing e).grows

theorem grows_typingList {ts found : List Ty} {done es : List Expr} :
    Ensures (From T) (fun _ => True) (typingList ts found done es) :=
  (learns_typingList es False.elim).grows

theorem grows_typingFields {ts : List Ty} {found : List (String × Ty)} {done fs : List (String × Expr)} :
    Ensures (From T) (fun _ => True) (typingFields ts found done fs) :=
  (learns_typingFields fs False.elim).grows

theorem grows_hole (name : String) (span : Span) : Ensures (From T) (fun _ => True) (hole name span) :=
  (learns_hole name span).grows

/-- The check of the part of an expression ends in a state with the property. -/
def Focus.Ends (keep : Checker → Prop) (s : Checker) : Focus → Prop
  | .expr x e => EndsIn keep (typing x e s)
  | .list ts es => ∀ found done, EndsIn keep (typingList ts found done es s)
  | .fields ts fs => ∀ found done, EndsIn keep (typingFields ts found done fs s)

/-- The form of the expected type is the same each time. -/
theorem Narrows.ends {x form : Option Ty} {e : Expr} {s₀ : Checker} (hform : expectedForm x s₀ = .ok form s)
    (h : Narrows x form e s Q s') (hQ : Q.Ends (From T) s') : EndsIn (From T) (typing x e s₀) := by
  have hdone : ∀ {β : Type} {b : β}, Ensures (From T) (fun _ => True) (pure b : Check β) := .pure trivial
  rw [typing, bind_of_ok hform]
  cases h with
  | paren n e =>
    have hQ : EndsIn (From T) (typing x e s) := hQ
    exact hQ.andThen fun _ _ => hdone
  | conditionLeft n l r _ hop =>
    have hQ : EndsIn (From T) (typing (some .bool) l s) := hQ
    rcases hop with rfl | rfl
    · exact hQ.andThen fun _ _ => grows_typing.bind fun _ _ => grows_conclude
    · exact hQ.andThen fun _ _ => grows_typing.bind fun _ _ => grows_conclude
  | conditionRight n l r hop hl =>
    have hQ : EndsIn (From T) (typing (some .bool) r s') := hQ
    rcases hop with rfl | rfl
    · dsimp only
      rw [bind_of_ok hl]
      exact hQ.andThen fun _ _ => grows_conclude
    · dsimp only
      rw [bind_of_ok hl]
      exact hQ.andThen fun _ _ => grows_conclude
  | equalLeft n l r =>
    have hQ : EndsIn (From T) (typing none l s) := hQ
    exact hQ.andThen fun _ _ => grows_typing.bind fun _ _ => grows_conclude
  | equalRight n l r hl =>
    dsimp only
    rw [bind_of_ok hl]
    exact Ends.andThen hQ fun _ _ => grows_conclude
  | operandLeft n l r hand hor hequal hlookup hresolve =>
    have hQ : EndsIn (From T) (typing _ l s') := hQ
    dsimp only
    split
    · exact absurd rfl hand
    · exact absurd rfl hor
    · exact absurd rfl hequal
    · rw [bind_of_ok hlookup, bind_of_ok hresolve]
      exact hQ.andThen fun _ _ => grows_typing.bind fun _ _ => grows_conclude
  | operandRight n l r hand hor hequal hlookup hresolve hl =>
    dsimp only
    split
    · exact absurd rfl hand
    · exact absurd rfl hor
    · exact absurd rfl hequal
    · rw [bind_of_ok hlookup, bind_of_ok hresolve]
      dsimp only
      rw [bind_of_ok hl]
      exact Ends.andThen hQ fun _ _ => grows_conclude
  | @knownFields ts fs n _ hform' hnames =>
    subst hform'
    cases x with
    | none => cases hform
    | some t =>
      dsimp only
      rw [if_pos hnames]
      exact Ends.andThen (hQ [] []) fun _ _ => hdone
  | @fields fs n _ hne =>
    have hrest : EndsIn (From T) ((do
        let r ← typingFields [] [] [] fs
        conclude x (.record r.1) (.object n r.2) : Check (Ty × Expr)) s) :=
      Ends.andThen (hQ [] []) fun _ _ => grows_conclude
    dsimp only
    split
    · next t ts =>
      rw [if_neg (hne ts rfl)]
      exact hrest
    · exact hrest
  | knownItems n es _ hform' =>
    subst hform'
    cases x with
    | none => cases hform
    | some t => exact Ends.andThen (hQ [] []) fun _ _ => hdone
  | firstItem n e es _ hne =>
    dsimp only
    split
    · next item => exact absurd rfl (hne item)
    · exact Ends.andThen hQ fun _ _ => grows_typingList.bind fun _ _ => grows_conclude
  | nextItems n e es hne he =>
    dsimp only
    split
    · next item => exact absurd rfl (hne item)
    · rw [bind_of_ok he]
      exact Ends.andThen (hQ [] []) fun _ _ => grows_conclude
  | knownPositions n _ hform' hlength =>
    subst hform'
    cases x with
    | none => cases hform
    | some t =>
      dsimp only
      rw [if_pos hlength]
      exact Ends.andThen (hQ [] []) fun _ _ => hdone
  | @positions es n _ hne =>
    have hrest : EndsIn (From T) ((do
        let r ← typingList [] [] [] es
        conclude x (.tuple r.1) (.tuple n r.2) : Check (Ty × Expr)) s) :=
      Ends.andThen (hQ [] []) fun _ _ => grows_conclude
    dsimp only
    split
    · next t ts =>
      rw [if_neg (hne ts rfl)]
      exact hrest
    · exact hrest
  | callee n callee args slots =>
    refine Ends.andThen hQ fun r _ => ?_
    refine (learns_resolve r.1).grows.bind fun u _ => ?_
    split
    · next params result implicit =>
      have hrest : Ensures (From T) (fun _ => True) (do
          let c ← instantiateImplicit params result implicit n.span
          let a ← typingList (c.1.drop implicit) [] [] args
          conclude x c.2.1 (.call n r.2 a.2 (some c.2.2)) : Check (Ty × Expr)) :=
        (learns_instantiateImplicit params result implicit n.span).grows.bind fun _ _ =>
          grows_typingList.bind fun _ _ => grows_conclude
      dsimp only
      split
      · exact (Ensures.fail _ _ : Ensures (From T) (fun _ => True) _).bind fun _ _ => hrest
      · exact hrest
    · exact grows_typingList.bind fun _ _ => (grows_hole "" n.span).bind fun _ _ => grows_conclude
    · exact (learns_resolveDeep _).grows.bind fun _ _ => .fail _ _
  | args n slots hcallee hresolve hlength hinstantiate =>
    dsimp only
    rw [bind_of_ok hcallee, bind_of_ok hresolve]
    dsimp only
    rw [if_neg (not_not.mpr hlength), bind_of_ok hinstantiate]
    exact Ends.andThen (hQ [] []) fun _ _ => grows_conclude
  | openArgs n args slots hcallee hresolve =>
    dsimp only
    rw [bind_of_ok hcallee, bind_of_ok hresolve]
    exact Ends.andThen (hQ [] []) fun _ _ => (grows_hole "" n.span).bind fun _ _ => grows_conclude
  | target n target index =>
    refine Ends.andThen hQ fun r _ => ?_
    refine (learns_resolve r.1).grows.bind fun u _ => ?_
    split
    · exact grows_typing.bind fun _ _ => grows_conclude
    · refine (learns_resolveDeep r.1).grows.bind fun whole _ => ?_
      split
      · exact .fail _ _
      · split
        · exact .fail _ _
        · exact grows_typing.bind fun _ _ => grows_conclude
    · exact grows_typing.bind fun _ _ => (grows_hole "" n.span).bind fun _ _ => grows_conclude
    · exact (learns_freshVar "").grows.bind fun _ _ =>
        (learns_resolveDeep _).grows.bind fun _ _ => .fail _ _
  | index n index htarget hresolve =>
    dsimp only
    rw [bind_of_ok htarget, bind_of_ok hresolve]
    exact Ends.andThen hQ fun _ _ => grows_conclude
  | position n htarget hresolve hwhole hi hlt =>
    dsimp only
    rw [bind_of_ok htarget, bind_of_ok hresolve]
    dsimp only
    rw [bind_of_ok hwhole, hi]
    dsimp only
    rw [List.getElem?_eq_getElem hlt]
    exact Ends.andThen hQ fun _ _ => grows_conclude
  | openIndex n index htarget hresolve =>
    dsimp only
    rw [bind_of_ok htarget, bind_of_ok hresolve]
    exact Ends.andThen hQ fun _ _ => (grows_hole "" n.span).bind fun _ _ => grows_conclude
  | object n o field =>
    refine Ends.andThen hQ fun r _ => ?_
    exact (learns_fieldType r.1 field n.span).grows.bind fun _ _ => grows_conclude

/-- What the table knows at the end of the check of a part of an expression it knows at the end of the check of the
expression. -/
theorem Enters.ends {P : Focus} (h : Enters P s Q s') (hQ : Q.Ends (From T) s') : P.Ends (From T) s := by
  cases h with
  | expr hform hinner => exact hinner.ends hform hQ
  | head ts e es =>
    intro found done
    rw [typingList]
    exact Ends.andThen hQ fun _ _ => grows_typingList
  | tail es he =>
    intro found done
    rw [typingList, bind_of_ok he]
    exact hQ _ _
  | field ts name e fs =>
    intro found done
    rw [typingFields]
    exact Ends.andThen hQ fun _ _ => grows_typingFields
  | nextFields name fs he =>
    intro found done
    rw [typingFields, bind_of_ok he]
    exact hQ _ _

/-! ## From expressions to statements -/

theorem grows_check (e : Expr) (t : Ty) : Ensures (From T) (fun _ => True) (check e t) := (learns_check e t).grows

theorem grows_stmt (t : Ty) (st : Stmt) : Ensures (From T) (fun _ => True) (stmt t st) := (learns_stmt st).grows

omit [Policy] in
theorem grows_unless {c : Prop} [Decidable c] {t u : Ty} {span : Span} {a : α} :
    Ensures (From T) (fun _ => True) (do
      unless c do unify t u span
      return a) := by
  split
  · exact .pure trivial
  · exact (learns_unify t u span).grows.bind fun _ _ => .pure trivial

/-- The body of a `for` loop and what comes after it. -/
theorem grows_forBody (t : Ty) (init : Option ForInit) (c increment : Option Expr) (body : Stmt) (span : Span) :
    Ensures (From T) (fun _ => True) (do
      setLoopDepth (· + 1)
      let body ← stmt (← freshVar "") body
      setLoopDepth (· - 1)
      popScope
      unless Stmt.neverExits c body do unify t .void span
      return Stmt.forLoop init c increment body span) := by
  refine (learns_setLoopDepth _).grows.bind fun _ _ => (learns_freshVar "").grows.bind fun u _ => ?_
  refine (grows_stmt u body).bind fun _ _ => (learns_setLoopDepth _).grows.bind fun _ _ => ?_
  exact learns_popScope.grows.bind fun _ _ => grows_unless

theorem Focus.Ends.check {keep : Checker → Prop} {e : Expr} {t : Ty} (h : (Focus.expr (some t) e).Ends keep s) :
    EndsIn keep (check e t s) :=
  EndsIn.map h

theorem Focus.Ends.infer {keep : Checker → Prop} {e : Expr} (h : (Focus.expr none e).Ends keep s) :
    EndsIn keep (infer e s) := h

theorem Initializes.endsLet {d : LetDecl} (h : Initializes (.letDecl d) s Q s') (hQ : Q.Ends (From T) s') :
    EndsIn (From T) (letDecl d s) := by
  have hbind : ∀ {t : Ty} {r : LetDecl}, Ensures (From T) (fun _ => True) (do
      bindValue d.name t
      return r : Check LetDecl) := (learns_bindValue _ _).grows.bind fun _ _ => .pure trivial
  unfold letDecl
  cases h with
  | annotated ha ht =>
    rw [ha]
    dsimp only
    rw [bind_of_ok ht]
    exact hQ.check.andThen fun _ _ => hbind
  | inferred _ ha =>
    rw [ha]
    exact hQ.infer.andThen fun _ _ => hbind

theorem Initializes.ends {init : ForInit} (h : Initializes init s Q s') (hQ : Q.Ends (From T) s') :
    EndsIn (From T) (forInit (some init) s) := by
  cases init with
  | expr e =>
    cases h
    exact hQ.infer.andThen fun _ _ => .pure trivial
  | letDecl d => exact (h.endsLet hQ).andThen fun _ _ => .pure trivial

/-- What the table knows at the end of the check of an expression it knows at the end of the check of the statement
or declaration it stands in. -/
theorem Opens.ends {P : Subject} (h : Opens P s Q s') (hQ : Q.Ends (From T) s') : P.Ends (From T) s := by
  have hdone : ∀ {β : Type} {b : β}, Ensures (From T) (fun _ => True) (pure b : Check β) := .pure trivial
  cases h with
  | ret e span hreturn =>
    show EndsIn (From T) (stmt _ (.ret (some e) span) s)
    have hget : (get : Check Checker) s = .ok s s := rfl
    rw [stmt, bind_of_ok hget, hreturn]
    exact hQ.check.andThen fun _ _ => hdone
  | condition t c st alternate span =>
    show EndsIn (From T) (stmt t (.cond c st alternate span) s)
    rw [stmt]
    refine hQ.check.andThen fun _ _ => ?_
    cases alternate with
    | none =>
      refine (learns_freshVar "").grows.bind fun u _ => (grows_stmt u st).bind fun _ _ => ?_
      exact (learns_unify _ _ _).grows.bind fun _ _ => hdone
    | some alternate => exact (grows_stmt t st).bind fun _ _ => (grows_stmt t alternate).bind fun _ _ => hdone
  | whileCondition t c body span =>
    show EndsIn (From T) (stmt t (.whileLoop c body span) s)
    rw [stmt]
    refine hQ.check.andThen fun _ _ => (learns_setLoopDepth _).grows.bind fun _ _ => ?_
    refine (learns_freshVar "").grows.bind fun u _ => (grows_stmt u body).bind fun _ _ => ?_
    exact (learns_setLoopDepth _).grows.bind fun _ _ => grows_unless
  | forInit t c increment body span hpush hinitializes =>
    show EndsIn (From T) (stmt t (.forLoop _ c increment body span) s)
    rw [stmt, bind_of_ok hpush]
    refine (hinitializes.ends hQ).andThen fun _ _ => ?_
    refine (learns_mapM (fun c => learns_check c .bool) c).grows.bind fun _ _ => ?_
    refine (learns_mapM (fun e => (learns_infer e).map fun _ _ h => h) increment).grows.bind fun _ _ => ?_
    exact grows_forBody t _ _ _ body span
  | forCondition t c increment body span hpush hinit =>
    show EndsIn (From T) (stmt t (.forLoop _ (some c) increment body span) s)
    rw [stmt, bind_of_ok hpush, bind_of_ok hinit, Option.mapM_some]
    refine hQ.check.map.andThen fun _ _ => ?_
    refine (learns_mapM (fun e => (learns_infer e).map fun _ _ h => h) increment).grows.bind fun _ _ => ?_
    exact grows_forBody t _ _ _ body span
  | forIncrement t e body span hpush hinit hc =>
    show EndsIn (From T) (stmt t (.forLoop _ _ (some e) body span) s)
    rw [stmt, bind_of_ok hpush, bind_of_ok hinit, bind_of_ok hc, Option.mapM_some]
    refine hQ.infer.map.map.andThen fun _ _ => ?_
    exact grows_forBody t _ _ _ body span
  | scrutinee t e cs default span =>
    show EndsIn (From T) (stmt t (.cases e cs default span) s)
    rw [stmt]
    refine hQ.infer.andThen fun r _ => (learns_matchCases cs False.elim).grows.bind fun _ _ => ?_
    cases default with
    | none => exact hdone
    | some last => exact (grows_stmt t last).bind fun _ _ => hdone
  | expr t e =>
    show EndsIn (From T) (stmt t (.expr e) s)
    rw [stmt]
    exact hQ.check.andThen fun _ _ => hdone
  | letDecl t hinitializes =>
    show EndsIn (From T) (decl t (.letDecl _) s)
    rw [decl]
    refine (hinitializes.endsLet hQ).andThen fun _ _ => (learns_unify _ _ _).grows.bind fun _ _ => hdone

end grows

end Check

end Reified
