import Reified.Proofs.Tree.Ordered
import Reified.Proofs.Typing.Proper

/-!
# Checking forms proper types

The actions of the checker keep all types proper, and what they answer is proper: the types that written types
stand for, those of parameters, what a call puts in place of inferred parameters, and the types of expressions.
Of the program only the order of its fields matters.

## Main results

* `Scope.Proper.interpret` — written types stand for proper types
* `Check.forms_paramTypes` — the types of parameters, and how many are inferred
* `Check.forms_typing` — the type of an expression
-/

namespace Reified

/-! ## Written types -/

namespace Scope.Proper

variable {vs : List TyVar} {s : Scope}

mutual

/-- What a written type stands for is proper. -/
theorem interpret (h : s.Proper vs) : (t : TypeExpr) → t.Ordered → ∀ {u : Ty}, s.interpret t = .ok u →
    u.Proper vs
  | .name n span, _, u, hu => by
    rw [Scope.interpret] at hu
    split at hu
    · next t ht =>
      cases hu
      exact h.lookupType ht
    · split at hu
      · cases hu
        exact .name n
      · cases hu
  | .array t, ht, u, hu => by
    rw [Scope.interpret] at hu
    obtain ⟨w, hw, hu⟩ := exists_of_bind_eq_ok hu
    cases hu
    exact (interpret h t ht hw).array
  | .tuple ts, hts, u, hu => by
    rw [Scope.interpret] at hu
    obtain ⟨ws, hws, hu⟩ := exists_of_bind_eq_ok hu
    cases hu
    exact .tuple (interpretList h ts hts hws)
  | .record fs, hfs, u, hu => by
    rw [Scope.interpret] at hu
    obtain ⟨ws, hws, hu⟩ := exists_of_bind_eq_ok hu
    cases hu
    obtain ⟨hnames, hproper⟩ := interpretFields h fs hfs.2 hws
    exact .record (hfs.1.of_names hnames) hproper
  | .fn ps r, hfn, u, hu => by
    rw [Scope.interpret] at hu
    obtain ⟨ws, hws, hu⟩ := exists_of_bind_eq_ok hu
    obtain ⟨w, hw, hu⟩ := exists_of_bind_eq_ok hu
    cases hu
    exact .fn (interpretList h ps hfn.1 hws) (interpret h r hfn.2 hw) (Nat.zero_le _)
  | .union a b, hab, u, hu => by
    rw [Scope.interpret] at hu
    obtain ⟨w, hw, hu⟩ := exists_of_bind_eq_ok hu
    obtain ⟨w', hw', hu⟩ := exists_of_bind_eq_ok hu
    cases hu
    exact .union (interpret h a hab.1 hw) (interpret h b hab.2 hw')

theorem interpretList (h : s.Proper vs) : (ts : List TypeExpr) → TypeExpr.OrderedList ts →
    ∀ {us : List Ty}, s.interpretList ts = .ok us → ∀ u ∈ us, u.Proper vs
  | [], _, us, hus => by
    cases hus
    exact List.forall_mem_nil _
  | t :: ts, hts, us, hus => by
    rw [Scope.interpretList] at hus
    obtain ⟨w, hw, hus⟩ := exists_of_bind_eq_ok hus
    obtain ⟨ws, hws, hus⟩ := exists_of_bind_eq_ok hus
    cases hus
    exact List.forall_mem_cons.mpr ⟨interpret h t hts.1 hw, interpretList h ts hts.2 hws⟩

theorem interpretFields (h : s.Proper vs) : (fs : List (String × TypeExpr)) → TypeExpr.OrderedFields fs →
    ∀ {us : List (String × Ty)}, s.interpretFields fs = .ok us →
      Fields.names us = Fields.names fs ∧ ∀ u ∈ us, u.2.Proper vs
  | [], _, us, hus => by
    cases hus
    exact ⟨rfl, List.forall_mem_nil _⟩
  | (name, t) :: fs, hfs, us, hus => by
    rw [Scope.interpretFields] at hus
    obtain ⟨w, hw, hus⟩ := exists_of_bind_eq_ok hus
    obtain ⟨ws, hws, hus⟩ := exists_of_bind_eq_ok hus
    cases hus
    obtain ⟨hnames, hproper⟩ := interpretFields h fs hfs.2 hws
    exact ⟨congrArg (name :: ·) hnames, List.forall_mem_cons.mpr ⟨interpret h t hfs.1 hw, hproper⟩⟩

end

end Scope.Proper

namespace Check

open Checker (Proper)

variable {α β : Type} {vs ws : List TyVar}

/-- All the types are proper. -/
abbrev AllProper (vs : List TyVar) (ts : List Ty) : Prop := ∀ t ∈ ts, t.Proper vs

theorem AllProper.mono {ts : List Ty} (h : AllProper vs ts) (hvs : vs <+: ws) : AllProper ws ts :=
  fun t ht => (h t ht).mono hvs

theorem AllProper.nil : AllProper vs [] := List.forall_mem_nil _

theorem AllProper.cons {t : Ty} {ts : List Ty} (ht : t.Proper vs) (h : AllProper vs ts) :
    AllProper vs (t :: ts) := List.forall_mem_cons.mpr ⟨ht, h⟩

theorem AllProper.reverse {ts : List Ty} (h : AllProper vs ts) : AllProper vs ts.reverse :=
  fun t ht => h t (List.mem_reverse.mp ht)

theorem forms_typeExpr {t : TypeExpr} (ht : t.Ordered) : Forms vs (fun ws r => r.Proper ws) (typeExpr t) := by
  intro s hs
  cases hi : s.scope.interpret t with
  | ok u =>
    rw [typeExpr_of_ok hi]
    exact ⟨vs, List.prefix_rfl, hs, hs.scope.interpret t ht hi⟩
  | error e =>
    rw [typeExpr_of_error hi]
    exact ⟨vs, List.prefix_rfl, hs⟩

theorem forms_optionalType (name : String) {t : Option TypeExpr} (ht : ∀ a ∈ t, a.Ordered) :
    Forms vs (fun ws r => r.Proper ws) (optionalType name t) := by
  cases t with
  | some t => exact forms_typeExpr (ht t rfl)
  | none => exact forms_freshVar name

theorem forms_typeValue (t : TypeExpr) (span : Span) : Forms vs Formed (typeValue t span) := by
  have hquiet : Forms vs Formed (typeExpr t) := by
    intro s hs
    cases hi : s.scope.interpret t with
    | ok u =>
      rw [typeExpr_of_ok hi]
      exact ⟨vs, List.prefix_rfl, hs, trivial⟩
    | error e =>
      rw [typeExpr_of_error hi]
      exact ⟨vs, List.prefix_rfl, hs⟩
  refine hquiet.bind fun _ _ _ _ => Forms.get.bind fun _ _ s _ => ?_
  dsimp only
  split
  · exact .fail _ _
  · exact .pure trivial

/-! ## Implicit parameters -/

theorem forms_openSlots (span : Span) {types slots : List Ty} {image : List (Nat × Ty)}
    (htypes : AllProper vs types) (himage : ∀ x ∈ image, x.2.Proper vs) (hslots : AllProper vs slots) :
    Forms vs (fun ws r => (∀ x ∈ r.1, x.2.Proper ws) ∧ AllProper ws r.2) (openSlots span types image slots) := by
  induction types generalizing image slots vs with
  | nil => exact .pure ⟨himage, hslots.reverse⟩
  | cons slot rest ih =>
    obtain ⟨hslot, hrest⟩ := List.forall_mem_cons.mp htypes
    have hinner : slot.slotType.2.Proper vs := by
      cases slot with
      | binding n t => exact hslot.part .inner
      | _ => exact hslot
    rw [openSlots_cons]
    refine (forms_resolve hinner).bind fun ws hws inner hinner => ?_
    refine (forms_newVar slot.slotType.1 true false).bind fun us hus v hv => ?_
    have hup := hws.trans hus
    have himage' : ∀ x ∈ image, x.2.Proper us := fun x hx => (himage x hx).mono hup
    have hslots' : AllProper us (v :: slots) := .cons hv (hslots.mono hup)
    split
    · exact ih (AllProper.mono hrest hup) (List.forall_mem_cons.mpr ⟨hv, himage'⟩) hslots'
    · refine (forms_unify hv (hinner.mono hus) span).bind fun ts hts _ _ => ?_
      exact ih (AllProper.mono hrest (hup.trans hts)) (fun x hx => (himage' x hx).mono hts) (hslots'.mono hts)

theorem forms_substituteAll {image : List (Nat × Ty)} {done types : List Ty}
    (himage : ∀ x ∈ image, x.2.Proper vs) (hdone : AllProper vs done) (htypes : AllProper vs types) :
    Forms vs (fun ws r => r.length = done.length + types.length ∧ AllProper ws r)
      (substituteAll image done types) := by
  induction types generalizing done vs with
  | nil => exact .pure ⟨by simp, hdone.reverse⟩
  | cons t types ih =>
    obtain ⟨ht, hrest⟩ := List.forall_mem_cons.mp htypes
    rw [substituteAll]
    refine (forms_substitute himage ht).bind fun ws hws u hu => ?_
    refine (ih (fun x hx => (himage x hx).mono hws) (.cons hu (hdone.mono hws))
      (AllProper.mono hrest hws)).mono fun us hus r hr => ⟨?_, hr.2⟩
    rw [hr.1, List.length_cons, List.length_cons]
    omega

theorem forms_instantiateImplicit {params : List Ty} {result : Ty} (implicit : Nat) (span : Span)
    (hparams : AllProper vs params) (hresult : result.Proper vs) :
    Forms vs (fun ws r => AllProper ws r.1 ∧ r.2.1.Proper ws ∧ AllProper ws r.2.2)
      (instantiateImplicit params result implicit span) := by
  unfold instantiateImplicit
  split
  · exact .pure ⟨hparams, hresult, .nil⟩
  · refine (forms_openSlots span (fun t ht => hparams t (List.mem_of_mem_take ht)) (List.forall_mem_nil _)
      .nil).bind fun ws hws r hr => ?_
    refine (forms_substituteAll hr.1 .nil (hparams.mono hws)).bind fun us hus ts hts => ?_
    refine (forms_substitute (fun x hx => (hr.1 x hx).mono hus) (hresult.mono (hws.trans hus))).bind
      fun qs hqs u hu => ?_
    exact .pure ⟨hts.2.mono hqs, hu, hr.2.mono (hus.trans hqs)⟩

/-! ## Expected types -/

/-- The expected type is proper, if there is one. -/
abbrev ExpectedProper (vs : List TyVar) (expected : Option Ty) : Prop := ∀ t ∈ expected, t.Proper vs

theorem ExpectedProper.mono {expected : Option Ty} (h : ExpectedProper vs expected) (hvs : vs <+: ws) :
    ExpectedProper ws expected := fun t ht => (h t ht).mono hvs

theorem ExpectedProper.some {t : Ty} (h : t.Proper vs) : ExpectedProper vs (some t) := by
  rintro _ ⟨⟩
  exact h

theorem ExpectedProper.none : ExpectedProper vs none := by
  rintro _ ⟨⟩

theorem forms_expectedForm {expected : Option Ty} (h : ExpectedProper vs expected) :
    Forms vs (fun ws r => ExpectedProper ws r) (expectedForm expected) := by
  cases expected with
  | some t => exact (forms_resolve (h t rfl)).map fun _ _ _ hu => .some hu
  | none => exact .pure .none

theorem forms_completion {expected : Ty} (rest : List Decl) (h : expected.Proper vs) :
    Forms vs (fun ws r => r.Proper ws) (completion expected rest) := by
  unfold completion
  split
  · exact .pure h
  · exact forms_freshVar ""

theorem forms_conclude {expected : Option Ty} {found : Ty} {e : Expr} (h : ExpectedProper vs expected)
    (hfound : found.Proper vs) : Forms vs (fun ws r => r.1.Proper ws) (conclude expected found e) := by
  unfold conclude
  split
  · exact (forms_unify (h _ rfl) hfound _).bind fun _ hws _ _ => .pure (hfound.mono hws)
  · exact .pure hfound

/-! ## Functions and patterns -/

theorem forms_hoist (ds : List Decl) : Forms vs Formed (hoist ds) := by
  induction ds generalizing vs with
  | nil => exact .pure trivial
  | cons d ds ih =>
    cases d with
    | fn head body =>
      rw [hoist]
      exact (forms_freshVar _).bind fun _ _ _ ht => (forms_bindValue _ ht).bind fun _ _ _ _ => ih
    | letDecl d => rw [hoist_letDecl]; exact ih
    | stmt s => rw [hoist_stmt]; exact ih

theorem forms_bindTypeParams (names : List String) : Forms vs Formed (bindTypeParams names) := by
  induction names generalizing vs with
  | nil => exact .pure trivial
  | cons name names ih =>
    rw [bindTypeParams]
    exact (forms_newVar name false true).bind fun _ _ _ ht => (forms_bindType name ht).bind fun _ _ _ _ => ih

/-- The types of parameters; no more of them are inferred than there are. -/
theorem forms_paramTypes {done : List Ty} {implicit : Nat} {ps : List Param} (hdone : AllProper vs done)
    (hcount : implicit ≤ done.length) (hps : ∀ p ∈ ps, ∀ t ∈ p.annotation, t.Ordered) :
    Forms vs (fun ws r => AllProper ws r.1 ∧ r.2 ≤ r.1.length) (paramTypes done implicit ps) := by
  induction ps generalizing done implicit vs with
  | nil => exact .pure ⟨hdone.reverse, hcount.trans_eq List.length_reverse.symm⟩
  | cons param ps ih =>
    obtain ⟨hparam, hps⟩ := List.forall_mem_cons.mp hps
    have hbind : ∀ {vs}, AllProper vs done →
        Forms vs (fun ws r => AllProper ws r.1 ∧ r.2 ≤ r.1.length) (do
          let v ← newVar param.name true true
          bindType param.name v
          paramTypes (.binding param.name v :: done) (implicit + 1) ps) := fun hdone => by
      refine (forms_newVar param.name true true).bind fun ws hws v hv => ?_
      refine (forms_bindType param.name hv).bind fun us hus _ _ => ?_
      exact ih (.cons (hv.mono hus).binding (hdone.mono (hws.trans hus))) (Nat.succ_le_succ hcount) hps
    rw [paramTypes]
    split
    · split
      · exact (Forms.fail _ _ : Forms vs Formed _).bind fun _ hws _ _ => hbind (hdone.mono hws)
      · exact hbind hdone
    · refine (forms_optionalType param.name hparam).bind fun ws hws t ht => ?_
      exact ih (.cons ht (hdone.mono hws)) (Nat.le_succ_of_le hcount) hps

theorem forms_bindParams {ps : List Param} {types : List Ty} (htypes : AllProper vs types) :
    Forms vs Formed (bindParams ps types) := by
  induction ps generalizing types vs with
  | nil => exact .pure trivial
  | cons param ps ih =>
    cases types with
    | nil => exact .pure trivial
    | cons t types =>
      obtain ⟨ht, hrest⟩ := List.forall_mem_cons.mp htypes
      rw [bindParams]
      refine (forms_bindValue _ ?_).bind fun _ hws _ _ => ih (AllProper.mono hrest hws)
      split
      · exact .name _
      · exact ht

section pattern

variable [Policy]

mutual

theorem forms_pattern : (pat : Pattern) → ∀ {vs : List TyVar} {t : Ty}, t.Proper vs →
    Forms vs Formed (pattern t pat)
  | .ident name _, vs, t, ht => by
    rw [pattern]
    exact forms_bindValue name ht
  | .any _, vs, t, ht => by
    rw [pattern]
    exact .pure trivial
  | .literal v span, vs, t, ht => by
    rw [pattern]
    refine forms_unify ht ?_ span
    cases v <;> exact .name _
  | .object entries span, vs, t, ht => by
    rw [pattern]
    refine (forms_resolve ht).bind fun ws hws u hu => ?_
    split
    · exact forms_entryPatterns entries (ht.mono hws) fun f hf => hu.part (.record hf)
    · exact (forms_unknown span).bind fun _ _ _ _ => forms_freshPatterns entries
    · exact (forms_unknown span).bind fun _ _ _ _ => forms_freshPatterns entries
    · exact (forms_resolveDeep hu).bind fun _ _ _ _ => .fail _ _

theorem forms_entryPatterns : (entries : List (String × Pattern)) → ∀ {vs : List TyVar} {t : Ty}
    {fs : List (String × Ty)} {span : Span}, t.Proper vs → (∀ f ∈ fs, f.2.Proper vs) →
    Forms vs Formed (entryPatterns t fs span entries)
  | [], vs, t, fs, span, _, _ => by
    rw [entryPatterns]
    exact .pure trivial
  | (name, pat) :: entries, vs, t, fs, span, ht, hfs => by
    rw [entryPatterns]
    split
    · exact (forms_resolveDeep ht).bind fun _ _ _ _ => .fail _ _
    · next u hu =>
      refine (forms_pattern pat (hfs _ (Fields.mem_of_get?_eq_some hu))).bind fun ws hws _ _ => ?_
      exact forms_entryPatterns entries (ht.mono hws) fun f hf => (hfs f hf).mono hws

theorem forms_freshPatterns : (entries : List (String × Pattern)) → ∀ {vs : List TyVar},
    Forms vs Formed (freshPatterns entries)
  | [], vs => by
    rw [freshPatterns]
    exact .pure trivial
  | (name, pat) :: entries, vs => by
    rw [freshPatterns]
    refine (forms_freshVar name).bind fun _ _ t ht => (forms_pattern pat ht).bind fun _ _ _ _ => ?_
    exact forms_freshPatterns entries

end

end pattern

/-! ## Expressions -/

section typing

variable [Policy]

theorem forms_fieldType {object : Ty} (field : String) (span : Span) (h : object.Proper vs) :
    Forms vs (fun ws r => r.Proper ws) (fieldType object field span) := by
  unfold fieldType
  refine (forms_resolve h).bind fun ws hws r hr => ?_
  split
  · split
    · next t ht => exact .pure (hr.part (.record (Fields.mem_of_get?_eq_some ht)))
    · exact (forms_resolveDeep (h.mono hws)).bind fun _ _ _ _ => .fail _ _
  · exact forms_hole field span
  · exact forms_hole field span
  · exact (forms_resolveDeep hr).bind fun _ _ _ _ => .fail _ _

mutual

/-- **Checking an expression** gives it a proper type. -/
theorem forms_typing : (e : Expr) → e.Ordered → ∀ {vs : List TyVar} {expected : Option Ty},
    ExpectedProper vs expected → Forms vs (fun ws r => r.1.Proper ws) (typing expected e)
  | .ident n x, _, vs, expected, h => by
    rw [typing]
    refine (forms_expectedForm h).bind fun ws hws _ _ => (forms_lookup x n.span).bind fun us hus t ht => ?_
    exact forms_conclude (h.mono (hws.trans hus)) ht
  | .literal n v, _, vs, expected, h => by
    rw [typing]
    refine (forms_expectedForm h).bind fun ws hws _ _ => forms_conclude (h.mono hws) ?_
    cases v <;> exact .name _
  | .paren n inner, ho, vs, expected, h => by
    rw [typing]
    refine (forms_expectedForm h).bind fun ws hws _ _ => ?_
    refine (forms_typing inner ho.2 (h.mono hws)).bind fun us hus r hr => .pure ?_
    cases expected with
    | none => exact hr
    | some t => exact (h t rfl).mono (hws.trans hus)
  | .binary n op l r, ho, vs, expected, h => by
    have hboth : ∀ {vs}, ExpectedProper vs expected → Forms vs (fun ws r => r.1.Proper ws) (do
          let (_, l) ← typing (some .bool) l
          let (_, r) ← typing (some .bool) r
          conclude expected .bool (.binary n op l r)) := fun h =>
      (forms_typing l ho.2.1 (.some (.name _))).bind fun _ hws _ _ =>
        (forms_typing r ho.2.2 (.some (.name _))).bind fun _ hus _ _ =>
          forms_conclude (h.mono (hws.trans hus)) (.name _)
    rw [typing]
    refine (forms_expectedForm h).bind fun ws hws _ _ => ?_
    replace h := h.mono hws
    dsimp only
    split
    · exact hboth h
    · exact hboth h
    · refine (forms_typing l ho.2.1 .none).bind fun us hus l' hl => ?_
      refine (forms_typing r ho.2.2 (.some hl)).bind fun qs hqs r' hr => ?_
      exact forms_conclude (h.mono (hus.trans hqs)) (.name _)
    · refine (forms_lookup _ n.span).bind fun us hus t ht => (forms_resolve ht).bind fun qs hqs u hu => ?_
      split
      · next a b result _ =>
        refine (forms_typing l ho.2.1 (.some (hu.part (.param (by simp))))).bind fun ps hps l' hl => ?_
        refine (forms_typing r ho.2.2 (.some ((hu.part (.param (by simp))).mono hps))).bind fun rs hrs r' hr => ?_
        have hup := hps.trans hrs
        exact forms_conclude (h.mono ((hus.trans hqs).trans hup)) ((hu.part .result).mono hup)
      · exact .fail _ _
  | .object n fs, ho, vs, expected, h => by
    have hsorted : Fields.Sorted fs := ho.1 n fs rfl
    have hinfer : ∀ {vs}, ExpectedProper vs expected → Forms vs (fun ws r => r.1.Proper ws) (do
          let (ts, fs) ← typingFields [] [] [] fs
          conclude expected (.record ts) (.object n fs)) := fun h =>
      (forms_typingFields fs ho.2 .nil (List.forall_mem_nil _)).bind fun ws hws r hr =>
        forms_conclude (h.mono hws) (.record (hsorted.of_names hr.1) hr.2)
    rw [typing]
    refine (forms_expectedForm h).bind fun ws hws form hform => ?_
    replace h := h.mono hws
    dsimp only
    split
    · next t ts =>
      split
      · have hts : AllProper ws (ts.map Prod.snd) := fun u hu => by
          obtain ⟨f, hf, rfl⟩ := List.mem_map.mp hu
          exact (hform _ rfl).part (.record hf)
        refine (forms_typingFields fs ho.2 hts (List.forall_mem_nil _)).bind fun us hus _ _ => ?_
        exact .pure ((h t rfl).mono hus)
      · exact hinfer h
    · exact hinfer h
  | .array n es, ho, vs, expected, h => by
    rw [typing]
    refine (forms_expectedForm h).bind fun ws hws form hform => ?_
    replace h := h.mono hws
    dsimp only
    split
    · next t item =>
      have hitems : AllProper ws (List.replicate es.length item) := fun u hu =>
        List.eq_of_mem_replicate hu ▸ (hform _ rfl).part .array
      refine (forms_typingList es ho.2 hitems .nil).bind fun us hus _ _ => ?_
      exact .pure ((h t rfl).mono hus)
    · cases es with
      | nil =>
        refine (forms_freshVar "").bind fun us hus t ht => ?_
        exact forms_conclude (h.mono hus) ht.array
      | cons first rest =>
        refine (forms_typing first ho.2.1 .none).bind fun us hus r hr => ?_
        have hitems : AllProper us (List.replicate rest.length r.1) := fun u hu =>
          List.eq_of_mem_replicate hu ▸ hr
        refine (forms_typingList rest ho.2.2 hitems .nil).bind fun qs hqs _ _ => ?_
        exact forms_conclude (h.mono (hus.trans hqs)) (hr.mono hqs).array
  | .tuple n es, ho, vs, expected, h => by
    have hinfer : ∀ {vs}, ExpectedProper vs expected → Forms vs (fun ws r => r.1.Proper ws) (do
          let (ts, es) ← typingList [] [] [] es
          conclude expected (.tuple ts) (.tuple n es)) := fun h =>
      (forms_typingList es ho.2 .nil .nil).bind fun ws hws r hr => forms_conclude (h.mono hws) (.tuple hr)
    rw [typing]
    refine (forms_expectedForm h).bind fun ws hws form hform => ?_
    replace h := h.mono hws
    dsimp only
    split
    · next t ts =>
      split
      · have hts : AllProper ws ts := fun u hu => (hform _ rfl).part (.tuple hu)
        refine (forms_typingList es ho.2 hts .nil).bind fun us hus _ _ => ?_
        exact .pure ((h t rfl).mono hus)
      · exact hinfer h
    · exact hinfer h
  | .call n callee args implicit, ho, vs, expected, h => by
    rw [typing]
    refine (forms_expectedForm h).bind fun ws hws _ _ => ?_
    refine (forms_typing callee ho.2.1 .none).bind fun us hus f hf => ?_
    refine (forms_resolve hf).bind fun qs hqs t ht => ?_
    replace h := h.mono (hws.trans (hus.trans hqs))
    split
    · next params result count =>
      have hargs : ∀ {vs}, ExpectedProper vs expected → Ty.Proper vs (.fn params result count) →
          Forms vs (fun ws r => r.1.Proper ws) (do
            let (params, result, slots) ← instantiateImplicit params result count n.span
            let (_, args) ← typingList (params.drop count) [] [] args
            conclude expected result (.call n f.2 args (some slots))) := fun h hfn => by
        refine (forms_instantiateImplicit count n.span (fun t ht => hfn.part (.param ht))
          (hfn.part .result)).bind fun ws hws r hr => ?_
        refine (forms_typingList args ho.2.2 (fun u hu => hr.1 u (List.mem_of_mem_drop hu)) .nil).bind
          fun us hus _ _ => ?_
        exact forms_conclude (h.mono (hws.trans hus)) (hr.2.1.mono hus)
      dsimp only
      split
      · exact (Forms.fail _ _ : Forms qs Formed _).bind fun _ hps _ _ => hargs (h.mono hps) (ht.mono hps)
      · exact hargs h ht
    · refine (forms_typingList args ho.2.2 .nil .nil).bind fun ps hps _ _ => ?_
      refine (forms_hole "" n.span).bind fun rs hrs u hu => ?_
      exact forms_conclude (h.mono (hps.trans hrs)) hu
    · exact (forms_resolveDeep ht).bind fun _ _ _ _ => .fail _ _
  | .subscript n target index, ho, vs, expected, h => by
    rw [typing]
    refine (forms_expectedForm h).bind fun ws hws _ _ => ?_
    refine (forms_typing target ho.2.1 .none).bind fun us hus r hr => ?_
    refine (forms_resolve hr).bind fun qs hqs t ht => ?_
    replace h := h.mono (hws.trans (hus.trans hqs))
    split
    · next item =>
      refine (forms_typing index ho.2.2 (.some (.name _))).bind fun ps hps _ _ => ?_
      exact forms_conclude (h.mono hps) ((ht.part .array).mono hps)
    · next items =>
      refine (forms_resolveDeep (hr.mono hqs)).bind fun ps hps whole _ => ?_
      split
      · exact .fail _ _
      · split
        · exact .fail _ _
        · next item hitem =>
          refine (forms_typing index ho.2.2 .none).bind fun rs hrs _ _ => ?_
          have hup := hps.trans hrs
          exact forms_conclude (h.mono hup) ((ht.part (.tuple (List.mem_of_getElem? hitem))).mono hup)
    · refine (forms_typing index ho.2.2 .none).bind fun ps hps _ _ => ?_
      refine (forms_hole "" n.span).bind fun rs hrs u hu => ?_
      exact forms_conclude (h.mono (hps.trans hrs)) hu
    · refine (forms_freshVar "").bind fun ps hps _ _ => ?_
      exact (forms_resolveDeep (ht.mono hps)).bind fun _ _ _ _ => .fail _ _
  | .member n object field, ho, vs, expected, h => by
    rw [typing]
    refine (forms_expectedForm h).bind fun ws hws _ _ => ?_
    refine (forms_typing object ho.2 .none).bind fun us hus r hr => ?_
    refine (forms_fieldType field n.span hr).bind fun qs hqs u hu => ?_
    exact forms_conclude (h.mono (hws.trans (hus.trans hqs))) hu
  | .type n t, _, vs, expected, h => by
    rw [typing]
    refine (forms_expectedForm h).bind fun ws hws _ _ => ?_
    refine (forms_typeValue t n.span).bind fun us hus _ _ => ?_
    exact forms_conclude (h.mono (hws.trans hus)) (.name _)

theorem forms_typingList : (es : List Expr) → Expr.EverywhereList Expr.InOrder es → ∀ {vs : List TyVar}
    {expected found : List Ty} {done : List Expr}, AllProper vs expected → AllProper vs found →
    Forms vs (fun ws r => AllProper ws r.1) (typingList expected found done es)
  | [], _, vs, expected, found, done, _, hfound => by
    rw [typingList]
    exact .pure hfound.reverse
  | e :: es, ho, vs, expected, found, done, h, hfound => by
    rw [typingList]
    refine (forms_typing e ho.1 fun t ht => h t (List.mem_of_mem_head? ht)).bind fun ws hws r hr => ?_
    exact forms_typingList es ho.2 (fun t ht => (h t (List.mem_of_mem_tail ht)).mono hws)
      (.cons hr (hfound.mono hws))

theorem forms_typingFields : (fs : List (String × Expr)) → Expr.EverywhereFields Expr.InOrder fs →
    ∀ {vs : List TyVar} {expected : List Ty} {found : List (String × Ty)} {done : List (String × Expr)},
    AllProper vs expected → (∀ f ∈ found, f.2.Proper vs) →
    Forms vs (fun ws r => Fields.names r.1 = Fields.names found.reverse ++ Fields.names fs ∧
      ∀ f ∈ r.1, f.2.Proper ws) (typingFields expected found done fs)
  | [], _, vs, expected, found, done, _, hfound => by
    rw [typingFields]
    exact .pure ⟨(List.append_nil _).symm, fun f hf => hfound f (List.mem_reverse.mp hf)⟩
  | (name, e) :: fs, ho, vs, expected, found, done, h, hfound => by
    rw [typingFields]
    refine (forms_typing e ho.1 fun t ht => h t (List.mem_of_mem_head? ht)).bind fun ws hws r hr => ?_
    refine (forms_typingFields fs ho.2 (fun t ht => (h t (List.mem_of_mem_tail ht)).mono hws)
      (List.forall_mem_cons.mpr ⟨hr, fun f hf => (hfound f hf).mono hws⟩)).mono fun us hus r hr => ⟨?_, hr.2⟩
    rw [hr.1, List.reverse_cons, Fields.names, Fields.names, Fields.names, List.map_append, List.append_assoc]
    rfl

end

theorem forms_infer {e : Expr} (he : e.Ordered) : Forms vs (fun ws r => r.1.Proper ws) (infer e) :=
  forms_typing e he .none

theorem forms_check {e : Expr} (he : e.Ordered) {t : Ty} (h : t.Proper vs) : Forms vs Formed (check e t) :=
  (forms_typing e he (.some h)).map fun _ _ _ _ => trivial

theorem forms_condition {e : Expr} (he : e.Ordered) : Forms vs Formed (condition e) :=
  forms_check he (.name _)

end typing

end Check

end Reified
