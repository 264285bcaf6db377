import Reified.Proofs.Table.Changes

/-!
# An instance is a renamed type

Instantiating a type walks through it from left to right, through bindings as it meets them, and makes a copy
of each generalized variable at its first occurrence. The answer depends neither on the shortcuts taken on
the way nor on how often a variable is met behind different bindings: it is what the type stands for, with
each generalized variable renamed to its copy.

The walk is followed by the list of the variables that it has met so far. The copies made are a function of
that list, and so is what a variable is renamed to, once it has been met.

## Main definitions

* `Table.marked` — the generalized variables of a list, each once
* `Table.copies`, `Table.renamed` — their copies, and a variable replaced by its copy
* `Table.IsInstance` — what an instance of a type is

## Main results

* `Ty.replaceVarsM_traces` — a traversal whose answers depend on what has been met
* `Table.instantiateWithin_copies` — the walk
* `Table.isInstance_instantiate` — instantiation
-/

namespace Reified

namespace Ty

/-! ## Traversals that remember what they have met -/

theorem vars_subst (σ : TyVar → Ty) (t : Ty) :
    (t.subst σ).vars = t.vars.flatMap fun v => (σ v).vars := by
  induction t with
  | var v => simp [subst, vars]
  | name n => rfl
  | array t ih => exact ih
  | tuple ts ih =>
    simp only [subst, vars, substList_eq, varsList_eq, List.flatMap_map, List.flatMap_assoc]
    exact List.flatMap_congr ih
  | record fs ih =>
    simp only [subst, vars, substFields_eq, varsFields_eq, List.flatMap_map, List.flatMap_assoc]
    exact List.flatMap_congr ih
  | fn ps r k ihp ihr =>
    simp only [subst, vars, substList_eq, varsList_eq, List.flatMap_map, List.flatMap_append,
      List.flatMap_assoc, ihr]
    rw [List.flatMap_congr ihp]
  | union a b iha ihb => simp only [subst, vars, List.flatMap_append, iha, ihb]
  | binding n t ih => exact ih

section replace

variable {S : Type} {rule : TyVar → StateM S Ty} {keep : List TyVar → S → Prop}
  {met : TyVar → List TyVar} {image : List TyVar → TyVar → Ty} {ws : List TyVar} {s : S}

/-- A step of a traversal meets the given variables, and its answer is the image of what it was asked for. -/
def Traces (keep : List TyVar → S → Prop) (met : TyVar → List TyVar) (image : List TyVar → TyVar → Ty)
    (rule : TyVar → StateM S Ty) (v : TyVar) : Prop :=
  ∀ ws s, keep ws s → (rule v s).1 = image (ws ++ met v) v ∧ keep (ws ++ met v) (rule v s).2

variable (hlasts : ∀ v ws vs, met v ⊆ ws → image (ws ++ vs) v = image ws v)

include hlasts

/-- The image of a type does not change once its variables have been met. -/
theorem subst_image_append (ws : List TyVar) (t : Ty) (vs : List TyVar) :
    t.subst (image (ws ++ t.vars.flatMap met ++ vs)) = t.subst (image (ws ++ t.vars.flatMap met)) :=
  subst_congr fun v hv => hlasts v _ vs fun _ hw =>
    List.mem_append_right ws (List.mem_flatMap.mpr ⟨v, hv, hw⟩)

mutual

/-- **A traversal that remembers what it has met** answers with the image of the type, all of its variables
having been met. -/
theorem replaceVarsM_traces : (t : Ty) → (∀ v ∈ t.vars, Traces keep met image rule v) →
    ∀ ws s, keep ws s →
      (t.replaceVarsM rule s).1 = t.subst (image (ws ++ t.vars.flatMap met)) ∧
        keep (ws ++ t.vars.flatMap met) (t.replaceVarsM rule s).2
  | .var v, h, ws, s, hs => by
    have hv := h v (List.mem_singleton_self v) ws s hs
    rw [vars, List.flatMap_singleton]
    exact hv
  | .name n, _, ws, s, hs => by
    simpa [vars, subst] using ⟨rfl, hs⟩
  | .array t, h, ws, s, hs => by
    obtain ⟨h1, h2⟩ := replaceVarsM_traces t h ws s hs
    exact ⟨congrArg Ty.array h1, h2⟩
  | .tuple ts, h, ws, s, hs => by
    obtain ⟨h1, h2⟩ := replaceListM_traces ts h ws s hs
    exact ⟨congrArg Ty.tuple h1, h2⟩
  | .record fs, h, ws, s, hs => by
    obtain ⟨h1, h2⟩ := replaceFieldsM_traces fs h ws s hs
    exact ⟨congrArg Ty.record h1, h2⟩
  | .fn ps r k, h, ws, s, hs => by
    obtain ⟨h1, h2⟩ := replaceListM_traces ps (fun v hv => h v (List.mem_append_left _ hv)) ws s hs
    obtain ⟨h3, h4⟩ := replaceVarsM_traces r (fun v hv => h v (List.mem_append_right _ hv)) _ _ h2
    have h5 := subst_image_append hlasts ws (.tuple ps) (r.vars.flatMap met)
    simp only [vars, List.flatMap_append, ← List.append_assoc] at h3 h4 h5 ⊢
    refine ⟨congrArg₂ (Ty.fn · · k) (h1.trans ?_) h3, h4⟩
    simpa [subst] using h5.symm
  | .union a b, h, ws, s, hs => by
    obtain ⟨h1, h2⟩ := replaceVarsM_traces a (fun v hv => h v (List.mem_append_left _ hv)) ws s hs
    obtain ⟨h3, h4⟩ := replaceVarsM_traces b (fun v hv => h v (List.mem_append_right _ hv)) _ _ h2
    have h5 := subst_image_append hlasts ws a (b.vars.flatMap met)
    simp only [vars, List.flatMap_append, ← List.append_assoc] at h3 h4 h5 ⊢
    exact ⟨congrArg₂ Ty.union (h1.trans h5.symm) h3, h4⟩
  | .binding n t, h, ws, s, hs => by
    obtain ⟨h1, h2⟩ := replaceVarsM_traces t h ws s hs
    exact ⟨congrArg (Ty.binding n) h1, h2⟩

theorem replaceListM_traces : (ts : List Ty) → (∀ v ∈ varsList ts, Traces keep met image rule v) →
    ∀ ws s, keep ws s →
      (replaceListM rule ts s).1 = substList (image (ws ++ (varsList ts).flatMap met)) ts ∧
        keep (ws ++ (varsList ts).flatMap met) (replaceListM rule ts s).2
  | [], _, ws, s, hs => by
    simpa [varsList, substList] using ⟨rfl, hs⟩
  | t :: ts, h, ws, s, hs => by
    obtain ⟨h1, h2⟩ := replaceVarsM_traces t (fun v hv => h v (List.mem_append_left _ hv)) ws s hs
    obtain ⟨h3, h4⟩ := replaceListM_traces ts (fun v hv => h v (List.mem_append_right _ hv)) _ _ h2
    have h5 := subst_image_append hlasts ws t ((varsList ts).flatMap met)
    simp only [varsList, List.flatMap_append, ← List.append_assoc] at h3 h4 h5 ⊢
    exact ⟨congrArg₂ List.cons (h1.trans h5.symm) h3, h4⟩

theorem replaceFieldsM_traces : (fs : List (String × Ty)) →
    (∀ v ∈ varsFields fs, Traces keep met image rule v) → ∀ ws s, keep ws s →
      (replaceFieldsM rule fs s).1 = substFields (image (ws ++ (varsFields fs).flatMap met)) fs ∧
        keep (ws ++ (varsFields fs).flatMap met) (replaceFieldsM rule fs s).2
  | [], _, ws, s, hs => by
    simpa [varsFields, substFields] using ⟨rfl, hs⟩
  | (n, t) :: fs, h, ws, s, hs => by
    obtain ⟨h1, h2⟩ := replaceVarsM_traces t (fun v hv => h v (List.mem_append_left _ hv)) ws s hs
    obtain ⟨h3, h4⟩ := replaceFieldsM_traces fs (fun v hv => h v (List.mem_append_right _ hv)) _ _ h2
    have h5 := subst_image_append hlasts ws t ((varsFields fs).flatMap met)
    simp only [varsFields, List.flatMap_append, ← List.append_assoc] at h3 h4 h5 ⊢
    exact ⟨congrArg₂ (fun t fs => (n, t) :: fs) (h1.trans h5.symm) h3, h4⟩

end

end replace

/-! ## First occurrences -/

theorem firstOccurrences_congr {seen seen' : List Nat} (h : ∀ id, id ∈ seen ↔ id ∈ seen')
    (vs : List TyVar) : firstOccurrences seen vs = firstOccurrences seen' vs := by
  induction vs generalizing seen seen' with
  | nil => rfl
  | cons v vs ih =>
    have hv : seen.contains v.id = seen'.contains v.id := by
      rw [Bool.eq_iff_iff, List.contains_iff_mem, List.contains_iff_mem, h]
    rw [firstOccurrences, firstOccurrences, hv, ih h,
      @ih (v.id :: seen) (v.id :: seen') fun id => by simp [h]]

theorem firstOccurrences_append (seen : List Nat) (vs ws : List TyVar) :
    firstOccurrences seen (vs ++ ws) =
      firstOccurrences seen vs ++ firstOccurrences (vs.map (·.id) ++ seen) ws := by
  induction vs generalizing seen with
  | nil => rfl
  | cons v vs ih =>
    rw [List.cons_append, firstOccurrences, firstOccurrences]
    split
    · next h =>
      rw [ih]
      refine congrArg _ (firstOccurrences_congr (fun id => ?_) ws)
      have := List.contains_iff_mem.mp h
      simp only [List.map_cons, List.mem_append, List.mem_cons]
      constructor
      · exact fun h => (h.imp_left .inr)
      · rintro ((rfl | h) | h)
        · exact .inr this
        · exact .inl h
        · exact .inr h
    · rw [ih, List.cons_append]
      refine congrArg _ (congrArg _ (firstOccurrences_congr (fun id => ?_) ws))
      simp only [List.map_cons, List.mem_append, List.mem_cons]
      tauto

theorem mem_firstOccurrences {seen : List Nat} {vs : List TyVar} {w : TyVar}
    (h : w ∈ firstOccurrences seen vs) : w ∈ vs ∧ w.id ∉ seen := by
  induction vs generalizing seen with
  | nil => exact absurd h List.not_mem_nil
  | cons v vs ih =>
    rw [firstOccurrences] at h
    split at h
    · exact ⟨List.mem_cons_of_mem v (ih h).1, (ih h).2⟩
    · next hv =>
      rcases List.mem_cons.mp h with rfl | h
      · exact ⟨List.mem_cons_self, fun hmem => hv (List.contains_iff_mem.mpr hmem)⟩
      · exact ⟨List.mem_cons_of_mem v (ih h).1, fun hmem => (ih h).2 (List.mem_cons_of_mem _ hmem)⟩

/-- Each variable occurs for a first time. -/
theorem exists_firstOccurrence {seen : List Nat} {vs : List TyVar} {v : TyVar} (hv : v ∈ vs)
    (hseen : v.id ∉ seen) : ∃ w ∈ firstOccurrences seen vs, w.id = v.id := by
  induction vs generalizing seen with
  | nil => exact absurd hv List.not_mem_nil
  | cons u us ih =>
    rw [firstOccurrences]
    split
    · next hu =>
      refine ih ((List.mem_cons.mp hv).resolve_left ?_) hseen
      rintro rfl
      exact hseen (List.contains_iff_mem.mp hu)
    · by_cases hid : u.id = v.id
      · exact ⟨u, List.mem_cons_self, hid⟩
      · obtain ⟨w, hw, hid'⟩ := @ih (u.id :: seen)
          ((List.mem_cons.mp hv).resolve_left fun heq => hid (heq ▸ rfl))
          fun h => (List.mem_cons.mp h).elim (fun h => hid h.symm) hseen
        exact ⟨w, List.mem_cons_of_mem u hw, hid'⟩

theorem exists_mem_firstOccurrences {vs : List TyVar} {v : TyVar} (hv : v ∈ vs) :
    ∃ w ∈ firstOccurrences [] vs, w.id = v.id :=
  exists_firstOccurrence hv List.not_mem_nil

theorem nodup_firstOccurrences (seen : List Nat) (vs : List TyVar) :
    ((firstOccurrences seen vs).map (·.id)).Nodup := by
  induction vs generalizing seen with
  | nil => exact List.nodup_nil
  | cons v vs ih =>
    rw [firstOccurrences]
    split
    · exact ih seen
    · refine List.nodup_cons.mpr ⟨fun h => ?_, ih _⟩
      obtain ⟨w, hw, hid⟩ := List.mem_map.mp h
      exact (mem_firstOccurrences hw).2 (hid ▸ List.mem_cons_self)

end Ty

namespace Table

variable {T : Table} {level : Nat} {ws vs : List TyVar} {v w : TyVar}

/-! ## Copies -/

/-- The generalized variables of a list, each at its first occurrence. -/
def marked (T : Table) (ws : List TyVar) : List TyVar :=
  (Ty.firstOccurrences [] ws).filter fun w => T.isGeneralized w.id

/-- The copies that an instantiation makes of the variables that it meets, each beside the number of the
variable that it replaces. -/
def copies (T : Table) (ws : List TyVar) : List (Nat × TyVar) :=
  (T.marked ws).mapIdx fun i w => (w.id, ⟨T.size + i, w.name, w.inferred, false⟩)

/-- A variable, or the copy that replaces it. -/
def renamed (T : Table) (ws : List TyVar) (v : TyVar) : TyVar :=
  ((T.copies ws).lookup v.id).getD v

theorem marked_append (ws vs : List TyVar) : ∃ new, T.marked (ws ++ vs) = T.marked ws ++ new :=
  ⟨_, by rw [marked, Ty.firstOccurrences_append, List.filter_append]; rfl⟩

theorem copies_append (ws vs : List TyVar) : ∃ new, T.copies (ws ++ vs) = T.copies ws ++ new := by
  obtain ⟨new, hnew⟩ := T.marked_append ws vs
  exact ⟨_, by rw [copies, hnew, List.mapIdx_append]; rfl⟩

theorem copies_congr (h : T.marked vs = T.marked ws) : T.copies vs = T.copies ws := by
  rw [copies, h, copies]

theorem mem_marked (h : w ∈ T.marked ws) : w ∈ ws ∧ T.isGeneralized w.id = true :=
  have h := List.mem_filter.mp h
  ⟨(Ty.mem_firstOccurrences h.1).1, h.2⟩

theorem exists_marked (hv : v ∈ ws) (hg : T.isGeneralized v.id = true) :
    ∃ w ∈ T.marked ws, w.id = v.id := by
  obtain ⟨w, hw, hid⟩ := Ty.exists_mem_firstOccurrences hv
  exact ⟨w, List.mem_filter.mpr ⟨hw, hid ▸ hg⟩, hid⟩

/-- One more variable is marked if it is generalized and has not been met. -/
theorem marked_concat (hg : T.isGeneralized w.id = true) (hw : ∀ v ∈ ws, v.id ≠ w.id) :
    T.marked (ws ++ [w]) = T.marked ws ++ [w] := by
  have hnot : (ws.map (·.id)).contains w.id = false := by
    rw [← Bool.not_eq_true, List.contains_iff_mem, List.mem_map]
    exact fun ⟨v, hv, hid⟩ => hw v hv hid
  rw [marked, Ty.firstOccurrences_append, List.filter_append, List.append_nil, Ty.firstOccurrences, hnot]
  simp [marked, Ty.firstOccurrences, hg]

theorem marked_concat_of_not (hg : T.isGeneralized w.id = false) : T.marked (ws ++ [w]) = T.marked ws := by
  rw [marked, Ty.firstOccurrences_append, List.filter_append, Ty.firstOccurrences]
  split <;> simp [marked, Ty.firstOccurrences, hg]

theorem marked_concat_of_met (hv : v ∈ ws) (hid : v.id = w.id) : T.marked (ws ++ [w]) = T.marked ws := by
  have hmet : (ws.map (·.id)).contains w.id = true :=
    List.contains_iff_mem.mpr (List.mem_map.mpr ⟨v, hv, hid⟩)
  rw [marked, Ty.firstOccurrences_append, List.filter_append, List.append_nil, Ty.firstOccurrences, hmet]
  simp [marked, Ty.firstOccurrences]

theorem keys_copies (ws : List TyVar) : (T.copies ws).map Prod.fst = (T.marked ws).map (·.id) := by
  refine List.ext_getElem? fun i => ?_
  simp [copies, List.getElem?_mapIdx, Function.comp_def]

theorem nodup_keys_copies (ws : List TyVar) : ((T.copies ws).map Prod.fst).Nodup := by
  rw [keys_copies]
  exact (Ty.nodup_firstOccurrences [] ws).sublist (List.Sublist.map _ List.filter_sublist)

theorem lookup_eq_some_of_mem {copies : List (Nat × TyVar)} (hnodup : (copies.map Prod.fst).Nodup)
    {c : Nat × TyVar} (hc : c ∈ copies) : copies.lookup c.1 = some c.2 := by
  induction copies with
  | nil => exact absurd hc List.not_mem_nil
  | cons d copies ih =>
    rw [List.map_cons, List.nodup_cons] at hnodup
    rw [List.lookup_cons]
    rcases List.mem_cons.mp hc with rfl | hc
    · simp
    · have hne : (c.1 == d.1) = false :=
        beq_eq_false_iff_ne.mpr fun h => hnodup.1 (h ▸ List.mem_map_of_mem hc)
      rw [hne]
      exact ih hnodup.2 hc

/-- Copies may be looked up in any order. -/
theorem lookup_reverse_copies (ws : List TyVar) (id : Nat) :
    (T.copies ws).reverse.lookup id = (T.copies ws).lookup id := by
  have hnodup := T.nodup_keys_copies ws
  cases h : (T.copies ws).lookup id with
  | none =>
    rw [List.lookup_eq_none_iff] at h ⊢
    exact fun c hc => h c (List.mem_reverse.mp hc)
  | some v =>
    obtain ⟨before, after, heq, -⟩ := List.lookup_eq_some_iff.mp h
    refine lookup_eq_some_of_mem (c := (id, v)) ?_ (List.mem_reverse.mpr (by simp [heq]))
    rw [List.map_reverse]
    exact List.nodup_reverse.mpr hnodup

/-- There is a copy of a variable that has been met if and only if it is generalized. -/
theorem lookup_copies_eq_none (hg : T.isGeneralized v.id = true → ∀ w ∈ ws, w.id ≠ v.id) :
    (T.copies ws).lookup v.id = none := by
  rw [List.lookup_eq_none_iff]
  intro c hc
  have hkey : c.1 ∈ (T.marked ws).map (·.id) := keys_copies (T := T) ws ▸ List.mem_map_of_mem hc
  obtain ⟨w, hw, hid⟩ := List.mem_map.mp hkey
  obtain ⟨hmem, hgw⟩ := mem_marked hw
  exact bne_iff_ne.mpr fun h =>
    hg (by rw [h, ← hid]; exact hgw) w hmem (hid.trans h.symm)

theorem renamed_of_not (hg : T.isGeneralized v.id = false) (ws : List TyVar) : T.renamed ws v = v := by
  rw [renamed, lookup_copies_eq_none fun h => absurd (hg.symm.trans h) Bool.false_ne_true]
  rfl

/-- The variable at a place of the list of those that are generalized has the copy at that place. -/
theorem lookup_copies_getElem {i : Nat} (hi : i < (T.marked ws).length) :
    (T.copies ws).lookup (T.marked ws)[i].id =
      some ⟨T.size + i, (T.marked ws)[i].name, (T.marked ws)[i].inferred, false⟩ := by
  refine lookup_eq_some_of_mem (T.nodup_keys_copies ws) (c := ((T.marked ws)[i].id, _)) ?_
  exact List.mem_mapIdx.mpr ⟨i, hi, rfl⟩

theorem renamed_getElem {i : Nat} (hi : i < (T.marked ws).length) :
    T.renamed ws (T.marked ws)[i] = ⟨T.size + i, (T.marked ws)[i].name, (T.marked ws)[i].inferred, false⟩ := by
  rw [renamed, lookup_copies_getElem hi]
  rfl

theorem lookup_copies_of_met (hv : v ∈ ws) (hg : T.isGeneralized v.id = true) :
    ∃ u, (T.copies ws).lookup v.id = some u := by
  obtain ⟨w, hw, hid⟩ := exists_marked hv hg
  obtain ⟨i, hi, rfl⟩ := List.getElem_of_mem hw
  exact ⟨_, hid ▸ lookup_copies_getElem hi⟩

/-- What replaces a variable does not change once it has been met. -/
theorem renamed_append (hv : v ∈ ws) (vs : List TyVar) : T.renamed (ws ++ vs) v = T.renamed ws v := by
  cases hg : T.isGeneralized v.id with
  | false => rw [renamed_of_not hg, renamed_of_not hg]
  | true =>
    obtain ⟨new, hnew⟩ := T.copies_append ws vs
    obtain ⟨u, hu⟩ := lookup_copies_of_met hv hg
    rw [renamed, renamed, hnew, List.lookup_append, hu]
    rfl

/-- A variable that has a copy already. -/
theorem marked_concat_of_lookup_eq_some {u : TyVar} (h : (T.copies ws).lookup w.id = some u) :
    T.marked (ws ++ [w]) = T.marked ws := by
  obtain ⟨before, after, heq, -⟩ := List.lookup_eq_some_iff.mp h
  have hkey : w.id ∈ (T.marked ws).map (·.id) := by
    rw [← keys_copies, heq]
    simp
  obtain ⟨v, hv, hid⟩ := List.mem_map.mp hkey
  exact marked_concat_of_met (mem_marked hv).1 hid

/-- The copy of a variable that has had none. -/
theorem copies_concat_of_lookup_eq_none (hg : T.isGeneralized w.id = true) (h : (T.copies ws).lookup w.id = none) :
    T.copies (ws ++ [w]) =
      T.copies ws ++ [(w.id, ⟨T.size + (T.copies ws).length, w.name, w.inferred, false⟩)] := by
  have hnew : ∀ v ∈ ws, v.id ≠ w.id := fun v hv hid => by
    obtain ⟨u, hu⟩ := lookup_copies_of_met hv (hid ▸ hg)
    rw [hid, h] at hu
    exact absurd hu nofun
  have hlength : (T.copies ws).length = (T.marked ws).length := List.length_mapIdx
  rw [Table.copies, marked_concat hg hnew, List.mapIdx_concat, ← Table.copies, ← hlength]

/-! ## The walk -/

/-- What an instantiation over a table has made of it after it has met some variables: copies of the
generalized ones among them, and shortcuts. -/
structure Instance.Made (T : Table) (level : Nat) (ws : List TyVar) (S : Instance) : Prop where
  made : S.copies = (T.copies ws).reverse
  size : S.table.size = T.size + (T.copies ws).length
  ranks : ∀ rank, T.Ranks rank → S.table.Ranks rank
  isBound : ∀ id, S.table.isBound id = T.isBound id
  deep : ∀ t, S.table.deep t = T.deep t
  marks : ∀ id, S.table.isGeneralized id = T.isGeneralized id
  levels : ∀ id, S.table.level id = if T.size ≤ id ∧ id < S.table.size then level else T.level id

namespace Instance.Made

variable {S : Instance}

theorem start (T : Table) (level : Nat) : Made T level [] ⟨T, []⟩ where
  made := rfl
  size := rfl
  ranks _ h := h
  isBound _ := rfl
  deep _ := rfl
  marks _ := rfl
  levels _ := (if_neg fun h => absurd h.2 (Nat.not_lt.mpr h.1)).symm

theorem acyclic (h : Made T level ws S) (hT : T.Acyclic) : S.table.Acyclic :=
  hT.exists_ranks.elim fun rank hr => (h.ranks rank hr).acyclic

theorem resolve (h : Made T level ws S) (hT : T.Acyclic) (v : TyVar) :
    Made T level ws ⟨(S.table.resolve (.var v)).2, S.copies⟩ := by
  have hacyclic := h.acyclic hT
  have hsame := (steady_resolve hacyclic (.var v)).1.same
  have hlevel := level_resolve hacyclic (.var v)
  exact
    { made := h.made
      size := hsame.size.trans h.size
      ranks := fun rank hr => hsame.ranks rank (h.ranks rank hr)
      isBound := fun id => (hsame.isBound id).trans (h.isBound id)
      deep := fun t => (hsame.deep t).trans (h.deep t)
      marks := fun id => (hlevel id).2.trans (h.marks id)
      levels := fun id => by rw [(hlevel id).1, h.levels, hsame.size] }

/-- Nothing is made of a variable that is not generalized or has been met. -/
theorem skip (h : Made T level ws S) (hmarked : T.marked (ws ++ [w]) = T.marked ws) :
    Made T level (ws ++ [w]) S := by
  have hcopies := copies_congr hmarked
  exact { h with made := hcopies ▸ h.made, size := hcopies ▸ h.size }

/-- A generalized variable is replaced by its copy. -/
theorem copy (h : Made T level ws S) (hT : T.Acyclic) (hg : T.isGeneralized w.id = true) :
    (Instance.copy level w S).1 = .var (T.renamed (ws ++ [w]) w) ∧
      Made T level (ws ++ [w]) (Instance.copy level w S).2 := by
  obtain ⟨S, made⟩ := S
  obtain rfl : made = (T.copies ws).reverse := h.made
  simp only [Instance.copy, lookup_reverse_copies]
  cases hlookup : (T.copies ws).lookup w.id with
  | some u =>
    have hmarked := marked_concat_of_lookup_eq_some hlookup
    refine ⟨?_, h.skip hmarked⟩
    rw [renamed, copies_congr hmarked, hlookup]
    rfl
  | none =>
    have hcopies := copies_concat_of_lookup_eq_none hg hlookup
    rw [← h.size] at hcopies
    refine ⟨?_, ?_⟩
    · rw [renamed, hcopies, List.lookup_append, hlookup]
      simp [Table.newVar]
    · have hb := binding?_newVar (T := S) w.name w.inferred false level
      exact
        { made := by rw [hcopies]; simp [Table.newVar]
          size := by rw [size_newVar, hcopies, h.size]; simp [Nat.add_assoc]
          ranks := fun rank hr => (h.ranks rank hr).newVar w.name w.inferred false level
          isBound := fun id => by rw [← h.isBound]; simp only [Table.isBound, hb]
          deep := fun t => (deep_congr (h.acyclic hT) hb t).trans (h.deep t)
          marks := fun id => (isGeneralized_newVar w.name w.inferred false level id).trans (h.marks id)
          levels := fun id => by
            rw [level_newVar, size_newVar, h.levels]
            have := h.size
            dsimp only at this ⊢
            grind }

end Instance.Made

/-- A type with each variable replaced by its copy. -/
def rename (T : Table) (ws : List TyVar) (t : Ty) : Ty :=
  t.subst fun v => .var (T.renamed ws v)

/-- **The walk** through a type meets the variables that remain in it, and answers with the copy of what the
type stands for. -/
theorem instantiateWithin_copies {rank : Nat → Nat} (hr : T.Ranks rank) {n : Nat} {t : Ty} {S : Instance}
    (hn : ∀ w ∈ t.vars, rank w.id < n) (hS : Instance.Made T level ws S) :
    (instantiateWithin level n t S).1 = T.rename (ws ++ (T.deep t).vars) (T.deep t) ∧
      Instance.Made T level (ws ++ (T.deep t).vars) (instantiateWithin level n t S).2 := by
  have hT := hr.acyclic
  induction n generalizing t ws S with
  | zero =>
    have hclosed : ∀ v, v ∉ t.vars := fun v hv => absurd (hn v hv) (Nat.not_lt_zero _)
    have hdeep : T.deep t = t := by
      rw [deep_eq_subst, Ty.subst_congr (τ := .var) fun v hv => absurd hv (hclosed v), Ty.subst_var]
    rw [hdeep, List.eq_nil_iff_forall_not_mem.mpr hclosed, List.append_nil, rename,
      Ty.subst_congr (τ := .var) fun v hv => absurd hv (hclosed v), Ty.subst_var]
    exact ⟨rfl, hS⟩
  | succ n ih =>
    have hvars : (T.deep t).vars = t.vars.flatMap fun v => (T.deep (.var v)).vars := by
      rw [deep_eq_subst, Ty.vars_subst]
    rw [instantiateWithin, hvars]
    -- the image of a variable of the type is what it stands for, renamed
    have hrename : ∀ us : List TyVar, T.rename us (T.deep t) = t.subst fun v => T.rename us (T.deep (.var v)) :=
      fun us => by rw [rename, deep_eq_subst, Ty.subst_subst]; rfl
    rw [hrename]
    let met := fun v : TyVar => (T.deep (.var v)).vars
    let image := fun (us : List TyVar) (v : TyVar) => T.rename us (T.deep (.var v))
    have hlasts : ∀ v us vs, met v ⊆ us → image (us ++ vs) v = image us v := fun v us vs hus =>
      Ty.subst_congr fun w hw => by rw [renamed_append (hus hw)]
    refine Ty.replaceVarsM_traces hlasts t (fun v hv us S hS => ?_) ws S hS
    have hvr := finds_resolve (hS.acyclic hT) v
    have hmade := hS.resolve hT v
    rw [Instance.resolveVar_bind]
    generalize S.table.resolve (.var v) = r at hvr hmade ⊢
    obtain ⟨u, S'⟩ := r
    dsimp only [met, image] at hvr hmade ⊢
    split
    · next w =>
      obtain ⟨hdeep, -⟩ := hvr.deep_var rfl
      rw [hS.deep] at hdeep
      rw [hdeep, Ty.vars, rename, Ty.subst, Instance.isGeneralized_bind, hmade.marks]
      split
      · next hg => exact hmade.copy hT hg
      · next hg =>
        have hg := Bool.not_eq_true _ ▸ hg
        exact ⟨by rw [renamed_of_not hg]; rfl, hmade.skip (marked_concat_of_not hg)⟩
    · next hnot =>
      obtain ⟨s, hs⟩ := hvr.bound hnot
      have hdeep := hvr.deep
      rw [hS.deep, hS.deep] at hdeep
      rw [← hdeep]
      refine ih (S := ⟨S', S.copies⟩) (fun w hw => ?_) hmade
      have h1 := hvr.lt s hs rank (hS.ranks rank hr) w hw
      have h2 := hn v hv
      omega

/-! ## Instances -/

/-- What an instance of a type at a level is, together with the fresh variables and the table afterwards:
the resolved type in which each generalized variable is replaced by a new one. -/
structure IsInstance (T : Table) (t : Ty) (level : Nat) (ρ : TyVar → TyVar) (r : Ty × List TyVar × Table) :
    Prop where
  /-- The instance is a renaming of the resolved type. -/
  type : r.1 = (T.resolveDeep t).1.subst fun v => .var (ρ v)
  /-- The variables that are replaced, each at its first occurrence. -/
  fresh : r.2.1 = ((T.resolveDeep t).1.distinctVars.filter fun v => T.isGeneralized v.id).map ρ
  /-- All occurrences of a variable are replaced by the same one. -/
  once : ∀ v ∈ (T.resolveDeep t).1.vars, ∀ w ∈ (T.resolveDeep t).1.vars, T.isGeneralized v.id = true →
    v.id = w.id → ρ v = ρ w
  kept : ∀ v, T.isGeneralized v.id = false → ρ v = v
  /-- A copy has the name and the flag of the first occurrence, and is not rigid. -/
  copy : ∀ v ∈ (T.resolveDeep t).1.distinctVars, T.isGeneralized v.id = true →
    (ρ v).name = v.name ∧ (ρ v).inferred = v.inferred ∧ (ρ v).rigid = false
  /-- The copies are new and numbered in order, so no two of them are the same. -/
  numbers : r.2.1.map (·.id) = List.range' T.size r.2.1.length
  size : r.2.2.size = T.size + r.2.1.length
  unbound : ∀ w ∈ r.2.1, r.2.2.binding? w.id = none ∧ r.2.2.isGeneralized w.id = false ∧
    r.2.2.level w.id = level
  /-- What was there before is as it was, and resolves in the same way. -/
  before : ∀ id < T.size, r.2.2.isBound id = T.isBound id ∧ r.2.2.isGeneralized id = T.isGeneralized id ∧
    r.2.2.level id = T.level id
  resolves : ∀ u, (r.2.2.resolveDeep u).1 = (T.resolveDeep u).1

/-- What instantiation computes. -/
theorem instantiate_eq (hT : T.Acyclic) (t : Ty) (level : Nat) :
    ∃ S, Instance.Made T level (T.deep t).vars S ∧ T.instantiate t level =
      (T.rename (T.deep t).vars (T.deep t), (T.copies (T.deep t).vars).map Prod.snd, S.table) := by
  obtain ⟨rank, hr⟩ := hT.exists_ranks
  obtain ⟨htype, hmade⟩ := instantiateWithin_copies (t := t) hr (n := T.size + 1)
    (fun w _ => Nat.lt_succ_of_le (hr.le_size _)) (.start T level)
  refine ⟨_, hmade, ?_⟩
  unfold instantiate
  generalize instantiateWithin level (T.size + 1) t ⟨T, []⟩ = r at htype hmade ⊢
  obtain ⟨u, S, made⟩ := r
  have hcopies : made = (T.copies (T.deep t).vars).reverse := hmade.made
  refine Prod.ext htype (Prod.ext ?_ rfl)
  show made.reverse.map Prod.snd = (T.copies (T.deep t).vars).map Prod.snd
  rw [hcopies, List.reverse_reverse]

/-- The copies are what the generalized variables are replaced by. -/
theorem copies_eq_map_renamed (ws : List TyVar) :
    (T.copies ws).map Prod.snd = (T.marked ws).map (T.renamed ws) := by
  refine List.ext_getElem (by simp [copies]) fun i hi hi' => ?_
  have hlt : i < (T.marked ws).length := by simpa using hi'
  rw [List.getElem_map, List.getElem_map, renamed_getElem hlt]
  simp [copies]

theorem renamed_eq_of_id {v w : TyVar} (hv : v ∈ ws) (hg : T.isGeneralized v.id = true) (hid : v.id = w.id) :
    T.renamed ws v = T.renamed ws w := by
  obtain ⟨u, hu⟩ := lookup_copies_of_met hv hg
  rw [renamed, renamed, ← hid, hu]
  rfl

/-- **Instantiation renames** each generalized variable of what the type stands for to a fresh one, and
changes nothing else. -/
theorem isInstance_instantiate (hT : T.Acyclic) (t : Ty) (level : Nat) :
    ∃ ρ, T.IsInstance t level ρ (T.instantiate t level) := by
  obtain ⟨S, hmade, heq⟩ := T.instantiate_eq hT t level
  have hdeep (u : Ty) : (T.resolveDeep u).1 = T.deep u := (steady_resolveDeep hT u).1
  have hlength : ((T.copies (T.deep t).vars).map Prod.snd).length = (T.copies (T.deep t).vars).length :=
    List.length_map _
  refine ⟨T.renamed (T.deep t).vars, ?_⟩
  rw [heq]
  refine
    { type := by rw [hdeep]; rfl
      fresh := by rw [hdeep]; exact copies_eq_map_renamed _
      once := fun v hv w _ hg hid => renamed_eq_of_id (hdeep t ▸ hv) hg hid
      kept := fun v hg => renamed_of_not hg _
      copy := fun v hv hg => ?_
      numbers := ?_
      size := by rw [hlength]; exact hmade.size
      unbound := fun w hw => ?_
      before := fun id hid => ⟨hmade.isBound id, hmade.marks id, ?_⟩
      resolves := fun u => ?_ }
  · rw [hdeep] at hv
    have hmarked : v ∈ T.marked (T.deep t).vars := List.mem_filter.mpr ⟨hv, hg⟩
    obtain ⟨i, hi, rfl⟩ := List.getElem_of_mem hmarked
    rw [renamed_getElem hi]
    exact ⟨rfl, rfl, rfl⟩
  · refine List.ext_getElem (by simp) fun i hi hi' => ?_
    simp [copies]
  · obtain ⟨c, hc, rfl⟩ := List.mem_map.mp hw
    obtain ⟨i, hi, rfl⟩ := List.mem_mapIdx.mp hc
    have hlt : T.size + i < S.table.size := by
      rw [hmade.size, copies, List.length_mapIdx]
      omega
    have hle : T.size ≤ T.size + i := Nat.le_add_right _ _
    refine ⟨isBound_eq_false.mp ?_, ?_, ?_⟩
    · rw [hmade.isBound, isBound_eq_false]
      exact binding?_of_size_le hle
    · rw [hmade.marks]
      exact isGeneralized_of_size_le hle
    · rw [hmade.levels, if_pos ⟨hle, hlt⟩]
  · rw [hmade.levels, if_neg fun h => absurd hid (Nat.not_lt.mpr h.1)]
  · rw [(steady_resolveDeep (hmade.acyclic hT) u).1, hmade.deep, hdeep]

end Table

end Reified
