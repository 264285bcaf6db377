import Reified.Proofs.Ty.Subst

/-!
# Proper types

A proper type is written over the variables of a list: each occurrence of a variable has the name and the flags
that it has in the list. Its records list their fields in order, and none of its functions has more implicit
parameters than parameters.

## Main definitions

* `Ty.Counted` — the counts of implicit parameters
* `Ty.Proper` — proper types

## Main results

* `Ty.Proper.subst` — proper types in place of the variables of a proper type
-/

namespace Reified

namespace Ty

/-! ## Counts of implicit parameters -/

mutual

/-- No function in the type has more implicit parameters than parameters. -/
def Counted : Ty → Prop
  | .var _ | .name _ => True
  | .array t => t.Counted
  | .tuple ts => CountedList ts
  | .record fs => CountedFields fs
  | .fn ps r implicit => CountedList ps ∧ r.Counted ∧ implicit ≤ ps.length
  | .union a b => a.Counted ∧ b.Counted
  | .binding _ t => t.Counted

/-- `Counted` for each type of a list. -/
def CountedList : List Ty → Prop
  | [] => True
  | t :: ts => t.Counted ∧ CountedList ts

/-- `Counted` for each named type. -/
def CountedFields : List (String × Ty) → Prop
  | [] => True
  | (_, t) :: fs => t.Counted ∧ CountedFields fs

end

@[simp] theorem countedList_iff (ts : List Ty) : CountedList ts ↔ ∀ t ∈ ts, t.Counted := by
  induction ts with
  | nil => simp [CountedList]
  | cons t ts ih => simp [CountedList, ih]

@[simp] theorem countedFields_iff (fs : List (String × Ty)) :
    CountedFields fs ↔ ∀ f ∈ fs, f.2.Counted := by
  induction fs with
  | nil => simp [CountedFields]
  | cons f fs ih => obtain ⟨n, t⟩ := f; simp [CountedFields, ih]

theorem Part.counted {c t : Ty} (h : Part c t) (ht : t.Counted) : c.Counted := by
  cases h with
  | array => exact ht
  | tuple hm => exact (countedList_iff _).mp ht _ hm
  | record hm => exact (countedFields_iff _).mp ht _ hm
  | param hm => exact (countedList_iff _).mp ht.1 _ hm
  | result => exact ht.2.1
  | left => exact ht.1
  | right => exact ht.2
  | inner => exact ht

theorem counted_subst {σ : TyVar → Ty} {t : Ty} (ht : t.Counted) (hσ : ∀ v ∈ t.vars, (σ v).Counted) :
    (t.subst σ).Counted := by
  induction t with
  | var v => exact hσ v (List.mem_singleton_self v)
  | name n => exact trivial
  | array t ih => exact ih ht hσ
  | tuple ts ih =>
    simp only [Counted, countedList_iff, vars, varsList_eq, List.mem_flatMap] at ht hσ
    simp only [subst, Counted, substList_eq, countedList_iff, List.mem_map]
    rintro _ ⟨t, hm, rfl⟩
    exact ih t hm (ht t hm) fun v hv => hσ v ⟨t, hm, hv⟩
  | record fs ih =>
    simp only [Counted, countedFields_iff, vars, varsFields_eq, List.mem_flatMap] at ht hσ
    simp only [subst, Counted, substFields_eq, countedFields_iff, List.mem_map]
    rintro _ ⟨f, hm, rfl⟩
    exact ih f hm (ht f hm) fun v hv => hσ v ⟨f, hm, hv⟩
  | fn ps r k ihp ihr =>
    simp only [Counted, countedList_iff, vars, varsList_eq, List.mem_append, List.mem_flatMap] at ht hσ
    simp only [subst, Counted, substList_eq, countedList_iff, List.mem_map, List.length_map]
    refine ⟨?_, ihr ht.2.1 fun v hv => hσ v (.inr hv), ht.2.2⟩
    rintro _ ⟨t, hm, rfl⟩
    exact ihp t hm (ht.1 t hm) fun v hv => hσ v (.inl ⟨t, hm, hv⟩)
  | union a b iha ihb =>
    simp only [vars, List.mem_append] at hσ
    exact ⟨iha ht.1 fun v hv => hσ v (.inl hv), ihb ht.2 fun v hv => hσ v (.inr hv)⟩
  | binding n t ih => exact ih ht hσ

/-! ## Proper types -/

/-- The type is written over the variables, and no function in it has more implicit parameters than
parameters. -/
structure Proper (vs : List TyVar) (t : Ty) : Prop extends Over vs t where
  counted : t.Counted

namespace Proper

variable {vs ws : List TyVar} {t : Ty}

theorem mono (h : t.Proper vs) (hvs : vs <+: ws) : t.Proper ws :=
  ⟨h.toOver.mono fun _ hv => hvs.subset hv, h.counted⟩

theorem part {c : Ty} (h : t.Proper vs) (hc : c.Part t) : c.Proper vs :=
  ⟨h.toOver.part hc, hc.counted h.counted⟩

theorem subst {σ : TyVar → Ty} (h : t.Proper vs) (hσ : ∀ v ∈ t.vars, (σ v).Proper ws) :
    (t.subst σ).Proper ws :=
  ⟨h.toOver.subst fun v hv => (hσ v hv).toOver, counted_subst h.counted fun v hv => (hσ v hv).counted⟩

theorem var {v : TyVar} (hv : v ∈ vs) : Proper vs (.var v) := ⟨.var hv, trivial⟩

theorem name (n : String) : Proper vs (.name n) := ⟨.name n, trivial⟩

theorem array (h : t.Proper vs) : Proper vs (.array t) := ⟨h.toOver.array, h.counted⟩

theorem tuple {ts : List Ty} (h : ∀ t ∈ ts, t.Proper vs) : Proper vs (.tuple ts) :=
  ⟨.tuple fun t ht => (h t ht).toOver, (countedList_iff ts).mpr fun t ht => (h t ht).counted⟩

theorem record {fs : List (String × Ty)} (hsorted : Fields.Sorted fs) (h : ∀ f ∈ fs, f.2.Proper vs) :
    Proper vs (.record fs) :=
  ⟨.record hsorted fun f hf => (h f hf).toOver, (countedFields_iff fs).mpr fun f hf => (h f hf).counted⟩

theorem fn {ps : List Ty} {r : Ty} {k : Nat} (hps : ∀ t ∈ ps, t.Proper vs) (hr : r.Proper vs)
    (hk : k ≤ ps.length) : Proper vs (.fn ps r k) :=
  ⟨.fn k (fun t ht => (hps t ht).toOver) hr.toOver,
    (countedList_iff ps).mpr fun t ht => (hps t ht).counted, hr.counted, hk⟩

theorem union {a b : Ty} (ha : a.Proper vs) (hb : b.Proper vs) : Proper vs (.union a b) where
  vars v hv := (List.mem_append.mp hv).elim (ha.vars v) (hb.vars v)
  tidy := ⟨ha.tidy, hb.tidy⟩
  counted := ⟨ha.counted, hb.counted⟩

theorem binding {n : String} (h : t.Proper vs) : Proper vs (.binding n t) := ⟨⟨h.vars, h.tidy⟩, h.counted⟩

end Proper

end Ty

end Reified
