import Mathlib.Algebra.GroupWithZero.Nat
import Mathlib.Algebra.Order.BigOperators.Group.List
import Mathlib.Data.List.Sort
import Mathlib.Data.String.Basic
import Reified.Fields
import Reified.Ty.Basic

/-!
# Substitution and erasure

The pure counterparts of what a table does with a type: every variable is replaced by a type, all at
once, and nothing else changes. The effectful traversal `Ty.replaceVarsM` is this substitution as
soon as its rule gives a fixed type for each variable and keeps a predicate of the state.

Unification does not look at names attached to types and at the count of implicit parameters;
`erase` removes both. It commutes with substitution, and so does the identity: `Natural` is what the
two have in common, and what the theory of tables asks of a way to look at types.

## Main definitions

* `Ty.induction` — induction over types, with hypotheses for the members of lists
* `Ty.subst`, `Ty.erase` — substitution, erasure
* `Ty.UnionFree`, `Ty.Over` — types without unions; types over given variables
* `Ty.Natural` — ways to look at types that commute with substitution

## Main results

* `Ty.replaceVarsM_eq_subst` — the effectful traversal as a substitution
* `Ty.erase_subst`, `Ty.natural_erase` — erasure commutes with substitution
* `Ty.size_subst_lt_of_mem` — a variable is smaller than what it occurs in, whatever replaces it
* `Fields.ext_of_sorted` — sorted fields are the same if they answer all names alike
-/

namespace Reified

/-! ## Sorted fields -/

namespace Fields

universe u v

variable {α : Type u} {β : Type v}

/-- The names increase strictly, as in everything built by `insert`. -/
def Sorted (fields : Fields α) : Prop :=
  fields.Pairwise fun f g => f.1 < g.1

theorem get?_eq_none_iff {name : String} {fields : Fields α} :
    get? name fields = none ↔ ∀ f ∈ fields, f.1 ≠ name := by
  induction fields with
  | nil => simp [get?]
  | cons f fields ih =>
    obtain ⟨other, x⟩ := f
    by_cases h : name = other
    · simp [get?, h]
    · simp [get?, h, ih, Ne.symm h]

theorem insert_of_forall_lt {name : String} {fields : Fields α} (h : ∀ f ∈ fields, f.1 < name) (x : α) :
    insert name x fields = fields ++ [(name, x)] := by
  induction fields with
  | nil => rfl
  | cons f fields ih =>
    obtain ⟨other, y⟩ := f
    obtain ⟨hlt, h⟩ := List.forall_mem_cons.mp h
    rw [insert, if_neg (ne_of_gt hlt), if_neg (lt_asymm hlt), ih h, List.cons_append]

/-- Fields in order are as they are. -/
theorem Sorted.ofList_eq {fields : Fields α} (h : Sorted fields) : ofList fields = fields := by
  suffices key : ∀ done rest : Fields α, Sorted (done ++ rest) →
      rest.foldl (fun fields f => insert f.1 f.2 fields) done = done ++ rest from key [] fields h
  intro done rest
  induction rest generalizing done with
  | nil => intro _; rw [List.append_nil]; rfl
  | cons f rest ih =>
    intro h
    have hlt : ∀ g ∈ done, g.1 < f.1 := fun g hg =>
      (List.pairwise_append.mp h).2.2 g hg f List.mem_cons_self
    rw [List.foldl_cons, insert_of_forall_lt hlt, ih _ (by rwa [List.append_assoc])]
    exact List.append_assoc done [f] rest

theorem mem_of_mem_insert {name : String} {x : α} {fields : Fields α} {f : String × α}
    (h : f ∈ insert name x fields) : f = (name, x) ∨ f ∈ fields := by
  fun_induction insert with
  | case1 => simpa using h
  | case2 y rest =>
    rcases List.mem_cons.mp h with h | h
    · exact .inl h
    · exact .inr (List.mem_cons_of_mem _ h)
  | case3 other y rest hne hlt => exact List.mem_cons.mp h
  | case4 other y rest hne hlt ih =>
    rcases List.mem_cons.mp h with h | h
    · exact .inr (h ▸ List.mem_cons_self)
    · exact (ih h).imp_right (List.mem_cons_of_mem _)

/-- All fields of a list were in the list. -/
theorem mem_of_mem_ofList {entries : List (String × α)} {f : String × α} (h : f ∈ ofList entries) :
    f ∈ entries := by
  suffices key : ∀ entries done : List (String × α),
      f ∈ entries.foldl (fun fields f => insert f.1 f.2 fields) done → f ∈ entries ∨ f ∈ done from
    (key entries [] h).resolve_right List.not_mem_nil
  intro entries
  induction entries with
  | nil => exact fun done h => .inr h
  | cons g entries ih =>
    intro done h
    rcases ih _ h with h | h
    · exact .inl (List.mem_cons_of_mem g h)
    · rcases mem_of_mem_insert h with rfl | h
      · exact .inl List.mem_cons_self
      · exact .inr h

theorem Sorted.of_names {fields : Fields α} {others : Fields β} (h : Sorted fields)
    (hn : names others = names fields) : Sorted others := by
  have h' := List.pairwise_map.mpr h
  rw [← names, ← hn] at h'
  exact List.pairwise_map.mp h'

theorem mem_of_get?_eq_some {name : String} {x : α} {fields : Fields α}
    (h : get? name fields = some x) : (name, x) ∈ fields := by
  induction fields with
  | nil => simp [get?] at h
  | cons f fields ih =>
    obtain ⟨other, y⟩ := f
    by_cases hn : name = other
    · simp only [get?, hn, if_true, Option.some.injEq] at h
      simp [hn, h]
    · simp only [get?, hn, if_false] at h
      exact List.mem_cons_of_mem _ (ih h)

theorem get?_of_mem {name : String} {x : α} {fields : Fields α} (hs : Sorted fields)
    (h : (name, x) ∈ fields) : get? name fields = some x := by
  induction fields with
  | nil => simp at h
  | cons f fields ih =>
    obtain ⟨other, y⟩ := f
    obtain ⟨hlt, hs⟩ := List.pairwise_cons.mp hs
    rcases List.mem_cons.mp h with h | h
    · simp only [Prod.mk.injEq] at h
      simp [get?, h]
    · have hne : name ≠ other := (hlt _ h).ne'
      simp only [get?, hne, if_false]
      exact ih hs h

theorem get?_map (f : α → β) (name : String) (fields : Fields α) :
    get? name (fields.map fun x => (x.1, f x.2)) = (get? name fields).map f := by
  induction fields with
  | nil => rfl
  | cons x fields ih =>
    obtain ⟨other, y⟩ := x
    by_cases h : name = other
    · simp [get?, h]
    · simp [get?, h, ih]

theorem has_eq_false_iff {name : String} {fields : Fields α} :
    has name fields = false ↔ get? name fields = none := by
  simp [has]

theorem Sorted.map {fields : Fields α} (h : Sorted fields) (f : α → β) :
    Sorted (fields.map fun x => (x.1, f x.2)) :=
  List.pairwise_map.mpr h

/-- **Sorted fields are determined by their answers.** -/
theorem ext_of_sorted : ∀ {fs gs : Fields α}, Sorted fs → Sorted gs →
    (∀ name, get? name fs = get? name gs) → fs = gs
  | [], [], _, _, _ => rfl
  | [], (n, x) :: gs, _, _, h => by simpa [get?] using h n
  | (n, x) :: fs, [], _, _, h => by simpa [get?] using h n
  | (m, x) :: fs, (n, y) :: gs, hf, hg, h => by
    have hfm : get? m ((m, x) :: fs) = some x := by simp [get?]
    have hgn : get? n ((n, y) :: gs) = some y := by simp [get?]
    have hm := mem_of_get?_eq_some ((h m).symm.trans hfm)
    have hn := mem_of_get?_eq_some ((h n).trans hgn)
    have hmn : m = n := by
      -- neither first name can come after the other list's first name
      rcases List.mem_cons.mp hm with hm | hm
      · exact congrArg Prod.fst hm
      · rcases List.mem_cons.mp hn with hn | hn
        · exact (congrArg Prod.fst hn).symm
        · have h1 : n < m := (List.pairwise_cons.mp hg).1 _ hm
          have h2 : m < n := (List.pairwise_cons.mp hf).1 _ hn
          exact absurd h1 (lt_asymm h2)
    subst hmn
    have hxy : x = y := by
      have := h m
      rw [hfm, hgn] at this
      exact Option.some.inj this
    subst hxy
    obtain ⟨hfl, hf⟩ := List.pairwise_cons.mp hf
    obtain ⟨hgl, hg⟩ := List.pairwise_cons.mp hg
    refine congrArg _ (ext_of_sorted hf hg fun name => ?_)
    by_cases hne : name = m
    · subst hne
      rw [get?_eq_none_iff.mpr fun f hf => (hfl f hf).ne',
        get?_eq_none_iff.mpr fun g hg => (hgl g hg).ne']
    · simpa [get?, hne] using h name

end Fields

namespace Ty

/-! ## Induction -/

section induction

variable {motive : Ty → Prop}
  (var : ∀ v, motive (.var v)) (name : ∀ n, motive (.name n))
  (array : ∀ t, motive t → motive (.array t))
  (tuple : ∀ ts, (∀ t ∈ ts, motive t) → motive (.tuple ts))
  (record : ∀ fs, (∀ f ∈ fs, motive f.2) → motive (.record fs))
  (fn : ∀ ps r k, (∀ t ∈ ps, motive t) → motive r → motive (.fn ps r k))
  (union : ∀ a b, motive a → motive b → motive (.union a b))
  (binding : ∀ n t, motive t → motive (.binding n t))

include var name array tuple record fn union binding

/-- Induction over types in which the members of a tuple, a record and a parameter list have a
hypothesis each. -/
@[induction_eliminator]
theorem induction (t : Ty) : motive t :=
  Ty.rec (motive_1 := motive) (motive_2 := fun ts => ∀ t ∈ ts, motive t)
    (motive_3 := fun fs => ∀ f ∈ fs, motive f.2) (motive_4 := fun f => motive f.2)
    var name array tuple record (fun ps r k => fn ps r k) union binding
    (by simp) (fun t ts ht hts => by simpa using ⟨ht, hts⟩)
    (by simp) (fun f fs hf hfs g hg => (List.mem_cons.mp hg).elim (· ▸ hf) (hfs g))
    (fun _ _ h => h) t

end induction

/-! ## Substitution -/

mutual

/-- Replace every variable. -/
def subst (σ : TyVar → Ty) : Ty → Ty
  | .var v => σ v
  | .name n => .name n
  | .array t => .array (subst σ t)
  | .tuple ts => .tuple (substList σ ts)
  | .record fs => .record (substFields σ fs)
  | .fn ps r k => .fn (substList σ ps) (subst σ r) k
  | .union a b => .union (subst σ a) (subst σ b)
  | .binding n t => .binding n (subst σ t)

/-- Replace every variable of each type of a list. -/
def substList (σ : TyVar → Ty) : List Ty → List Ty
  | [] => []
  | t :: ts => subst σ t :: substList σ ts

/-- Replace every variable of each named type. -/
def substFields (σ : TyVar → Ty) : List (String × Ty) → List (String × Ty)
  | [] => []
  | (n, t) :: fs => (n, subst σ t) :: substFields σ fs

end

@[simp] theorem substList_eq (σ : TyVar → Ty) (ts : List Ty) : substList σ ts = ts.map (subst σ) := by
  induction ts with
  | nil => rfl
  | cons t ts ih => simp [substList, ih]

@[simp] theorem substFields_eq (σ : TyVar → Ty) (fs : List (String × Ty)) :
    substFields σ fs = fs.map fun f => (f.1, subst σ f.2) := by
  induction fs with
  | nil => rfl
  | cons f fs ih => obtain ⟨n, t⟩ := f; simp [substFields, ih]

@[simp] theorem varsList_eq (ts : List Ty) : varsList ts = ts.flatMap vars := by
  induction ts with
  | nil => rfl
  | cons t ts ih => simp [varsList, ih]

@[simp] theorem varsFields_eq (fs : List (String × Ty)) : varsFields fs = fs.flatMap (·.2.vars) := by
  induction fs with
  | nil => rfl
  | cons f fs ih => obtain ⟨n, t⟩ := f; simp [varsFields, ih]

/-- Only the images of the variables that occur matter. -/
theorem subst_congr {σ τ : TyVar → Ty} {t : Ty} (h : ∀ v ∈ t.vars, σ v = τ v) :
    t.subst σ = t.subst τ := by
  induction t with
  | var v => exact h v (by simp [vars])
  | name n => rfl
  | array t ih => simp only [subst]; rw [ih h]
  | tuple ts ih =>
    simp only [vars, varsList_eq, List.mem_flatMap] at h
    simp only [subst, substList_eq]
    rw [List.map_congr_left fun t ht => ih t ht fun v hv => h v ⟨t, ht, hv⟩]
  | record fs ih =>
    simp only [vars, varsFields_eq, List.mem_flatMap] at h
    simp only [subst, substFields_eq]
    rw [List.map_congr_left fun f hf => by rw [ih f hf fun v hv => h v ⟨f, hf, hv⟩]]
  | fn ps r k ihp ihr =>
    simp only [vars, varsList_eq, List.mem_append, List.mem_flatMap] at h
    simp only [subst, substList_eq]
    rw [List.map_congr_left fun t ht => ihp t ht fun v hv => h v (.inl ⟨t, ht, hv⟩),
      ihr fun v hv => h v (.inr hv)]
  | union a b iha ihb =>
    simp only [vars, List.mem_append] at h
    simp only [subst]
    rw [iha fun v hv => h v (.inl hv), ihb fun v hv => h v (.inr hv)]
  | binding n t ih => simp only [subst]; rw [ih h]

@[simp] theorem subst_var (t : Ty) : t.subst .var = t := by
  induction t with
  | var v => rfl
  | name n => rfl
  | array t ih => simp [subst, ih]
  | tuple ts ih => simpa [subst] using List.map_congr_left ih
  | record fs ih =>
    simp only [subst, substFields_eq, Ty.record.injEq]
    calc fs.map (fun f => (f.1, f.2.subst .var)) = fs.map id :=
          List.map_congr_left fun f hf => by rw [ih f hf]; rfl
      _ = fs := List.map_id fs
  | fn ps r k ihp ihr => simpa [subst, ihr] using List.map_congr_left ihp
  | union a b iha ihb => simp [subst, iha, ihb]
  | binding n t ih => simp [subst, ih]

theorem subst_subst (σ τ : TyVar → Ty) (t : Ty) :
    (t.subst σ).subst τ = t.subst fun v => (σ v).subst τ := by
  induction t with
  | var v => rfl
  | name n => rfl
  | array t ih => simp [subst, ih]
  | tuple ts ih => simpa [subst] using ih
  | record fs ih =>
    simp only [subst, substFields_eq, List.map_map, Ty.record.injEq]
    exact List.map_congr_left fun f hf => by simp [ih f hf]
  | fn ps r k ihp ihr => simpa [subst, ihr] using ihp
  | union a b iha ihb => simp [subst, iha, ihb]
  | binding n t ih => simp [subst, ih]

theorem mem_vars_subst {σ : TyVar → Ty} {t : Ty} {w : TyVar} :
    w ∈ (t.subst σ).vars ↔ ∃ v ∈ t.vars, w ∈ (σ v).vars := by
  induction t with
  | var v => simp [subst, vars]
  | name n => simp [subst, vars]
  | array t ih => simpa [subst, vars] using ih
  | tuple ts ih =>
    simp only [subst, vars, substList_eq, varsList_eq, List.mem_flatMap, List.mem_map]
    constructor
    · rintro ⟨_, ⟨t, ht, rfl⟩, hw⟩
      obtain ⟨v, hv, hw⟩ := (ih t ht).mp hw
      exact ⟨v, ⟨t, ht, hv⟩, hw⟩
    · rintro ⟨v, ⟨t, ht, hv⟩, hw⟩
      exact ⟨_, ⟨t, ht, rfl⟩, (ih t ht).mpr ⟨v, hv, hw⟩⟩
  | record fs ih =>
    simp only [subst, vars, substFields_eq, varsFields_eq, List.mem_flatMap, List.mem_map]
    constructor
    · rintro ⟨_, ⟨f, hf, rfl⟩, hw⟩
      obtain ⟨v, hv, hw⟩ := (ih f hf).mp hw
      exact ⟨v, ⟨f, hf, hv⟩, hw⟩
    · rintro ⟨v, ⟨f, hf, hv⟩, hw⟩
      exact ⟨_, ⟨f, hf, rfl⟩, (ih f hf).mpr ⟨v, hv, hw⟩⟩
  | fn ps r k ihp ihr =>
    simp only [subst, vars, substList_eq, varsList_eq, List.mem_append, List.mem_flatMap,
      List.mem_map]
    constructor
    · rintro (⟨_, ⟨t, ht, rfl⟩, hw⟩ | hw)
      · obtain ⟨v, hv, hw⟩ := (ihp t ht).mp hw
        exact ⟨v, .inl ⟨t, ht, hv⟩, hw⟩
      · obtain ⟨v, hv, hw⟩ := ihr.mp hw
        exact ⟨v, .inr hv, hw⟩
    · rintro ⟨v, ⟨t, ht, hv⟩ | hv, hw⟩
      · exact .inl ⟨_, ⟨t, ht, rfl⟩, (ihp t ht).mpr ⟨v, hv, hw⟩⟩
      · exact .inr (ihr.mpr ⟨v, hv, hw⟩)
  | union a b iha ihb =>
    simp only [subst, vars, List.mem_append, iha, ihb]
    constructor
    · rintro (⟨v, hv, hw⟩ | ⟨v, hv, hw⟩)
      · exact ⟨v, .inl hv, hw⟩
      · exact ⟨v, .inr hv, hw⟩
    · rintro ⟨v, hv | hv, hw⟩
      · exact .inl ⟨v, hv, hw⟩
      · exact .inr ⟨v, hv, hw⟩
  | binding n t ih => simpa [subst, vars] using ih

/-! ## Effectful replacement -/

section replace

variable {S : Type} {rule : TyVar → StateM S Ty} {keep : S → Prop} {σ : TyVar → Ty}

mutual

/-- **A traversal whose rule gives fixed types is a substitution.** The rule may act on the state as
long as it keeps a predicate of it, under which it gives for each variable the type that `σ` has. -/
theorem replaceVarsM_eq_subst : (t : Ty) →
    (∀ v ∈ t.vars, ∀ s, keep s → (rule v s).1 = σ v ∧ keep (rule v s).2) →
    ∀ s, keep s → (t.replaceVarsM rule s).1 = t.subst σ ∧ keep (t.replaceVarsM rule s).2
  | .var v, h, s, hs => h v (by simp [vars]) s hs
  | .name n, _, s, hs => ⟨rfl, hs⟩
  | .array t, h, s, hs => by
    obtain ⟨h1, h2⟩ := replaceVarsM_eq_subst t h s hs
    exact ⟨congrArg Ty.array h1, h2⟩
  | .tuple ts, h, s, hs => by
    obtain ⟨h1, h2⟩ := replaceListM_eq_subst ts h s hs
    exact ⟨congrArg Ty.tuple h1, h2⟩
  | .record fs, h, s, hs => by
    obtain ⟨h1, h2⟩ := replaceFieldsM_eq_subst fs h s hs
    exact ⟨congrArg Ty.record h1, h2⟩
  | .fn ps r k, h, s, hs => by
    obtain ⟨h1, h2⟩ := replaceListM_eq_subst ps (fun v hv => h v (List.mem_append_left _ hv)) s hs
    obtain ⟨h3, h4⟩ := replaceVarsM_eq_subst r (fun v hv => h v (List.mem_append_right _ hv)) _ h2
    exact ⟨congrArg₂ (Ty.fn · · k) h1 h3, h4⟩
  | .union a b, h, s, hs => by
    obtain ⟨h1, h2⟩ := replaceVarsM_eq_subst a (fun v hv => h v (List.mem_append_left _ hv)) s hs
    obtain ⟨h3, h4⟩ := replaceVarsM_eq_subst b (fun v hv => h v (List.mem_append_right _ hv)) _ h2
    exact ⟨congrArg₂ Ty.union h1 h3, h4⟩
  | .binding n t, h, s, hs => by
    obtain ⟨h1, h2⟩ := replaceVarsM_eq_subst t h s hs
    exact ⟨congrArg (Ty.binding n) h1, h2⟩

theorem replaceListM_eq_subst : (ts : List Ty) →
    (∀ v ∈ varsList ts, ∀ s, keep s → (rule v s).1 = σ v ∧ keep (rule v s).2) →
    ∀ s, keep s → (replaceListM rule ts s).1 = substList σ ts ∧ keep (replaceListM rule ts s).2
  | [], _, s, hs => ⟨rfl, hs⟩
  | t :: ts, h, s, hs => by
    obtain ⟨h1, h2⟩ := replaceVarsM_eq_subst t (fun v hv => h v (List.mem_append_left _ hv)) s hs
    obtain ⟨h3, h4⟩ := replaceListM_eq_subst ts (fun v hv => h v (List.mem_append_right _ hv)) _ h2
    exact ⟨congrArg₂ List.cons h1 h3, h4⟩

theorem replaceFieldsM_eq_subst : (fs : List (String × Ty)) →
    (∀ v ∈ varsFields fs, ∀ s, keep s → (rule v s).1 = σ v ∧ keep (rule v s).2) →
    ∀ s, keep s →
      (replaceFieldsM rule fs s).1 = substFields σ fs ∧ keep (replaceFieldsM rule fs s).2
  | [], _, s, hs => ⟨rfl, hs⟩
  | (n, t) :: fs, h, s, hs => by
    obtain ⟨h1, h2⟩ := replaceVarsM_eq_subst t (fun v hv => h v (List.mem_append_left _ hv)) s hs
    obtain ⟨h3, h4⟩ := replaceFieldsM_eq_subst fs (fun v hv => h v (List.mem_append_right _ hv)) _ h2
    exact ⟨congrArg₂ (fun t fs => (n, t) :: fs) h1 h3, h4⟩

end

end replace

/-! ## Erasure -/

mutual

/-- Remove the names attached to types and the counts of implicit parameters. -/
def erase : Ty → Ty
  | .var v => .var v
  | .name n => .name n
  | .array t => .array (erase t)
  | .tuple ts => .tuple (eraseList ts)
  | .record fs => .record (eraseFields fs)
  | .fn ps r _ => .fn (eraseList ps) (erase r) 0
  | .union a b => .union (erase a) (erase b)
  | .binding _ t => erase t

/-- `erase` on each type of a list. -/
def eraseList : List Ty → List Ty
  | [] => []
  | t :: ts => erase t :: eraseList ts

/-- `erase` on each named type. -/
def eraseFields : List (String × Ty) → List (String × Ty)
  | [] => []
  | (n, t) :: fs => (n, erase t) :: eraseFields fs

end

@[simp] theorem eraseList_eq (ts : List Ty) : eraseList ts = ts.map erase := by
  induction ts with
  | nil => rfl
  | cons t ts ih => simp [eraseList, ih]

@[simp] theorem eraseFields_eq (fs : List (String × Ty)) :
    eraseFields fs = fs.map fun f => (f.1, f.2.erase) := by
  induction fs with
  | nil => rfl
  | cons f fs ih => obtain ⟨n, t⟩ := f; simp [eraseFields, ih]

theorem erase_subst (t : Ty) (σ : TyVar → Ty) :
    (t.subst σ).erase = t.erase.subst fun v => (σ v).erase := by
  induction t with
  | var v => rfl
  | name n => rfl
  | array t ih => simp [subst, erase, ih]
  | tuple ts ih => simpa [subst, erase] using ih
  | record fs ih =>
    simp only [subst, erase, substFields_eq, eraseFields_eq, List.map_map, Ty.record.injEq]
    exact List.map_congr_left fun f hf => by simp [ih f hf]
  | fn ps r k ihp ihr => simpa [subst, erase, ihr] using ihp
  | union a b iha ihb => simp [subst, erase, iha, ihb]
  | binding n t ih => simpa [subst, erase] using ih

@[simp] theorem erase_erase (t : Ty) : t.erase.erase = t.erase := by
  induction t with
  | var v => rfl
  | name n => rfl
  | array t ih => simp [erase, ih]
  | tuple ts ih => simpa [erase] using ih
  | record fs ih =>
    simp only [erase, eraseFields_eq, List.map_map, Ty.record.injEq]
    exact List.map_congr_left fun f hf => by simp [ih f hf]
  | fn ps r k ihp ihr => simpa [erase, ihr] using ihp
  | union a b iha ihb => simp [erase, iha, ihb]
  | binding n t ih => simpa [erase] using ih

@[simp] theorem vars_erase (t : Ty) : t.erase.vars = t.vars := by
  induction t with
  | var v => rfl
  | name n => rfl
  | array t ih => simpa [erase, vars] using ih
  | tuple ts ih =>
    simp only [erase, vars, eraseList_eq, varsList_eq, List.flatMap_map]
    exact List.flatMap_congr ih
  | record fs ih =>
    simp only [erase, vars, eraseFields_eq, varsFields_eq, List.flatMap_map]
    exact List.flatMap_congr ih
  | fn ps r k ihp ihr =>
    simp only [erase, vars, eraseList_eq, varsList_eq, List.flatMap_map, ihr]
    rw [List.flatMap_congr ihp]
  | union a b iha ihb => simp [erase, vars, iha, ihb]
  | binding n t ih => simpa [erase, vars] using ih

/-- A way to look at types that leaves variables alone and commutes with substitution. -/
structure Natural (h : Ty → Ty) : Prop where
  var : ∀ v, h (.var v) = .var v
  vars : ∀ t, (h t).vars = t.vars
  subst : ∀ t σ, h (t.subst σ) = (h t).subst fun v => h (σ v)

theorem natural_id : Natural id := ⟨fun _ => rfl, fun _ => rfl, fun _ _ => rfl⟩

theorem natural_erase : Natural erase := ⟨fun _ => rfl, vars_erase, erase_subst⟩

/-! ## Sizes -/

mutual

/-- The number of constructors of a type. -/
def size : Ty → Nat
  | .var _ => 1
  | .name _ => 1
  | .array t => t.size + 1
  | .tuple ts => sizeList ts + 1
  | .record fs => sizeFields fs + 1
  | .fn ps r _ => sizeList ps + r.size + 1
  | .union a b => a.size + b.size + 1
  | .binding _ t => t.size + 1

/-- The sum of the sizes of a list of types. -/
def sizeList : List Ty → Nat
  | [] => 0
  | t :: ts => t.size + sizeList ts

/-- The sum of the sizes of named types. -/
def sizeFields : List (String × Ty) → Nat
  | [] => 0
  | (_, t) :: fs => t.size + sizeFields fs

end

@[simp] theorem sizeList_eq (ts : List Ty) : sizeList ts = (ts.map size).sum := by
  induction ts with
  | nil => rfl
  | cons t ts ih => simp [sizeList, ih]

@[simp] theorem sizeFields_eq (fs : List (String × Ty)) :
    sizeFields fs = (fs.map (·.2.size)).sum := by
  induction fs with
  | nil => rfl
  | cons f fs ih => obtain ⟨n, t⟩ := f; simp [sizeFields, ih]

theorem size_pos (t : Ty) : 0 < t.size := by
  cases t <;> simp [size]

theorem size_le_sum {ts : List Ty} {t : Ty} (h : t ∈ ts) : t.size ≤ (ts.map size).sum :=
  List.single_le_sum (fun _ _ => Nat.zero_le _) _ (List.mem_map_of_mem h)

theorem size_le_sum_fields {fs : List (String × Ty)} {f : String × Ty} (h : f ∈ fs) :
    f.2.size ≤ (fs.map (·.2.size)).sum :=
  List.single_le_sum (fun _ _ => Nat.zero_le _) _ (List.mem_map_of_mem (f := (·.2.size)) h)

/-- The image of a variable is no larger than that of a type in which the variable occurs. -/
theorem size_le_size_subst_of_mem {σ : TyVar → Ty} {t : Ty} {v : TyVar} (hv : v ∈ t.vars) :
    (σ v).size ≤ (t.subst σ).size := by
  induction t with
  | var w =>
    simp only [vars, List.mem_singleton] at hv
    simp [subst, hv]
  | name n => simp [vars] at hv
  | array t ih => have := ih hv; simp only [subst, size]; omega
  | tuple ts ih =>
    simp only [vars, varsList_eq, List.mem_flatMap] at hv
    obtain ⟨t, ht, hv⟩ := hv
    have h1 := ih t ht hv
    have h2 := size_le_sum (List.mem_map_of_mem (f := subst σ) ht)
    simp only [subst, size, substList_eq, sizeList_eq]
    omega
  | record fs ih =>
    simp only [vars, varsFields_eq, List.mem_flatMap] at hv
    obtain ⟨f, hf, hv⟩ := hv
    have h1 := ih f hf hv
    have h2 := size_le_sum_fields (List.mem_map_of_mem (f := fun f => (f.1, f.2.subst σ)) hf)
    simp only [subst, size, substFields_eq, sizeFields_eq] at h2 ⊢
    omega
  | fn ps r k ihp ihr =>
    simp only [vars, varsList_eq, List.mem_append, List.mem_flatMap] at hv
    simp only [subst, size, substList_eq, sizeList_eq]
    rcases hv with ⟨t, ht, hv⟩ | hv
    · have h1 := ihp t ht hv
      have h2 := size_le_sum (List.mem_map_of_mem (f := subst σ) ht)
      omega
    · have := ihr hv
      omega
  | union a b iha ihb =>
    simp only [vars, List.mem_append] at hv
    simp only [subst, size]
    rcases hv with hv | hv
    · have := iha hv; omega
    · have := ihb hv; omega
  | binding n t ih => have := ih hv; simp only [subst, size]; omega

/-- The outermost form of the type is neither a variable nor an attached name. -/
def IsForm : Ty → Prop
  | .var _ | .binding .. => False
  | _ => True

theorem IsForm.erase_subst_ne_var {t : Ty} (ht : t.IsForm) (σ : TyVar → Ty) (v : TyVar) :
    t.erase.subst σ ≠ .var v := by
  cases t with
  | var w => exact ht.elim
  | binding n t => exact ht.elim
  | _ => simp [erase, subst]

/-- **A variable is smaller than what it occurs in.** Below a form this stays true of the images,
whatever replaces the variables, so a variable and a form around it are never made equal. -/
theorem size_lt_size_subst_of_mem {σ : TyVar → Ty} {t : Ty} {v : TyVar} (ht : t.IsForm)
    (hv : v ∈ t.vars) : (σ v).size < (t.erase.subst σ).size := by
  have key : ∀ u : Ty, v ∈ u.vars → (σ v).size ≤ (u.erase.subst σ).size := fun u hu =>
    size_le_size_subst_of_mem (by rwa [vars_erase])
  cases t with
  | var w => exact ht.elim
  | binding n t => exact ht.elim
  | name n => simp [vars] at hv
  | array t =>
    have := key t hv
    simp only [erase, subst, size]
    omega
  | tuple ts =>
    simp only [vars, varsList_eq, List.mem_flatMap] at hv
    obtain ⟨t, ht, hv⟩ := hv
    have h1 := key t hv
    have h2 := size_le_sum (List.mem_map_of_mem (f := fun t => t.erase.subst σ) ht)
    simp only [erase, subst, size, eraseList_eq, substList_eq, sizeList_eq, List.map_map,
      Function.comp_def] at h2 ⊢
    omega
  | record fs =>
    simp only [vars, varsFields_eq, List.mem_flatMap] at hv
    obtain ⟨f, hf, hv⟩ := hv
    have h1 := key f.2 hv
    have h2 := size_le_sum_fields
      (List.mem_map_of_mem (f := fun f => (f.1, f.2.erase.subst σ)) hf)
    simp only [erase, subst, size, eraseFields_eq, substFields_eq, sizeFields_eq, List.map_map,
      Function.comp_def] at h2 ⊢
    omega
  | fn ps r k =>
    simp only [vars, varsList_eq, List.mem_append, List.mem_flatMap] at hv
    simp only [erase, subst, size, eraseList_eq, substList_eq, sizeList_eq, List.map_map]
    rcases hv with ⟨t, ht, hv⟩ | hv
    · have h1 := key t hv
      have h2 := size_le_sum (List.mem_map_of_mem (f := fun t => t.erase.subst σ) ht)
      simp only [List.map_map, Function.comp_def] at h2 ⊢
      omega
    · have := key r hv
      omega
  | union a b =>
    simp only [vars, List.mem_append] at hv
    simp only [erase, subst, size]
    rcases hv with hv | hv
    · have := key a hv; omega
    · have := key b hv; omega

/-! ## Parts -/

/-- The types that a type is made of directly. -/
inductive Part : Ty → Ty → Prop where
  | array {t : Ty} : Part t (.array t)
  | tuple {t : Ty} {ts : List Ty} : t ∈ ts → Part t (.tuple ts)
  | record {f : String × Ty} {fs : List (String × Ty)} : f ∈ fs → Part f.2 (.record fs)
  | param {t r : Ty} {ps : List Ty} {k : Nat} : t ∈ ps → Part t (.fn ps r k)
  | result {r : Ty} {ps : List Ty} {k : Nat} : Part r (.fn ps r k)
  | left {a b : Ty} : Part a (.union a b)
  | right {a b : Ty} : Part b (.union a b)
  | inner {n : String} {t : Ty} : Part t (.binding n t)

namespace Part

variable {c t : Ty}

theorem vars_subset (h : Part c t) {v : TyVar} (hv : v ∈ c.vars) : v ∈ t.vars := by
  cases h with
  | array => exact hv
  | tuple hm => rw [vars, varsList_eq]; exact List.mem_flatMap.mpr ⟨c, hm, hv⟩
  | record hm => rw [vars, varsFields_eq]; exact List.mem_flatMap.mpr ⟨_, hm, hv⟩
  | param hm =>
    rw [vars, varsList_eq]
    exact List.mem_append_left _ (List.mem_flatMap.mpr ⟨c, hm, hv⟩)
  | result => rw [vars]; exact List.mem_append_right _ hv
  | left => rw [vars]; exact List.mem_append_left _ hv
  | right => rw [vars]; exact List.mem_append_right _ hv
  | inner => exact hv

theorem sizeOf_lt (h : Part c t) : sizeOf c < sizeOf t := by
  cases h with
  | array => simp
  | tuple hm => have := List.sizeOf_lt_of_mem hm; simp; omega
  | @record f fs hm =>
    have := List.sizeOf_lt_of_mem hm
    obtain ⟨name, t⟩ := f
    simp only [Prod.mk.sizeOf_spec] at this
    simp
    omega
  | param hm => have := List.sizeOf_lt_of_mem hm; simp; omega
  | result => simp; omega
  | left => simp; omega
  | right => simp
  | inner => simp

/-- Substitution keeps parts. -/
theorem subst (h : Part c t) (σ : TyVar → Ty) : Part (c.subst σ) (t.subst σ) := by
  cases h with
  | array => exact .array
  | tuple hm =>
    simp only [Ty.subst, substList_eq]
    exact .tuple (List.mem_map_of_mem hm)
  | record hm =>
    simp only [Ty.subst, substFields_eq]
    exact .record (List.mem_map_of_mem (f := fun f : String × Ty => (f.1, f.2.subst σ)) hm)
  | param hm =>
    simp only [Ty.subst, substList_eq]
    exact .param (List.mem_map_of_mem hm)
  | result => exact .result
  | left => exact .left
  | right => exact .right
  | inner => exact .inner

theorem size_lt (h : Part c t) : c.size < t.size := by
  cases h with
  | array => simp [size]
  | tuple hm => have := size_le_sum hm; simp only [size, sizeList_eq]; omega
  | record hm => have := size_le_sum_fields hm; simp only [size, sizeFields_eq]; omega
  | param hm => have := size_le_sum hm; simp only [size, sizeList_eq]; omega
  | result => simp only [size]; omega
  | left => simp only [size]; omega
  | right => simp only [size]; omega
  | inner => simp [size]

end Part

/-- The name and the type that a slot of a signature stands for. -/
def slotType : Ty → String × Ty
  | .binding n t => (n, t)
  | t => ("", t)

/-! ## Types without unions, types over variables -/

mutual

/-- No union occurs in the type. -/
def UnionFree : Ty → Prop
  | .var _ => True
  | .name _ => True
  | .array t => UnionFree t
  | .tuple ts => UnionFreeList ts
  | .record fs => UnionFreeFields fs
  | .fn ps r _ => UnionFreeList ps ∧ UnionFree r
  | .union _ _ => False
  | .binding _ t => UnionFree t

/-- No union occurs in a type of the list. -/
def UnionFreeList : List Ty → Prop
  | [] => True
  | t :: ts => UnionFree t ∧ UnionFreeList ts

/-- No union occurs in one of the named types. -/
def UnionFreeFields : List (String × Ty) → Prop
  | [] => True
  | (_, t) :: fs => UnionFree t ∧ UnionFreeFields fs

end

@[simp] theorem unionFreeList_iff (ts : List Ty) : UnionFreeList ts ↔ ∀ t ∈ ts, t.UnionFree := by
  induction ts with
  | nil => simp [UnionFreeList]
  | cons t ts ih => simp [UnionFreeList, ih]

@[simp] theorem unionFreeFields_iff (fs : List (String × Ty)) :
    UnionFreeFields fs ↔ ∀ f ∈ fs, f.2.UnionFree := by
  induction fs with
  | nil => simp [UnionFreeFields]
  | cons f fs ih => obtain ⟨n, t⟩ := f; simp [UnionFreeFields, ih]

theorem unionFree_subst {σ : TyVar → Ty} {t : Ty} :
    (t.subst σ).UnionFree ↔ t.UnionFree ∧ ∀ v ∈ t.vars, (σ v).UnionFree := by
  induction t with
  | var v => simp [subst, UnionFree, vars]
  | name n => simp [subst, UnionFree, vars]
  | array t ih => simpa [subst, UnionFree, vars] using ih
  | tuple ts ih =>
    simp only [subst, UnionFree, vars, substList_eq, unionFreeList_iff, varsList_eq,
      List.mem_flatMap, List.mem_map, forall_exists_index, and_imp, forall_apply_eq_imp_iff₂]
    exact ⟨fun h => ⟨fun t ht => ((ih t ht).mp (h t ht)).1,
      fun v t ht hv => ((ih t ht).mp (h t ht)).2 v hv⟩,
      fun h t ht => (ih t ht).mpr ⟨h.1 t ht, fun v hv => h.2 v t ht hv⟩⟩
  | record fs ih =>
    simp only [subst, UnionFree, vars, substFields_eq, unionFreeFields_iff, varsFields_eq,
      List.mem_flatMap, List.mem_map, forall_exists_index, and_imp, forall_apply_eq_imp_iff₂]
    exact ⟨fun h => ⟨fun f hf => ((ih f hf).mp (h f hf)).1,
      fun v f hf hv => ((ih f hf).mp (h f hf)).2 v hv⟩,
      fun h f hf => (ih f hf).mpr ⟨h.1 f hf, fun v hv => h.2 v f hf hv⟩⟩
  | fn ps r k ihp ihr =>
    simp only [subst, UnionFree, vars, substList_eq, unionFreeList_iff, varsList_eq, ihr,
      List.mem_append, List.mem_flatMap, List.mem_map, forall_exists_index, and_imp,
      forall_apply_eq_imp_iff₂]
    constructor
    · rintro ⟨hp, hr, hv⟩
      refine ⟨⟨fun t ht => ((ihp t ht).mp (hp t ht)).1, hr⟩, fun v => ?_⟩
      rintro (⟨t, ht, hvt⟩ | hvr)
      · exact ((ihp t ht).mp (hp t ht)).2 v hvt
      · exact hv v hvr
    · rintro ⟨⟨hp, hr⟩, hv⟩
      exact ⟨fun t ht => (ihp t ht).mpr ⟨hp t ht, fun v hvt => hv v (.inl ⟨t, ht, hvt⟩)⟩,
        hr, fun v hvr => hv v (.inr hvr)⟩
  | union a b iha ihb => simp [subst, UnionFree]
  | binding n t ih => simpa [subst, UnionFree, vars] using ih

theorem Part.unionFree {c t : Ty} (h : Part c t) (ht : t.UnionFree) : c.UnionFree := by
  cases h with
  | array => exact ht
  | tuple hm => exact (unionFreeList_iff _).mp ht _ hm
  | record hm => exact (unionFreeFields_iff _).mp ht _ hm
  | param hm => exact (unionFreeList_iff _).mp ht.1 _ hm
  | result => exact ht.2
  | left => exact ht.elim
  | right => exact ht.elim
  | inner => exact ht

mutual

/-- All records in the type list their fields in increasing order. -/
def Tidy : Ty → Prop
  | .var _ => True
  | .name _ => True
  | .array t => Tidy t
  | .tuple ts => TidyList ts
  | .record fs => Fields.Sorted fs ∧ TidyFields fs
  | .fn ps r _ => TidyList ps ∧ Tidy r
  | .union a b => Tidy a ∧ Tidy b
  | .binding _ t => Tidy t

/-- `Tidy` for each type of a list. -/
def TidyList : List Ty → Prop
  | [] => True
  | t :: ts => Tidy t ∧ TidyList ts

/-- `Tidy` for each named type. -/
def TidyFields : List (String × Ty) → Prop
  | [] => True
  | (_, t) :: fs => Tidy t ∧ TidyFields fs

end

@[simp] theorem tidyList_iff (ts : List Ty) : TidyList ts ↔ ∀ t ∈ ts, t.Tidy := by
  induction ts with
  | nil => simp [TidyList]
  | cons t ts ih => simp [TidyList, ih]

@[simp] theorem tidyFields_iff (fs : List (String × Ty)) :
    TidyFields fs ↔ ∀ f ∈ fs, f.2.Tidy := by
  induction fs with
  | nil => simp [TidyFields]
  | cons f fs ih => obtain ⟨n, t⟩ := f; simp [TidyFields, ih]

theorem tidy_subst {σ : TyVar → Ty} {t : Ty} (ht : t.Tidy) (hσ : ∀ v ∈ t.vars, (σ v).Tidy) :
    (t.subst σ).Tidy := by
  induction t with
  | var v => exact hσ v (by simp [vars])
  | name n => exact trivial
  | array t ih => exact ih ht hσ
  | tuple ts ih =>
    simp only [Tidy, tidyList_iff, vars, varsList_eq, List.mem_flatMap] at ht hσ
    simp only [subst, Tidy, substList_eq, tidyList_iff, List.mem_map]
    rintro _ ⟨t, hm, rfl⟩
    exact ih t hm (ht t hm) fun v hv => hσ v ⟨t, hm, hv⟩
  | record fs ih =>
    simp only [Tidy, tidyFields_iff, vars, varsFields_eq, List.mem_flatMap] at ht hσ
    simp only [subst, Tidy, substFields_eq, tidyFields_iff, List.mem_map]
    refine ⟨ht.1.map _, ?_⟩
    rintro _ ⟨f, hm, rfl⟩
    exact ih f hm (ht.2 f hm) fun v hv => hσ v ⟨f, hm, hv⟩
  | fn ps r k ihp ihr =>
    simp only [Tidy, tidyList_iff, vars, varsList_eq, List.mem_append, List.mem_flatMap] at ht hσ
    simp only [subst, Tidy, substList_eq, tidyList_iff, List.mem_map]
    refine ⟨?_, ihr ht.2 fun v hv => hσ v (.inr hv)⟩
    rintro _ ⟨t, hm, rfl⟩
    exact ihp t hm (ht.1 t hm) fun v hv => hσ v (.inl ⟨t, hm, hv⟩)
  | union a b iha ihb =>
    simp only [vars, List.mem_append] at hσ
    exact ⟨iha ht.1 fun v hv => hσ v (.inl hv), ihb ht.2 fun v hv => hσ v (.inr hv)⟩
  | binding n t ih => exact ih ht hσ

theorem Part.tidy {c t : Ty} (h : Part c t) (ht : t.Tidy) : c.Tidy := by
  cases h with
  | array => exact ht
  | tuple hm => exact (tidyList_iff _).mp ht _ hm
  | record hm => exact (tidyFields_iff _).mp ht.2 _ hm
  | param hm => exact (tidyList_iff _).mp ht.1 _ hm
  | result => exact ht.2
  | left => exact ht.1
  | right => exact ht.2
  | inner => exact ht

/-- A type over the given variables: each occurrence of a variable is one of them, name and flags
included, and records list their fields in increasing order. -/
structure Over (vs : List TyVar) (t : Ty) : Prop where
  vars : ∀ v ∈ t.vars, v ∈ vs
  tidy : t.Tidy

namespace Over

variable {vs ws : List TyVar} {t : Ty}

theorem mono (h : ∀ v ∈ vs, v ∈ ws) (ht : t.Over vs) : t.Over ws :=
  ⟨fun v hv => h v (ht.vars v hv), ht.tidy⟩

theorem var {v : TyVar} (hv : v ∈ vs) : Over vs (.var v) :=
  ⟨fun w hw => by simp only [Ty.vars, List.mem_singleton] at hw; exact hw ▸ hv, trivial⟩

theorem subst {σ : TyVar → Ty} (ht : t.Over vs) (hσ : ∀ v ∈ t.vars, (σ v).Over ws) :
    (t.subst σ).Over ws :=
  ⟨fun w hw => (mem_vars_subst.mp hw).elim fun v hv => (hσ v hv.1).vars w hv.2,
    tidy_subst ht.tidy fun v hv => (hσ v hv).tidy⟩

theorem part {c : Ty} (ht : t.Over vs) (h : c.Part t) : c.Over vs :=
  ⟨fun v hv => ht.vars v (h.vars_subset hv), h.tidy ht.tidy⟩

theorem name (n : String) : Over vs (.name n) := ⟨nofun, trivial⟩

theorem array (h : t.Over vs) : Over vs (.array t) := ⟨h.vars, h.tidy⟩

theorem tuple {ts : List Ty} (h : ∀ t ∈ ts, t.Over vs) : Over vs (.tuple ts) where
  vars v hv := by
    rw [Ty.vars, varsList_eq] at hv
    obtain ⟨t, ht, hv⟩ := List.mem_flatMap.mp hv
    exact (h t ht).vars v hv
  tidy := (tidyList_iff ts).mpr fun t ht => (h t ht).tidy

theorem record {fs : List (String × Ty)} (hsorted : Fields.Sorted fs) (h : ∀ f ∈ fs, f.2.Over vs) :
    Over vs (.record fs) where
  vars v hv := by
    rw [Ty.vars, varsFields_eq] at hv
    obtain ⟨f, hf, hv⟩ := List.mem_flatMap.mp hv
    exact (h f hf).vars v hv
  tidy := ⟨hsorted, (tidyFields_iff fs).mpr fun f hf => (h f hf).tidy⟩

theorem fn {ps : List Ty} {r : Ty} (k : Nat) (hps : ∀ t ∈ ps, t.Over vs) (hr : r.Over vs) :
    Over vs (.fn ps r k) where
  vars v hv := by
    rw [Ty.vars, varsList_eq] at hv
    rcases List.mem_append.mp hv with hv | hv
    · obtain ⟨t, ht, hv⟩ := List.mem_flatMap.mp hv
      exact (hps t ht).vars v hv
    · exact hr.vars v hv
  tidy := ⟨(tidyList_iff ps).mpr fun t ht => (hps t ht).tidy, hr.tidy⟩

end Over

end Ty

end Reified
