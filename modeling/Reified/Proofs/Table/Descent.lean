import Reified.Proofs.Table.Changes
import Reified.Proofs.Table.Meeting

/-!
# Lookups as recursions

Looking for a representative, resolving a type at every depth and the occurs check are defined with a bound on
the number of bindings that they go through on each path. Each of them stands for a recursion without one:
from a bound variable to the type it is bound to, and from a type to its parts. The first gets closer to the
end of the bindings, and the others make what the type stands for smaller, which no shortcut and no level
changes.

## Main definitions

* `Ty.parts`, `Ty.withParts` — what a type is made of, and a type made of something else
* `Table.followBody`, `Table.deepBody`, `Table.occursBody` — the recursions

## Main results

* `Table.returns_resolve`, `Table.returns_resolveDeep`, `Table.returns_occurs` — they return what the bounded
  lookups compute
-/

namespace Reified

/-! ## Parts -/

namespace Ty

/-- The types that a type is made of directly, from left to right. -/
def parts : Ty → List Ty
  | .var _ | .name _ => []
  | .array t | .binding _ t => [t]
  | .tuple ts => ts
  | .record fs => fs.map Prod.snd
  | .fn ps r _ => ps ++ [r]
  | .union a b => [a, b]

/-- The type made of other parts. -/
def withParts : Ty → List Ty → Ty
  | .array _, [t] => .array t
  | .binding n _, [t] => .binding n t
  | .tuple _, ts => .tuple ts
  | .record fs, ts => .record ((fs.map Prod.fst).zip ts)
  | .fn _ r k, ts => .fn ts.dropLast (ts.getLast?.getD r) k
  | .union _ _, [a, b] => .union a b
  | t, _ => t

theorem part_of_mem_parts {c t : Ty} (h : c ∈ t.parts) : c.Part t := by
  cases t with
  | var v => cases h
  | name n => cases h
  | array t => exact List.mem_singleton.mp h ▸ .array
  | tuple ts => exact .tuple h
  | record fs =>
    obtain ⟨f, hf, rfl⟩ := List.mem_map.mp h
    exact .record hf
  | fn ps r k =>
    rcases List.mem_append.mp h with h | h
    · exact .param h
    · exact List.mem_singleton.mp h ▸ .result
  | union a b =>
    rcases List.mem_pair.mp h with rfl | rfl
    · exact .left
    · exact .right
  | binding n t => exact List.mem_singleton.mp h ▸ .inner

/-- The variables of a type other than a variable are those of its parts. -/
theorem vars_eq_flatMap_parts {t : Ty} (h : ∀ v, t ≠ .var v) : t.vars = t.parts.flatMap vars := by
  cases t with
  | var v => exact absurd rfl (h v)
  | record fs => simp [vars, parts, List.flatMap_map]
  | _ => simp [vars, parts]

end Ty

namespace Table

variable {T : Table} {rank : Nat → Nat}

/-! ## The recursions -/

/-- Look for the representative of a type. Each variable on the way is bound to the end. -/
def followBody : Ty × Table → Calling (Ty × Table) (Ty × Table)
  | (.var v, T) =>
    match T.binding? v.id with
    | none => .ret (.var v, T)
    | some (.var w) => .call (.var w, T) fun r =>
      .ret (if r.1 = .var w then r else (r.1, r.2.setBinding v.id r.1))
    | some s => .call (s, T) .ret
  | (t, T) => .ret (t, T)

/-- Call for each of the types in turn. -/
def collect : List Ty → Table → (List Ty → Table → Calling (Ty × Table) (Ty × Table)) →
    Calling (Ty × Table) (Ty × Table)
  | [], T, next => next [] T
  | t :: ts, T, next => .call (t, T) fun r => collect ts r.2 fun us T => next (r.1 :: us) T

/-- Resolve a type at every depth: the representative, and then its parts. -/
def deepBody : Ty × Table → Calling (Ty × Table) (Ty × Table)
  | (t, T) => collect (T.resolve t).1.parts (T.resolve t).2 fun us S =>
    .ret ((T.resolve t).1.withParts us, S)

/-- Call for each of the types in turn, until the answer is yes. -/
def anyOf : List Ty → Table → Calling (Ty × Table) (Bool × Table)
  | [], T => .ret (false, T)
  | t :: ts, T => .call (t, T) fun r => if r.1 then .ret r else anyOf ts r.2

/-- The occurs check: of the representative, if it is a variable, or else of its parts. -/
def occursBody (id level : Nat) : Ty × Table → Calling (Ty × Table) (Bool × Table)
  | (t, T) =>
    match T.resolve t with
    | (.var w, T) =>
      if w.id = id then .ret (true, T)
      else .ret (false, if level < T.level w.id then T.setLevel w.id level else T)
    | (t, T) => anyOf t.parts T

/-! ## Representatives -/

theorem returns_follow (hr : T.Ranks rank) {n : Nat} {v : TyVar} (hn : rank v.id ≤ n) :
    ∃ k, Calling.Returns followBody (followBody (.var v, T)) k (follow n T (.var v)) := by
  induction n generalizing v with
  | zero =>
    have hb : T.binding? v.id = none := by
      cases hb : T.binding? v.id with
      | none => rfl
      | some t => exact absurd (hr.bound _ _ hb) (by omega)
    rw [(finds_follow hr hn).unbound hb, followBody, hb]
    exact ⟨0, .ret _⟩
  | succ n ih =>
    rw [follow, followBody]
    cases hb : T.binding? v.id with
    | none => exact ⟨0, .ret _⟩
    | some s =>
      cases s with
      | var w =>
        have hlt := hr.lt _ _ hb w (by simp [Ty.vars])
        obtain ⟨k, hk⟩ := ih (v := w) (by omega)
        exact ⟨k + 0 + 1, .call hk (.ret _)⟩
      | _ => exact ⟨0 + 0 + 1, .call (.ret _) (.ret _)⟩

/-- **The search for a representative returns.** -/
theorem returns_resolve (hT : T.Acyclic) (t : Ty) :
    ∃ k, Calling.Returns followBody (followBody (t, T)) k (T.resolve t) := by
  obtain ⟨rank, hr⟩ := hT.exists_ranks
  cases t with
  | var v => exact returns_follow hr (hr.le_size v.id)
  | _ =>
    rw [resolve_of_not_var (by rintro v ⟨⟩)]
    exact ⟨0, .ret _⟩

/-! ## Deep types -/

section deep

variable {S : Table} {rule : TyVar → StateM Table Ty}

/-- The types of a list, one after the other, if it returns what the rule makes of each of them. -/
theorem returns_collect {ts : List Ty} (h : ∀ t ∈ ts, ∀ S, T.Steady S →
      (∃ k, Calling.Returns deepBody (deepBody (t, S)) k (t.replaceVarsM rule S)) ∧
        T.Steady (t.replaceVarsM rule S).2)
    (hS : T.Steady S) {next : List Ty → Table → Calling (Ty × Table) (Ty × Table)} {y : Ty × Table}
    (hnext : ∃ k, Calling.Returns deepBody
      (next (Ty.replaceListM rule ts S).1 (Ty.replaceListM rule ts S).2) k y) :
    ∃ k, Calling.Returns deepBody (collect ts S next) k y := by
  induction ts generalizing S next with
  | nil => exact hnext
  | cons t ts ih =>
    obtain ⟨⟨k, hk⟩, hsteady⟩ := h t (by simp) S hS
    have hrest : ∃ m, Calling.Returns deepBody (collect ts (t.replaceVarsM rule S).2
        fun us S' => next ((t.replaceVarsM rule S).1 :: us) S') m y :=
      ih (fun t ht => h t (List.mem_cons_of_mem _ ht)) hsteady hnext
    obtain ⟨m, hm⟩ := hrest
    exact ⟨k + m + 1, .call hk hm⟩

theorem replaceFieldsM_eq (fs : List (String × Ty)) (S : Table) : Ty.replaceFieldsM rule fs S =
    ((fs.map Prod.fst).zip (Ty.replaceListM rule (fs.map Prod.snd) S).1,
      (Ty.replaceListM rule (fs.map Prod.snd) S).2) := by
  induction fs generalizing S with
  | nil => rfl
  | cons f fs ih =>
    obtain ⟨name, t⟩ := f
    have h := ih (t.replaceVarsM rule S).2
    calc Ty.replaceFieldsM rule ((name, t) :: fs) S
        = ((name, (t.replaceVarsM rule S).1) :: (Ty.replaceFieldsM rule fs (t.replaceVarsM rule S).2).1,
            (Ty.replaceFieldsM rule fs (t.replaceVarsM rule S).2).2) := rfl
      _ = _ := by rw [h]; rfl

theorem replaceListM_append (ts us : List Ty) (S : Table) : Ty.replaceListM rule (ts ++ us) S =
    ((Ty.replaceListM rule ts S).1 ++ (Ty.replaceListM rule us (Ty.replaceListM rule ts S).2).1,
      (Ty.replaceListM rule us (Ty.replaceListM rule ts S).2).2) := by
  induction ts generalizing S with
  | nil => rfl
  | cons t ts ih =>
    have h := ih (t.replaceVarsM rule S).2
    calc Ty.replaceListM rule (t :: ts ++ us) S
        = ((t.replaceVarsM rule S).1 :: (Ty.replaceListM rule (ts ++ us) (t.replaceVarsM rule S).2).1,
            (Ty.replaceListM rule (ts ++ us) (t.replaceVarsM rule S).2).2) := rfl
      _ = _ := by rw [h]; rfl

/-- A traversal goes through the parts of a type. -/
theorem replaceVarsM_eq_withParts {t : Ty} (ht : ∀ v, t ≠ .var v) (S : Table) : t.replaceVarsM rule S =
    (t.withParts (Ty.replaceListM rule t.parts S).1, (Ty.replaceListM rule t.parts S).2) := by
  cases t with
  | var v => exact absurd rfl (ht v)
  | record fs =>
    calc (Ty.record fs).replaceVarsM rule S
        = (.record (Ty.replaceFieldsM rule fs S).1, (Ty.replaceFieldsM rule fs S).2) := rfl
      _ = _ := by rw [replaceFieldsM_eq]; rfl
  | fn ps r k =>
    have hlast (S : Table) : Ty.replaceListM rule [r] S =
        ([(r.replaceVarsM rule S).1], (r.replaceVarsM rule S).2) := rfl
    rw [Ty.parts, replaceListM_append, hlast, Ty.withParts, List.dropLast_concat, List.getLast?_concat]
    rfl
  | _ => rfl

theorem returns_deepen (hr : T.Ranks rank) (n : Nat) (t : Ty) {S : Table}
    (hn : ∀ w ∈ t.vars, rank w.id ≤ n) (hS : T.Steady S) :
    ∃ k, Calling.Returns deepBody (deepBody (t, S)) k (deepen (n + 1) t S) := by
  by_cases ht : ∃ v, t = .var v
  · obtain ⟨v, rfl⟩ := ht
    have hvr := finds_resolve (hS.acyclic hr.acyclic) v
    rw [deepBody, deepen, Ty.replaceVarsM, resolveVar_bind]
    generalize S.resolve (.var v) = r at hvr ⊢
    obtain ⟨u, S'⟩ := r
    dsimp only at hvr ⊢
    split
    · exact ⟨0, .ret _⟩
    · next hnot =>
      obtain ⟨s, hs⟩ := hvr.bound hnot
      have hranks := hS.same.ranks rank hr
      obtain ⟨m, rfl⟩ : ∃ m, n = m + 1 := by
        have h1 := hranks.bound _ _ hs
        have h2 := hn v (by simp [Ty.vars])
        exact ⟨n - 1, by omega⟩
      have h := returns_deepen hr m u (fun w hw => by
        have h1 := hvr.lt s hs rank hranks w hw
        have h2 := hn v (by simp [Ty.vars])
        omega) (hS.trans hvr.steady)
      rwa [deepBody, resolve_of_not_var hnot] at h
  · have hnot (v : TyVar) : t ≠ .var v := fun hv => ht ⟨v, hv⟩
    rw [deepBody, resolve_of_not_var hnot, deepen, replaceVarsM_eq_withParts hnot]
    refine returns_collect (fun c hc S hS => ?_) hS ⟨0, .ret _⟩
    have hpart : c.Part t := Ty.part_of_mem_parts hc
    have hn' : ∀ w ∈ c.vars, rank w.id ≤ n := fun w hw => hn w (hpart.vars_subset hw)
    have hlt : sizeOf c < sizeOf t := hpart.sizeOf_lt
    exact ⟨returns_deepen hr n c hn' hS,
      (steady_deepen hr (n := n + 1) (fun w hw => Nat.lt_succ_of_le (hn' w hw)) hS).2⟩
termination_by (n, sizeOf t)
decreasing_by
  · exact .left _ _ (by omega)
  · exact .right _ hlt

/-- **Resolving a type at every depth returns.** -/
theorem returns_resolveDeep (hT : T.Acyclic) (t : Ty) :
    ∃ k, Calling.Returns deepBody (deepBody (t, T)) k (T.resolveDeep t) := by
  obtain ⟨rank, hr⟩ := hT.exists_ranks
  exact returns_deepen hr T.size t (fun w _ => hr.le_size w.id) (.refl T)

end deep

/-! ## The occurs check -/

section occurs

variable {id level : Nat} {within : Ty → Table → Bool × Table}

theorem lowerUntil_append (vs ws : List TyVar) (S : Table) : lowerUntil id level within (vs ++ ws) S =
    if (lowerUntil id level within vs S).1 then lowerUntil id level within vs S
    else lowerUntil id level within ws (lowerUntil id level within vs S).2 := by
  induction vs generalizing S with
  | nil => rfl
  | cons v vs ih =>
    rw [List.cons_append, lowerUntil, lowerUntil]
    split
    · split
      · rfl
      · exact ih _
    · split
      · rfl
      · exact ih _

theorem returns_anyOf {ts : List Ty} {S : Table} (h : ∀ t ∈ ts, ∀ S, T.Steady S →
      (∃ k, Calling.Returns (occursBody id level) (occursBody id level (t, S)) k
        (lowerUntil id level within t.vars S)) ∧ T.Steady (lowerUntil id level within t.vars S).2)
    (hS : T.Steady S) : ∃ k, Calling.Returns (occursBody id level) (anyOf ts S) k
      (lowerUntil id level within (ts.flatMap Ty.vars) S) := by
  induction ts generalizing S with
  | nil => exact ⟨0, .ret _⟩
  | cons t ts ih =>
    obtain ⟨⟨k, hk⟩, hsteady⟩ := h t (by simp) S hS
    rw [List.flatMap_cons, lowerUntil_append]
    split
    · next hfound => exact ⟨k + 0 + 1, .call hk (by rw [if_pos hfound]; exact .ret _)⟩
    · next hfound =>
      obtain ⟨m, hm⟩ := ih (fun t ht => h t (List.mem_cons_of_mem _ ht)) hsteady
      exact ⟨k + m + 1, .call hk (by rw [if_neg hfound]; exact hm)⟩

/-- A variable alone: nothing is left to do after it. -/
theorem lowerUntil_single (v : TyVar) (S : Table) : lowerUntil id level within [v] S =
    match S.resolve (.var v) with
    | (.var w, S) =>
      if w.id = id then (true, S) else (false, if level < S.level w.id then S.setLevel w.id level else S)
    | (t, S) => within t S := by
  rw [lowerUntil]
  generalize S.resolve (.var v) = r
  obtain ⟨u, S'⟩ := r
  cases u with
  | var w => rfl
  | _ =>
    dsimp only
    split
    · next h => exact h.symm
    · next h => exact h.symm

theorem returns_occursWithin (hr : T.Ranks rank) (n : Nat) (t : Ty) {S : Table}
    (hn : ∀ w ∈ t.vars, rank w.id ≤ n) (hS : T.Steady S) :
    ∃ k, Calling.Returns (occursBody id level) (occursBody id level (t, S)) k
      (occursWithin id level (n + 1) t S) := by
  by_cases ht : ∃ v, t = .var v
  · obtain ⟨v, rfl⟩ := ht
    have hvr := finds_resolve (hS.acyclic hr.acyclic) v
    rw [occursBody, occursWithin, Ty.vars, lowerUntil_single]
    generalize S.resolve (.var v) = r at hvr ⊢
    obtain ⟨u, S'⟩ := r
    by_cases hu : ∃ w, u = .var w
    · obtain ⟨w, rfl⟩ := hu
      dsimp only
      split
      · exact ⟨0, .ret _⟩
      · exact ⟨0, .ret _⟩
    · have hnot (w : TyVar) : u ≠ .var w := fun hw => hu ⟨w, hw⟩
      obtain ⟨s, hs⟩ := hvr.bound hnot
      have hranks := hS.same.ranks rank hr
      obtain ⟨m, rfl⟩ : ∃ m, n = m + 1 := by
        have h1 := hranks.bound _ _ hs
        have h2 := hn v (by simp [Ty.vars])
        exact ⟨n - 1, by omega⟩
      have h := returns_occursWithin hr m u (fun w hw => by
        have h1 := hvr.lt s hs rank hranks w hw
        have h2 := hn v (by simp [Ty.vars])
        omega) (hS.trans hvr.steady)
      rw [occursBody, resolve_of_not_var hnot] at h
      cases u with
      | var w => exact absurd rfl (hnot w)
      | _ => exact h
  · have hnot (v : TyVar) : t ≠ .var v := fun hv => ht ⟨v, hv⟩
    have hparts : ∃ k, Calling.Returns (occursBody id level) (anyOf t.parts S) k
        (lowerUntil id level (occursWithin id level n) (t.parts.flatMap Ty.vars) S) :=
      returns_anyOf (fun c hc S hS => by
        have hpart : c.Part t := Ty.part_of_mem_parts hc
        have hn' : ∀ w ∈ c.vars, rank w.id ≤ n := fun w hw => hn w (hpart.vars_subset hw)
        have hlt : sizeOf c < sizeOf t := hpart.sizeOf_lt
        exact ⟨returns_occursWithin hr n c hn' hS, (checks_occursWithin hr (n := n + 1)
          (fun w hw => Nat.lt_succ_of_le (hn' w hw)) hS).2⟩) hS
    rw [occursBody, resolve_of_not_var hnot, occursWithin, Ty.vars_eq_flatMap_parts hnot]
    cases t with
    | var v => exact absurd rfl (hnot v)
    | _ => exact hparts
termination_by (n, sizeOf t)

/-- **The occurs check returns.** -/
theorem returns_occurs (hT : T.Acyclic) (id level : Nat) (t : Ty) :
    ∃ k, Calling.Returns (occursBody id level) (occursBody id level (t, T)) k (T.occurs id level t) := by
  obtain ⟨rank, hr⟩ := hT.exists_ranks
  exact returns_occursWithin hr T.size t (fun w _ => hr.le_size w.id) (.refl T)

end occurs

end Table

end Reified
