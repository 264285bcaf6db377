import Reified.Proofs.Table.Changes

/-!
# Known variables

Types are written over the variables that exist, and so are the types that variables are bound to. Marks
and the number of variables do not change but by the operations that change them.

## Main definitions

* `Table.Below` — a type over the first variables
* `Table.Known` — a table of the given number of variables, all of its types written over these

## Main results

* `Table.forall_vars_deep`, `Table.below_deep` — what remains in a type is known
* `Table.Known.lowering` — shortcuts and lowered levels keep a table known
-/

namespace Reified

namespace Table

variable {N : Nat} {marks : Nat → Bool} {T T' : Table}

/-- Only the first `N` variables occur in the type. -/
def Below (N : Nat) (t : Ty) : Prop := ∀ v ∈ t.vars, v.id < N

/-- A table of `N` variables in which no others occur, with the given marks. -/
structure Known (N : Nat) (marks : Nat → Bool) (T : Table) : Prop where
  acyclic : T.Acyclic
  size : T.size = N
  trail : ∀ u ∈ T.trail, u.id < N
  binding : ∀ id t, T.binding? id = some t → Below N t
  marks : ∀ id, T.isGeneralized id = marks id

theorem mem_trail_note {u u' : Undo} (h : u ∈ (T.note u').trail) : u ∈ T.trail ∨ u = u' := by
  unfold note at h
  split at h
  · exact Array.mem_push.mp h
  · exact .inl h

/-- A property of variables that passes from bound ones to their types passes to what remains. -/
theorem forall_vars_deep (hT : T.Acyclic) {P : TyVar → Prop}
    (hb : ∀ v t, P v → T.binding? v.id = some t → ∀ w ∈ t.vars, P w) {t : Ty}
    (ht : ∀ v ∈ t.vars, P v) : ∀ w ∈ (T.deep t).vars, P w := by
  obtain ⟨rank, hr⟩ := hT.exists_ranks
  -- by induction on a bound for the ranks of the variables of the type
  suffices key : ∀ n t, (∀ v ∈ t.vars, P v) → (∀ x ∈ t.vars, rank x.id < n) →
      ∀ w ∈ (T.deep t).vars, P w from
    key (T.size + 1) t ht fun x _ => Nat.lt_succ_of_le (hr.le_size _)
  intro n
  induction n with
  | zero =>
    intro t _ hn w hw
    rw [deep_eq_subst, Ty.mem_vars_subst] at hw
    obtain ⟨x, hx, -⟩ := hw
    exact absurd (hn x hx) (Nat.not_lt_zero _)
  | succ n ih =>
    intro t ht hn w hw
    rw [deep_eq_subst, Ty.mem_vars_subst] at hw
    obtain ⟨x, hx, hw⟩ := hw
    cases hbx : T.binding? x.id with
    | none =>
      rw [deep_var_of_unbound hbx] at hw
      exact List.eq_of_mem_singleton hw ▸ ht x hx
    | some s =>
      rw [deep_var_of_binding hT hbx] at hw
      refine ih s (hb x s (ht x hx) hbx) (fun y hy => ?_) w hw
      have h1 := hr.lt _ _ hbx y hy
      have h2 := hn x hx
      omega

/-- What remains is not new. -/
theorem below_deep (hT : T.Acyclic) (hb : ∀ id t, T.binding? id = some t → Below N t) {t : Ty}
    (ht : Below N t) : Below N (T.deep t) :=
  forall_vars_deep hT (P := fun v => v.id < N) (fun v t _ => hb v.id t) ht

namespace Known

theorem setBinding (h : Known N marks T) {id : Nat} {t : Ty} (hid : id < N) (ht : Below N t)
    (hacyclic : (T.setBinding id t).Acyclic) : Known N marks (T.setBinding id t) where
  acyclic := hacyclic
  size := (size_setBinding id t).trans h.size
  trail u hu := by
    rw [Table.setBinding, if_pos (h.size.symm ▸ hid)] at hu
    rcases mem_trail_note hu with hu | rfl
    · exact h.trail u hu
    · exact hid
  binding w u hw := by
    rw [binding?_setBinding (h.size.symm ▸ hid)] at hw
    split at hw
    · exact Option.some.inj hw ▸ ht
    · exact h.binding w u hw
  marks w := (isGeneralized_setBinding id t w).trans (h.marks w)

theorem setLevel (h : Known N marks T) {id : Nat} (hid : id < N) (level : Nat) :
    Known N marks (T.setLevel id level) where
  acyclic := h.acyclic.imp fun _ hr v t hv => hr v t (binding?_setLevel id level v ▸ hv)
  size := (size_setLevel id level).trans h.size
  trail u hu := by
    rw [Table.setLevel, if_pos (h.size.symm ▸ hid)] at hu
    rcases mem_trail_note hu with hu | rfl
    · exact h.trail u hu
    · exact hid
  binding w u hw := h.binding w u (binding?_setLevel id level w ▸ hw)
  marks w := (isGeneralized_setLevel id level w).trans (h.marks w)

theorem snapshot (h : Known N marks T) : Known N marks T.snapshot.2 where
  acyclic := h.acyclic
  size := h.size
  trail := h.trail
  binding := h.binding
  marks := h.marks

theorem commit (h : Known N marks T) : Known N marks T.commit := by
  unfold Table.commit close
  split
  · exact ⟨h.acyclic, h.size, fun u hu => absurd hu (Array.not_mem_empty u), h.binding, h.marks⟩
  · exact ⟨h.acyclic, h.size, h.trail, h.binding, h.marks⟩

theorem lowering (N : Nat) (marks : Nat → Bool) : Lowering (Known N marks) (Below N) where
  acyclic h := h.acyclic
  bound h _ := h.binding _ _
  var ht hv _ hw := List.eq_of_mem_singleton hw ▸ ht _ hv
  shortcut h _ ht hb _ hacyclic := h.setBinding (h.size ▸ lt_size_of_isBound hb) ht hacyclic
  lower h _ hlt := h.setLevel (h.size ▸ lt_size_of_lt_level hlt) _

theorem bind (h : Known N marks T) {v : TyVar} (hv : v.id < N) (hu : T.binding? v.id = none) {t : Ty}
    (ht : Below N t) : Known N marks (T.bind v t).table := by
  obtain ⟨hiff, hsteady⟩ := checks_occurs h.acyclic v.id (T.level v.id) t
  have hkeep := (lowering N marks).occurs h v.id (T.level v.id) ht
  unfold Table.bind
  generalize T.occurs v.id (T.level v.id) t = r at hiff hsteady hkeep ⊢
  obtain ⟨b, S⟩ := r
  cases b with
  | true => exact (lowering N marks).resolveDeep hkeep ht
  | false =>
    refine hkeep.setBinding hv ht (hkeep.acyclic.setBinding (hkeep.size.symm ▸ hv)
      (hsteady.same.unbound_iff.mpr hu) fun hreach => ?_)
    rw [Reaches, hsteady.same.deep] at hreach
    exact Bool.false_ne_true (hiff.mpr hreach)

end Known

end Table

end Reified
