import Reified.Machine.State

/-!
# Reading a heap that has changed

What environments and cells hold after a name is defined, an environment is made, or a cell is
written.
-/

namespace Reified

namespace Heap

variable {h : Heap} {c e : Nat} {name : String} {v : Value} {parent : Option Nat}

/-! ## Environments -/

theorem size_define : (h.define c name v).environments.size = h.environments.size := by
  rw [define, Array.size_modify]

theorem environment_define :
    (h.define c name v).environment e =
      if c = e ∧ e < h.environments.size then
        { h.environment e with values := Fields.insert name v (h.environment e).values }
      else h.environment e := by
  simp only [environment, define, Array.getD_eq_getD_getElem?, Array.getElem?_modify]
  by_cases hlt : e < h.environments.size
  · by_cases hc : c = e <;> simp [hc, hlt]
  · simp [hlt]

theorem parent?_define : (h.define c name v).parent? e = h.parent? e := by
  rw [parent?, environment_define, parent?]
  split <;> rfl

theorem size_newEnvironment :
    (h.newEnvironment parent).2.environments.size = h.environments.size + 1 := by
  rw [newEnvironment, Array.size_push]

theorem environment_newEnvironment_of_lt (he : e < h.environments.size) :
    (h.newEnvironment parent).2.environment e = h.environment e := by
  simp only [environment, newEnvironment, Array.getD_eq_getD_getElem?]
  rw [Array.getElem?_push_lt he, Array.getElem?_eq_getElem he]

theorem environment_newEnvironment_self :
    (h.newEnvironment parent).2.environment h.environments.size = ⟨[], parent⟩ := by
  simp only [environment, newEnvironment, Array.getD_eq_getD_getElem?, Array.getElem?_push_size,
    Option.getD_some]

/-! ## Cells -/

variable {w : Value} {c' i : Nat} {items : Array Value} {fields : Fields Value}

theorem mem_list_push (hw : w ∈ (h.lists.push items).getD c' #[]) :
    w ∈ h.list c' ∨ w ∈ items := by
  rw [list]
  rw [Array.getD_eq_getD_getElem?] at hw ⊢
  rw [Array.getElem?_push] at hw
  split at hw
  · exact .inr hw
  · exact .inl hw

theorem size_list_push :
    (h.list c').size ≤ ((h.lists.push items).getD c' #[]).size := by
  rw [list, Array.getD_eq_getD_getElem?, Array.getD_eq_getD_getElem?, Array.getElem?_push]
  split
  next heq =>
    rw [heq, Array.getElem?_eq_none (Nat.le_refl _)]
    exact Nat.zero_le _
  next => exact Nat.le_refl _

theorem size_list_setItem : (h.list c').size ≤ ((h.setItem c i v).list c').size := by
  rw [list, list, Array.getD_eq_getD_getElem?, Array.getD_eq_getD_getElem?, setItem]
  simp only [Array.getElem?_modify]
  split
  next =>
    cases h.lists[c']? with
    | none => exact Nat.le_refl _
    | some xs =>
      simp only [Option.map_some, Option.getD_some, Array.size_setIfInBounds, Array.size_append]
      exact Nat.le_add_right _ _
  next => exact Nat.le_refl _

theorem mem_list_setItem (hw : w ∈ (h.setItem c i v).list c') :
    w ∈ h.list c' ∨ w = .unit ∨ w = v := by
  rw [list, Array.getD_eq_getD_getElem?] at hw ⊢
  rw [setItem] at hw
  simp only [Array.getElem?_modify] at hw
  split at hw
  next heq =>
    cases hl : h.lists[c']? with
    | none =>
      rw [hl] at hw
      simp at hw
    | some xs =>
      rw [hl] at hw
      simp only [Option.map_some, Option.getD_some] at hw ⊢
      rcases Array.mem_or_eq_of_mem_setIfInBounds hw with hmem | heq
      · rw [Array.mem_append, Array.mem_replicate] at hmem
        rcases hmem with hmem | ⟨-, heq⟩
        · exact .inl hmem
        · exact .inr (.inl heq)
      · exact .inr (.inr heq)
  next => exact .inl hw

theorem get?_object_push (hw : Fields.get? name ((h.objects.push fields).getD c' []) = some w) :
    Fields.get? name (h.object c') = some w ∨ Fields.get? name fields = some w := by
  rw [object]
  rw [Array.getD_eq_getD_getElem?] at hw ⊢
  rw [Array.getElem?_push] at hw
  split at hw
  · exact .inr hw
  · exact .inl hw

theorem get?_object_setField {x : String}
    (hw : Fields.get? x ((h.setField c name v).object c') = some w) :
    Fields.get? x (h.object c') = some w ∨ w = v := by
  rw [object, Array.getD_eq_getD_getElem?] at hw ⊢
  rw [setField] at hw
  simp only [Array.getElem?_modify] at hw
  split at hw
  next =>
    cases hl : h.objects[c']? with
    | none =>
      rw [hl] at hw
      cases hw
    | some fs =>
      rw [hl] at hw
      simp only [Option.map_some, Option.getD_some] at hw ⊢
      by_cases hx : x = name
      · rw [hx, Fields.get?_insert_self] at hw
        cases hw
        exact .inr rfl
      · rw [Fields.get?_insert_of_ne hx] at hw
        exact .inl hw
  next => exact .inl hw

end Heap

end Reified
