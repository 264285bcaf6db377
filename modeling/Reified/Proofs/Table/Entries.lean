import Mathlib.Tactic.ByContra
import Reified.Ty.Resolve

/-!
# Bindings of a table after a change

What each elementary change of a table does to its bindings, and how far a later rollback undoes it.

`undoLast` walks back along the trail. A change made while a snapshot is open puts one entry on the
trail that restores the table before the change exactly, so the tables one gets by walking back are
the tables the present one came from. Without an open snapshot nothing is noted.

## Main results

* `Table.binding?_setBinding`, `Table.binding?_setLevel`, … — bindings after a change
* `Table.undoLast_setBinding`, `Table.undoLast_setLevel` — one step back is the table before
* `Table.binding?_undoLast_congr` — walking back depends on bindings and trail only
-/

namespace Reified

/-- The variable that an entry of the trail is about. -/
def Undo.id : Undo → Nat
  | .binding id _ => id
  | .level id _ => id

namespace Table

variable {T T' : Table}

/-! ## Bindings -/

theorem binding?_of_size_le {id : Nat} (h : T.size ≤ id) : T.binding? id = none := by
  have : T.entries[id]? = none := Array.getElem?_eq_none h
  simp [binding?, this]

theorem lt_size_of_binding? {id : Nat} {t : Ty} (h : T.binding? id = some t) : id < T.size := by
  by_contra hlt
  rw [binding?_of_size_le (Nat.le_of_not_lt hlt)] at h
  exact absurd h (by simp)

theorem isBound_eq_false {id : Nat} : T.isBound id = false ↔ T.binding? id = none := by
  simp [isBound]

theorem isBound_eq_true {id : Nat} : T.isBound id = true ↔ ∃ t, T.binding? id = some t :=
  Option.isSome_iff_exists

@[simp] theorem size_note (u : Undo) : (T.note u).size = T.size := by
  unfold note; split <;> rfl

@[simp] theorem entries_note (u : Undo) : (T.note u).entries = T.entries := by
  unfold note; split <;> rfl

@[simp] theorem snapshots_note (u : Undo) : (T.note u).snapshots = T.snapshots := by
  unfold note; split <;> rfl

@[simp] theorem size_setBinding (id : Nat) (t : Ty) : (T.setBinding id t).size = T.size := by
  unfold setBinding
  split
  · simp [size]
  · rfl

@[simp] theorem size_setLevel (id level : Nat) : (T.setLevel id level).size = T.size := by
  unfold setLevel
  split
  · simp [size]
  · rfl

@[simp] theorem snapshots_setBinding (id : Nat) (t : Ty) :
    (T.setBinding id t).snapshots = T.snapshots := by
  unfold setBinding
  split
  · simp
  · rfl

@[simp] theorem snapshots_setLevel (id level : Nat) :
    (T.setLevel id level).snapshots = T.snapshots := by
  unfold setLevel
  split
  · simp
  · rfl

theorem binding?_setBinding {id : Nat} (h : id < T.size) (t : Ty) (w : Nat) :
    (T.setBinding id t).binding? w = if w = id then some t else T.binding? w := by
  simp only [setBinding, if_pos h, binding?, entries_note, Array.getElem?_modify]
  by_cases hw : w = id
  · subst hw
    have hlt : w < T.entries.size := h
    simp [Array.getElem?_eq_getElem hlt]
  · simp [hw, Ne.symm hw]

theorem binding?_setLevel (id level w : Nat) :
    (T.setLevel id level).binding? w = T.binding? w := by
  unfold setLevel
  split
  · simp only [binding?, entries_note, Array.getElem?_modify]
    by_cases hw : id = w
    · subst hw
      cases T.entries[id]? <;> simp
    · simp [hw]
  · rfl

theorem binding?_generalize (id w : Nat) : (T.generalize id).binding? w = T.binding? w := by
  simp only [generalize, binding?, Array.getElem?_modify]
  by_cases hw : id = w
  · subst hw
    cases T.entries[id]? <;> simp
  · simp [hw]

theorem binding?_newVar (name : String) (inferred rigid : Bool) (level w : Nat) :
    (T.newVar name inferred rigid level).2.binding? w = T.binding? w := by
  simp only [newVar, binding?, Array.getElem?_push]
  by_cases hw : w = T.entries.size
  · simp [hw]
  · simp [hw]

@[simp] theorem size_newVar (name : String) (inferred rigid : Bool) (level : Nat) :
    (T.newVar name inferred rigid level).2.size = T.size + 1 := by
  simp [newVar, size]

@[simp] theorem size_generalize (id : Nat) : (T.generalize id).size = T.size := by
  simp [generalize, size]

/-! ## Walking back -/

@[simp] theorem size_undo (u : Undo) : (T.undo u).size = T.size := by
  cases u <;> simp [undo, size]

@[simp] theorem trail_undo (u : Undo) : (T.undo u).trail = T.trail := by
  cases u <;> rfl

@[simp] theorem snapshots_undo (u : Undo) : (T.undo u).snapshots = T.snapshots := by
  cases u <;> rfl

theorem undoLast_of_empty (h : T.trail = #[]) (n : Nat) : T.undoLast n = T := by
  cases n <;> simp [undoLast, h]

@[simp] theorem size_undoLast (n : Nat) : (T.undoLast n).size = T.size := by
  induction n generalizing T with
  | zero => rfl
  | succ n ih =>
    unfold undoLast
    split
    · rw [ih, size_undo]; rfl
    · rfl

@[simp] theorem snapshots_undoLast (n : Nat) : (T.undoLast n).snapshots = T.snapshots := by
  induction n generalizing T with
  | zero => rfl
  | succ n ih =>
    unfold undoLast
    split
    · rw [ih, snapshots_undo]
    · rfl

theorem mem_of_mem_pop {us : Array Undo} {u : Undo} (h : u ∈ us.pop) : u ∈ us := by
  obtain ⟨i, hi, rfl⟩ := Array.mem_iff_getElem.mp h
  rw [Array.getElem_pop]
  exact Array.getElem_mem _

theorem mem_trail_of_undoLast {n : Nat} {u : Undo} (h : u ∈ (T.undoLast n).trail) :
    u ∈ T.trail := by
  induction n generalizing T with
  | zero => exact h
  | succ n ih =>
    unfold undoLast at h
    split at h
    · have hm := ih h
      rw [trail_undo] at hm
      exact mem_of_mem_pop hm
    · exact h

theorem undoLast_add (m n : Nat) : (T.undoLast m).undoLast n = T.undoLast (m + n) := by
  induction m generalizing T with
  | zero => simp [undoLast]
  | succ m ih =>
    rw [Nat.add_right_comm, undoLast, undoLast]
    cases h : T.trail.back? with
    | some u => exact ih
    | none => exact undoLast_of_empty (by simpa using h) n

/-- A change that is noted is undone by one step back. -/
theorem undoLast_push {u : Undo} (h : T'.trail = T.trail.push u)
    (hu : ({ T' with trail := T.trail } : Table).undo u = T) (n : Nat) :
    T'.undoLast (n + 1) = T.undoLast n := by
  rw [undoLast, h, Array.back?_push]
  simp only [Array.pop_push]
  rw [hu]

theorem entries_undo_setBinding {id : Nat} (h : id < T.size) (t : Ty) :
    (T.entries.modify id fun e => { e with binding := some t }).modify id
      (fun e => { e with binding := T.binding? id }) = T.entries := by
  refine Array.ext_getElem? fun i => ?_
  simp only [Array.getElem?_modify]
  by_cases hi : id = i
  · subst hi
    have hlt : id < T.entries.size := h
    simp [binding?, Array.getElem?_eq_getElem hlt]
  · simp [hi]

theorem entries_undo_setLevel {id : Nat} (h : id < T.size) (level : Nat) :
    (T.entries.modify id fun e => { e with level := level }).modify id
      (fun e => { e with level := T.level id }) = T.entries := by
  refine Array.ext_getElem? fun i => ?_
  simp only [Array.getElem?_modify]
  by_cases hi : id = i
  · subst hi
    have hlt : id < T.entries.size := h
    simp [Table.level, Array.getElem?_eq_getElem hlt]
  · simp [hi]

/-- One step back from a new binding is the table before it. -/
theorem undoLast_setBinding {id : Nat} (h : id < T.size) (hs : 0 < T.snapshots) (t : Ty) (n : Nat) :
    (T.setBinding id t).undoLast (n + 1) = T.undoLast n := by
  refine undoLast_push (u := .binding id (T.binding? id)) ?_ ?_ n
  · simp [setBinding, h, note, hs]
  · simp only [setBinding, if_pos h, note, if_pos hs, undo]
    rw [entries_undo_setBinding h]

/-- One step back from a new level is the table before it. -/
theorem undoLast_setLevel {id : Nat} (h : id < T.size) (hs : 0 < T.snapshots) (level n : Nat) :
    (T.setLevel id level).undoLast (n + 1) = T.undoLast n := by
  refine undoLast_push (u := .level id (T.level id)) ?_ ?_ n
  · simp [setLevel, h, note, hs]
  · simp only [setLevel, if_pos h, note, if_pos hs, undo]
    rw [entries_undo_setLevel h]

theorem binding?_undo {id : Nat} {u : Undo} (hid : u.id < T.size) :
    (T.undo u).binding? id = match u with
      | .binding v previous => if id = v then previous else T.binding? id
      | .level _ _ => T.binding? id := by
  cases u with
  | binding v previous =>
    have hlt : v < T.entries.size := hid
    simp only [undo, binding?, Array.getElem?_modify]
    by_cases h : v = id
    · subst h
      simp [Array.getElem?_eq_getElem hlt]
    · simp [h, Ne.symm h]
  | level v previous =>
    simp only [undo, binding?, Array.getElem?_modify]
    by_cases h : v = id
    · subst h
      cases T.entries[v]? <;> simp
    · simp [h]

/-- **Walking back depends on bindings and trail only.** Levels, marks of generalization, open
snapshots and variables that the trail does not mention make no difference to the bindings. -/
theorem binding?_undoLast_congr (ht : T'.trail = T.trail) (hid : ∀ u ∈ T.trail, u.id < T.size)
    (hsize : T.size ≤ T'.size) (hb : ∀ id, T'.binding? id = T.binding? id) (n id : Nat) :
    (T'.undoLast n).binding? id = (T.undoLast n).binding? id := by
  induction n generalizing T T' with
  | zero => exact hb id
  | succ n ih =>
    rw [undoLast, undoLast, ht]
    cases h : T.trail.back? with
    | none => exact hb id
    | some u =>
      have hu : u.id < T.size := hid u (Array.mem_of_back? h)
      refine ih (by simp) (fun w hw => ?_) (by rw [size_undo, size_undo]; exact hsize) fun id => ?_
      · rw [trail_undo] at hw
        rw [size_undo]
        exact hid w (mem_of_mem_pop hw)
      · rw [binding?_undo (T := { T' with trail := T.trail.pop }) (Nat.lt_of_lt_of_le hu hsize),
          binding?_undo (T := { T with trail := T.trail.pop }) hu]
        cases u with
        | binding v previous => exact ite_congr rfl (fun _ => rfl) fun _ => hb id
        | level v previous => exact hb id

end Table

end Reified
