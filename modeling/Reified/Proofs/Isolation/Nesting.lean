import Mathlib.Logic.Function.Basic
import Reified.Proofs.Isolation.Heap

/-!
# How deep values are nested

The text and the type of a value are found by following the cells of arrays, tuples and objects, through at most
as many as there are. That bound depends on the heap, so a heap behind another one allows more steps. It makes no
difference, since no value contains itself: cells are only filled while nothing else mentions them. The
completed cells come before the ones that hold them, and so there is an order of all cells in which every cell
comes behind those that it holds.

## Main definitions

* `Cell`, `Value.cell?`, `Heap.Holds` — the cells that can be nested
* `Heap.Ranked` — an order of the cells
* `Value.rename`, `Heap.rename` — the same cells with other numbers of variables

## Main results

* `Heap.Ranked.create`, `Heap.Ranked.fill` — the order after a cell has been created or filled
* `Heap.text_behind` — the text of a moved value
-/

namespace Reified

/-! ## Cells -/

/-- A cell that can hold others: that of an array or a tuple, or that of an object. -/
inductive Cell where
  | list (c : Nat)
  | object (c : Nat)
  deriving DecidableEq

/-- The cell of a value, if it can hold others. -/
def Value.cell? : Value → Option Cell
  | .array c | .tuple c => some (.list c)
  | .object c => some (.object c)
  | _ => none

/-- The value is nested less than `n` deep, as the order of cells says. -/
def Value.Nests (rank : Cell → Nat) (n : Nat) (v : Value) : Prop := ∀ c, v.cell? = some c → rank c < n

namespace Heap

/-- The cell is there. -/
def Has (h : Heap) : Cell → Prop
  | .list c => c < h.lists.size
  | .object c => c < h.objects.size

/-- The cell holds the value. -/
def Holds (h : Heap) : Cell → Value → Prop
  | .list c, v => v ∈ h.list c
  | .object c, v => ∃ name, (name, v) ∈ h.object c

/-- The number of cells that can hold others. -/
def cells (h : Heap) : Nat := h.lists.size + h.objects.size

/-- All values that can be read from cells and environments have the property. -/
structure All (P : Value → Prop) (h : Heap) : Prop where
  holds : ∀ {c v}, h.Holds c v → P v
  environments : ∀ e, ∀ f ∈ (h.environment e).values, P f.2

/-- An order of the cells in which every cell comes behind those that it holds. -/
structure Ranked (h : Heap) (rank : Cell → Nat) : Prop where
  lt : ∀ {c v c'}, h.Holds c v → v.cell? = some c' → rank c' < rank c
  bound : ∀ {c}, h.Has c → rank c < h.cells
  inj : ∀ {c c'}, h.Has c → h.Has c' → rank c = rank c' → c = c'

variable {h h' : Heap} {N n : Nat} {v : Value} {c : Cell} {rank : Cell → Nat} {P Q : Value → Prop}

theorem All.imp (hh : h.All P) (hPQ : ∀ v, P v → Q v) : h.All Q :=
  ⟨fun hv => hPQ _ (hh.holds hv), fun e f hf => hPQ _ (hh.environments e f hf)⟩

theorem has_of_cell? (hv : v.Within (h.extent N)) (hc : v.cell? = some c) : h.Has c := by
  cases v <;> cases hc <;> exact hv

theorem depth_eq (h : Heap) : h.depth = h.cells + 1 := rfl

theorem Ranked.nests (hr : h.Ranked rank) (hv : v.Within (h.extent N)) : v.Nests rank h.depth := fun _ hc =>
  Nat.lt_succ_of_lt (hr.bound (has_of_cell? hv hc))

theorem Ranked.nests_of_holds (hr : h.Ranked rank) (hn : rank c < n + 1) (hv : h.Holds c v) :
    v.Nests rank n := fun _ hc => Nat.lt_of_lt_of_le (hr.lt hv hc) (Nat.le_of_lt_succ hn)

/-! ### Changes of the order -/

/-- **A new cell** comes behind all others. -/
theorem Ranked.create (hr : h.Ranked rank) {new : Cell} (hnew : ¬h.Has new)
    (hhas : ∀ c, h'.Has c → h.Has c ∨ c = new) (hcells : h'.cells = h.cells + 1)
    (hholds : ∀ c v, h'.Holds c v → h.Holds c v ∧ h.Has c ∨ c = new)
    (hknown : ∀ c v c', h'.Holds c v → v.cell? = some c' → h.Has c') :
    h'.Ranked (Function.update rank new h.cells) := by
  have hold {c : Cell} (hc : h.Has c) : Function.update rank new h.cells c = rank c :=
    Function.update_of_ne (by rintro rfl; exact hnew hc) _ _
  have hself : Function.update rank new h.cells new = h.cells := Function.update_self _ _ _
  refine ⟨fun {c v c'} hv hc => ?_, fun {c} hc => ?_, fun {c c'} hc hc' heq => ?_⟩
  · have hc' := hknown c v c' hv hc
    rw [hold hc']
    rcases hholds c v hv with ⟨hv, hin⟩ | rfl
    · rw [hold hin]
      exact hr.lt hv hc
    · rw [hself]
      exact hr.bound hc'
  · rcases hhas c hc with hc | rfl
    · have := hr.bound hc
      rw [hold hc]
      omega
    · rw [hself]
      omega
  · rcases hhas c hc with hc | rfl <;> rcases hhas c' hc' with hc' | rfl
    · rw [hold hc, hold hc'] at heq
      exact hr.inj hc hc' heq
    · rw [hold hc, hself] at heq
      exact absurd (hr.bound hc) (by omega)
    · rw [hself, hold hc'] at heq
      exact absurd (hr.bound hc') (by omega)
    · rfl

/-- The order with one cell behind all others. -/
def raise (rank : Cell → Nat) (last : Nat) (c x : Cell) : Nat :=
  if x = c then last else if rank c < rank x then rank x - 1 else rank x

/-- **Filling a cell** that no cell holds. It then comes behind all others. -/
theorem Ranked.fill (hr : h.Ranked rank) (hc : h.Has c) (hfree : ∀ b v, h.Holds b v → v.cell? ≠ some c)
    (hhas : ∀ b, h'.Has b ↔ h.Has b) (hcells : h'.cells = h.cells)
    (hholds : ∀ b v, h'.Holds b v → h.Holds b v ∧ h.Has b ∨ b = c ∧ v.cell? ≠ some c)
    (hknown : ∀ b v c', h'.Holds b v → v.cell? = some c' → h.Has c') :
    h'.Ranked (raise rank (h.cells - 1) c) := by
  have hne {x : Cell} (hx : h.Has x) (hxc : x ≠ c) : rank x ≠ rank c := fun heq => hxc (hr.inj hx hc heq)
  have hlast {x : Cell} (hx : h.Has x) (hxc : x ≠ c) : raise rank (h.cells - 1) c x < h.cells - 1 := by
    have h₁ := hr.bound hx
    have h₂ := hr.bound hc
    have h₃ := hne hx hxc
    rw [raise, if_neg hxc]
    split <;> omega
  have hself : raise rank (h.cells - 1) c c = h.cells - 1 := if_pos rfl
  have hpos := hr.bound hc
  refine ⟨fun {b v c'} hv hcell => ?_, fun {x} hx => ?_, fun {x y} hx hy heq => ?_⟩
  · have hc' := hknown b v c' hv hcell
    have hc'c : c' ≠ c := by
      rintro rfl
      rcases hholds b v hv with ⟨hv, -⟩ | ⟨-, hv⟩
      · exact hfree b v hv hcell
      · exact hv hcell
    by_cases hb : b = c
    · rw [hb, hself]
      exact hlast hc' hc'c
    · obtain ⟨hv, hin⟩ := (hholds b v hv).resolve_right fun h => hb h.1
      have h₁ := hr.lt hv hcell
      have h₂ := hne hin hb
      have h₃ := hne hc' hc'c
      rw [raise, if_neg hc'c, raise, if_neg hb]
      split <;> split <;> omega
  · have hx := (hhas x).mp hx
    rw [hcells]
    by_cases hxc : x = c
    · rw [hxc, hself]
      omega
    · have := hlast hx hxc
      omega
  · have hx := (hhas x).mp hx
    have hy := (hhas y).mp hy
    by_cases hxc : x = c <;> by_cases hyc : y = c
    · rw [hxc, hyc]
    · have := hlast hy hyc
      rw [hxc, hself] at heq
      omega
    · have := hlast hx hxc
      rw [hyc, hself] at heq
      omega
    · refine hr.inj hx hy ?_
      have h₁ := hne hx hxc
      have h₂ := hne hy hyc
      rw [raise, if_neg hxc, raise, if_neg hyc] at heq
      split at heq <;> split at heq <;> omega

/-! ## The text of a value -/

end Heap

/-- The value with other numbers for the variables of its type. -/
def Value.rename (d : Nat) : Value → Value
  | .type t => .type (t.shift d)
  | v => v

namespace Heap

variable {h H : Heap} {d N n n' : Nat} {v : Value} {rank : Cell → Nat}

/-- The heap with other numbers for the variables of the types in it. -/
def rename (d : Nat) (h : Heap) : Heap :=
  { h with
    lists := h.lists.map fun items => items.map (Value.rename d)
    objects := h.objects.map fun fs => fs.map fun f => (f.1, f.2.rename d) }

theorem list_rename (c : Nat) : (h.rename d).list c = (h.list c).map (Value.rename d) := by
  simp only [list, rename, Array.getD_eq_getD_getElem?, Array.getElem?_map]
  cases h.lists[c]? <;> simp

theorem object_rename (c : Nat) : (h.rename d).object c = (h.object c).map fun f => (f.1, f.2.rename d) := by
  simp only [object, rename, Array.getD_eq_getD_getElem?, Array.getElem?_map]
  cases h.objects[c]? <;> rfl

/-- The text of a value is found in any number of steps that is larger than its rank. -/
theorem textWithin_behind (hr : h.Ranked rank) (hh : h.All (Value.Within (h.extent N)))
    (hv : v.Within (h.extent N)) (hn : v.Nests rank n) (hn' : v.Nests rank n') :
    (h.behind H d).textWithin n' (v.move (H.extent d)) = (h.rename d).textWithin n (v.rename d) := by
  induction n generalizing n' v with
  | zero =>
    cases v with
    | array c | tuple c | object c => exact absurd (hn _ rfl) (Nat.not_lt_zero _)
    | function c => simp only [textWithin.eq_def, Value.move, Value.rename, closure_behind hv]; rfl
    | _ => cases n' <;> rfl
  | succ n ih =>
    have hitems {c : Cell} (hc : v.cell? = some c) {w : Value} {m : Nat} (hm : n' = m + 1) (hw : h.Holds c w) :
        (h.behind H d).textWithin m (w.move (H.extent d)) = (h.rename d).textWithin n (w.rename d) :=
      ih (hh.holds hw) (hr.nests_of_holds (hn c hc) hw) (hr.nests_of_holds (hm ▸ hn' c hc) hw)
    have hpos {c : Cell} (hc : v.cell? = some c) : ∃ m, n' = m + 1 :=
      Nat.exists_eq_succ_of_ne_zero (by have := hn' c hc; omega)
    cases v with
    | array c =>
      obtain ⟨m, rfl⟩ := hpos rfl
      simp only [textWithin, Value.move, Value.rename, list_behind, list_rename, Array.toList_map, List.map_map]
      congr 3
      exact List.map_congr_left fun w hw => hitems rfl rfl (c := .list c) (Array.mem_toList_iff.mp hw)
    | tuple c =>
      obtain ⟨m, rfl⟩ := hpos rfl
      simp only [textWithin, Value.move, Value.rename, list_behind, list_rename, Array.toList_map, List.map_map]
      congr 3
      exact List.map_congr_left fun w hw => hitems rfl rfl (c := .list c) (Array.mem_toList_iff.mp hw)
    | object c =>
      obtain ⟨m, rfl⟩ := hpos rfl
      simp only [textWithin, Value.move, Value.rename, object_behind, object_rename, Fields.move, List.map_map]
      congr 3
      refine List.map_congr_left fun f hf => ?_
      exact congrArg (f.1 ++ ": " ++ ·) (hitems rfl rfl (c := .object c) ⟨f.1, hf⟩)
    | function c => simp only [textWithin.eq_def, Value.move, Value.rename, closure_behind hv]; rfl
    | _ => cases n' <;> rfl

/-- **The text of a moved value** is its text with other numbers for variables. -/
theorem text_behind (hr : h.Ranked rank) (hh : h.All (Value.Within (h.extent N)))
    (hv : v.Within (h.extent N)) :
    (h.behind H d).text (v.move (H.extent d)) = (h.rename d).text (v.rename d) := by
  have hnests := hr.nests hv
  have hdepth : (h.rename d).depth = h.depth := by simp [depth, rename]
  have hle : h.depth ≤ (h.behind H d).depth := by simp [depth, behind]; omega
  rw [text, text, hdepth]
  exact textWithin_behind hr hh hv hnests fun c hc => (hnests c hc).trans_le hle

end Heap

end Reified
