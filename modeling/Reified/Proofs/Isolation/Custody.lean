import Reified.Proofs.Isolation.Filling
import Reified.Proofs.Isolation.Nesting
import Reified.Proofs.Machine.Sound

/-!
# Who holds a cell under construction

While a cell is under construction, only one register holds it: no other register, no cell and no environment
mentions it. Therefore no value can come to contain itself when the cell is filled.

For each cell it is known which register that is, if there is one. This is forgotten when the cell is complete.
The other values are settled: everybody may mention them.

## Main definitions

* `Owners`, `Value.Settled` — who holds cells under construction
* `Heap.Kept` — all values in the heap are settled
* `Registers.Kept` — and so are those in registers without cells under construction

## Main results

* `Heap.Kept.define`, `Heap.Kept.newArray`, `Heap.Kept.setItem`, … — what happens to the heap
* `Registers.Kept.set`, `Registers.Kept.create`, `Registers.Kept.release` — what happens to registers
-/

namespace Reified

/-- The register that holds a cell under construction, by the number of callers of its block and its index. -/
abbrev Owners := Cell → Option (Nat × Nat)

namespace Owners

/-- The cells that registers of a block other than these were holding are complete. -/
def release (owners : Owners) (k : Nat) (S : List Nat) : Owners := fun c =>
  (owners c).filter fun o => decide (o.1 = k → o.2 ∈ S)

variable {owners : Owners} {k : Nat} {S : List Nat} {c : Cell}

theorem release_of_none (h : owners c = none) : owners.release k S c = none := by
  rw [release, h]
  rfl

theorem release_of_some {o : Nat × Nat} (h : owners c = some o) (ho : o.1 = k → o.2 ∈ S) :
    owners.release k S c = some o := by
  rw [release, h, Option.filter_some, if_pos (decide_eq_true ho)]

theorem release_self {i : Nat} (h : owners c = some (k, i)) (hi : i ∉ S) :
    owners.release k S c = none := by
  have hne : ¬(k = k → i ∈ S) := fun h => hi (h rfl)
  rw [release, h, Option.filter_some, if_neg (by simpa using hne)]

end Owners

namespace Value

variable {n n' : Extent} {owners owners' : Owners} {v : Value}

/-- The value is there and not under construction. -/
structure Settled (n : Extent) (owners : Owners) (v : Value) : Prop where
  within : v.Within n
  free : ∀ c, v.cell? = some c → owners c = none

theorem Settled.mono (hv : v.Settled n owners) (hle : n ≤ n') : v.Settled n' owners :=
  ⟨hv.within.mono hle, hv.free⟩

theorem Settled.release (hv : v.Settled n owners) (k : Nat) (S : List Nat) :
    v.Settled n (owners.release k S) :=
  ⟨hv.within, fun c hc => Owners.release_of_none (hv.free c hc)⟩

/-- A value without a cell that can be filled. -/
theorem settled_of_cell?_eq_none (hv : v.Within n) (hcell : v.cell? = none) : v.Settled n owners :=
  ⟨hv, fun _ hc => absurd (hcell.symm.trans hc) nofun⟩

theorem settled_type {t : Ty} (ht : Table.Below n.vars t) : (type t).Settled n owners :=
  settled_of_cell?_eq_none ht rfl

end Value

/-! ## The heap -/

namespace Heap

open Value

variable {h h' : Heap} {owners : Owners} {o : Option (Nat × Nat)} {N N' : Nat} {v w : Value} {c : Cell}
  {e i : Nat} {name : String} {rank : Cell → Nat}

theorem Holds.has (hv : h.Holds c v) : h.Has c := by
  cases c with
  | list c =>
    by_contra hc
    have hc : h.lists.size ≤ c := Nat.not_lt.mp hc
    simp [Holds, list, Array.getD_eq_getD_getElem?, hc] at hv
  | object c =>
    by_contra hc
    have hc : h.objects.size ≤ c := Nat.not_lt.mp hc
    simp [Holds, object, Array.getD_eq_getD_getElem?, hc] at hv

/-- All values in the heap are settled, and it is in order otherwise: functions have types over the variables
that there are, no value contains itself, and the global names are the operators. -/
structure Kept (owners : Owners) (N : Nat) (h : Heap) : Prop where
  values : h.All (Settled (h.extent N) owners)
  closures : ∀ c < h.closures.size, Table.Below N (h.closure c).signature ∧
    (h.closure c).block.Everywhere Block.IsFilling
  order : ∃ rank, h.Ranked rank
  owned : ∀ c, owners c ≠ none → h.Has c
  known : 0 < h.environments.size
  root : h.environment 0 = Machine.initial.heap.environment 0

namespace Kept

variable (hh : h.Kept owners N)

include hh

theorem mono (hN : N ≤ N') : h.Kept owners N' where
  values := hh.values.imp fun _ hv => hv.mono (extent_le hN)
  closures c hc := ⟨fun w hw => Nat.lt_of_lt_of_le ((hh.closures c hc).1 w hw) hN, (hh.closures c hc).2⟩
  order := hh.order
  owned := hh.owned
  known := hh.known
  root := hh.root

theorem release (k : Nat) (S : List Nat) : h.Kept (owners.release k S) N where
  values := hh.values.imp fun _ hv => hv.release k S
  closures := hh.closures
  order := hh.order
  owned c hc := hh.owned c fun hnone => hc (Owners.release_of_none hnone)
  known := hh.known
  root := hh.root

/-! ### Reading -/

theorem item {cell : Nat} (hv : (h.list cell)[i]? = some v) : v.Settled (h.extent N) owners :=
  hh.values.holds (c := .list cell) (Array.mem_of_getElem? hv)

theorem field {cell : Nat} (hv : Fields.get? name (h.object cell) = some v) :
    v.Settled (h.extent N) owners :=
  hh.values.holds (c := .object cell) ⟨name, Fields.mem_of_get?_eq_some hv⟩

theorem field? {w : Value} (hv : Exec.field? h w name = some v) : v.Settled (h.extent N) owners := by
  cases w with
  | object c => exact hh.field hv
  | _ => cases hv

theorem lookup (hv : h.lookup e name = some v) : v.Settled (h.extent N) owners := by
  fun_induction Heap.lookup h e name with
  | case1 e w hw =>
    cases hv
    exact hh.values.environments e _ (Fields.mem_of_get?_eq_some hw)
  | case2 e hnone outer hparent hlt ih => exact ih hv
  | case3 => cases hv
  | case4 => cases hv

/-! ### Environments, functions and holes -/

/-- A change beside the cells that can be filled. -/
theorem beside (hlists : h'.lists = h.lists) (hobjects : h'.objects = h.objects)
    (hle : h.extent N ≤ h'.extent N)
    (hvalues : ∀ e, ∀ f ∈ (h'.environment e).values, f.2.Settled (h.extent N) owners)
    (hclosures : ∀ c < h'.closures.size, Table.Below N (h'.closure c).signature ∧
      (h'.closure c).block.Everywhere Block.IsFilling)
    (hroot : h'.environment 0 = h.environment 0) : h'.Kept owners N := by
  have hholds : h'.Holds = h.Holds := by
    funext c v
    cases c <;> simp only [Holds, list, object, hlists, hobjects]
  have hhas : h'.Has = h.Has := by
    funext c
    cases c <;> simp only [Has, hlists, hobjects]
  have hcells : h'.cells = h.cells := by rw [cells, hlists, hobjects, cells]
  refine ⟨⟨fun hv => (hh.values.holds (hholds ▸ hv)).mono hle, fun e f hf => (hvalues e f hf).mono hle⟩,
    hclosures, ?_, fun c hc => hhas ▸ hh.owned c hc, Nat.lt_of_lt_of_le hh.known hle.environments,
    hroot.trans hh.root⟩
  obtain ⟨rank, hr⟩ := hh.order
  exact ⟨rank, ⟨fun hv => hr.lt (hholds ▸ hv), fun hc => hcells ▸ hr.bound (hhas ▸ hc),
    fun hc hc' => hr.inj (hhas ▸ hc) (hhas ▸ hc')⟩⟩

/-- A name is defined in an environment inside that of the global names. -/
theorem define (he : e ≠ 0) (hv : v.Settled (h.extent N) owners) (name : String) :
    (h.define e name v).Kept owners N := by
  refine hh.beside rfl rfl ⟨Nat.le_refl _, Nat.le_refl _, Nat.le_refl _, Nat.le_refl _, Nat.le_refl _,
    Nat.le_of_eq size_define.symm⟩ (fun e' f hf => ?_) hh.closures ?_
  · rw [environment_define] at hf
    split at hf
    · rcases Fields.mem_of_mem_insert hf with rfl | hf
      · exact hv
      · exact hh.values.environments e' f hf
    · exact hh.values.environments e' f hf
  · rw [environment_define, if_neg fun h => he h.1]

theorem newEnvironment (parent : Option Nat) :
    (h.newEnvironment parent).2.Kept owners N := by
  refine hh.beside rfl rfl ⟨Nat.le_refl _, Nat.le_refl _, Nat.le_refl _, Nat.le_refl _, Nat.le_refl _,
    ?_⟩ (fun e f hf => ?_) hh.closures (environment_newEnvironment_of_lt hh.known)
  · show _ ≤ (h.newEnvironment parent).2.environments.size
    rw [size_newEnvironment]
    exact Nat.le_succ _
  · rcases Nat.lt_trichotomy e h.environments.size with hlt | rfl | hgt
    · rw [environment_newEnvironment_of_lt hlt] at hf
      exact hh.values.environments e f hf
    · rw [environment_newEnvironment_self] at hf
      cases hf
    · have hnone : (h.newEnvironment parent).2.environment e = default := by
        have : (h.environments.push ⟨[], parent⟩).size ≤ e := by rw [Array.size_push]; omega
        simp only [environment, Heap.newEnvironment, Array.getD_eq_getD_getElem?,
          Array.getElem?_eq_none this, Option.getD_none]
      rw [hnone] at hf
      cases hf

theorem newClosure {k : Closure} (hk : Table.Below N k.signature)
    (hblock : k.block.Everywhere Block.IsFilling) : (h.newClosure k).2.Kept owners N := by
  have hsize : (h.newClosure k).2.closures.size = h.closures.size + 1 := Array.size_push _
  refine hh.beside rfl rfl ⟨Nat.le_refl _, Nat.le_refl _, Nat.le_refl _, ?_, Nat.le_refl _, Nat.le_refl _⟩
    hh.values.environments (fun c hc => ?_) rfl
  · show _ ≤ (h.newClosure k).2.closures.size
    rw [hsize]
    exact Nat.le_succ _
  · by_cases heq : c = h.closures.size
    · have hself : (h.newClosure k).2.closure c = k := by
        simp [closure, Heap.newClosure, heq, Array.getD_eq_getD_getElem?]
      rw [hself]
      exact ⟨hk, hblock⟩
    · have hlt : c < h.closures.size := by omega
      have hold : (h.newClosure k).2.closure c = h.closure c := by
        simp only [closure, Heap.newClosure, Array.getD_eq_getD_getElem?, Array.getElem?_push_lt hlt,
          Array.getElem?_eq_getElem hlt]
      rw [hold]
      exact hh.closures c hlt

theorem newHole (x : Hole) : (h.newHole x).2.Kept owners N :=
  hh.beside rfl rfl ⟨Nat.le_refl _, Nat.le_refl _, Nat.le_refl _, Nat.le_refl _,
    Nat.le_of_lt (Nat.lt_of_lt_of_eq (Nat.lt_succ_self _) (Array.size_push _).symm), Nat.le_refl _⟩
    hh.values.environments hh.closures rfl

/-! ### Cells that can be filled -/

/-- **A new cell** that has an owner, or none if it is complete. -/
theorem create {new : Cell} (hnew : ¬h.Has new) (hhas : ∀ c, h'.Has c ↔ h.Has c ∨ c = new)
    (hcells : h'.cells = h.cells + 1)
    (hholds : ∀ c v, h'.Holds c v → h.Holds c v ∨ c = new ∧ v.Settled (h.extent N) owners)
    (hclosures : h'.closures = h.closures) (henvironments : h'.environments = h.environments)
    (hle : h.extent N ≤ h'.extent N) (o : Option (Nat × Nat)) :
    h'.Kept (Function.update owners new o) N := by
  have hne {v : Value} (hv : v.Settled (h.extent N) owners) {c : Cell} (hc : v.cell? = some c) : c ≠ new :=
    fun heq => hnew (heq ▸ has_of_cell? hv.within hc)
  have hsettled {v : Value} (hv : v.Settled (h.extent N) owners) :
      v.Settled (h'.extent N) (Function.update owners new o) :=
    ⟨hv.within.mono hle, fun c hc => (Function.update_of_ne (hne hv hc) _ _).trans (hv.free c hc)⟩
  have hold {c : Cell} {v : Value} (hv : h'.Holds c v) : v.Settled (h.extent N) owners :=
    (hholds c v hv).elim hh.values.holds fun h => h.2
  obtain ⟨rank, hr⟩ := hh.order
  refine ⟨⟨fun hv => hsettled (hold hv), fun e f hf => hsettled (hh.values.environments e f ?_)⟩,
    fun c hc => ?_, ⟨_, hr.create hnew (fun c hc => (hhas c).mp hc) hcells (fun c v hv => ?_)
      fun c v c' hv hc => has_of_cell? (hold hv).within hc⟩, fun c hc => (hhas c).mpr ?_,
    Nat.lt_of_lt_of_le hh.known hle.environments, ?_⟩
  · rwa [environment, henvironments] at hf
  · rw [hclosures] at hc
    rw [closure, hclosures]
    exact hh.closures c hc
  · exact (hholds c v hv).imp (fun h => ⟨h, h.has⟩) And.left
  · by_cases heq : c = new
    · exact .inr heq
    · rw [Function.update_of_ne heq] at hc
      exact .inl (hh.owned c hc)
  · rw [environment, henvironments]
    exact hh.root

/-- **Filling a cell** under construction. -/
theorem fill (hc : owners c ≠ none) (hhas : ∀ b, h'.Has b ↔ h.Has b) (hcells : h'.cells = h.cells)
    (hholds : ∀ b v, h'.Holds b v → h.Holds b v ∨ b = c ∧ v.Settled (h.extent N) owners)
    (hclosures : h'.closures = h.closures) (henvironments : h'.environments = h.environments)
    (hle : h.extent N ≤ h'.extent N) : h'.Kept owners N := by
  have hfree {v : Value} (hv : v.Settled (h.extent N) owners) : v.cell? ≠ some c := fun hcell =>
    hc (hv.free c hcell)
  have hold {b : Cell} {v : Value} (hv : h'.Holds b v) : v.Settled (h.extent N) owners :=
    (hholds b v hv).elim hh.values.holds fun h => h.2
  obtain ⟨rank, hr⟩ := hh.order
  refine ⟨⟨fun hv => (hold hv).mono hle, fun e f hf => (hh.values.environments e f ?_).mono hle⟩,
    fun b hb => ?_, ⟨_, hr.fill (hh.owned c hc) (fun b v hv => hfree (hh.values.holds hv)) hhas hcells
      (fun b v hv => ?_) fun b v c' hv hcell => has_of_cell? (hold hv).within hcell⟩,
    fun b hb => (hhas b).mpr (hh.owned b hb), Nat.lt_of_lt_of_le hh.known hle.environments, ?_⟩
  · rwa [environment, henvironments] at hf
  · rw [hclosures] at hb
    rw [closure, hclosures]
    exact hh.closures b hb
  · exact (hholds b v hv).imp (fun h => ⟨h, h.has⟩) fun h => ⟨h.1, hfree h.2⟩
  · rw [environment, henvironments]
    exact hh.root

/-- A new array or tuple. -/
theorem pushList {items : Array Value} (hitems : ∀ v ∈ items, v.Settled (h.extent N) owners)
    (o : Option (Nat × Nat)) : Kept (Function.update owners (.list h.lists.size) o) N
      { h with lists := h.lists.push items } := by
  have hnew : ¬h.Has (.list h.lists.size) := Nat.lt_irrefl h.lists.size
  have hclosures : { h with lists := h.lists.push items }.closures = h.closures := rfl
  refine hh.create hnew (fun c => ?_) ?_ (fun c v hv => ?_) hclosures rfl
    ⟨Nat.le_refl _, ?_, Nat.le_refl _, Nat.le_refl _, Nat.le_refl _, Nat.le_refl _⟩ o
  · cases c with
    | list c => simp only [Has, Array.size_push, Cell.list.injEq, Nat.lt_succ_iff_lt_or_eq]
    | object c => simp [Has]
  · simp only [cells, Array.size_push, Nat.add_right_comm]
  · cases c with
    | list c =>
      by_cases heq : c = h.lists.size
      · refine .inr ⟨congrArg Cell.list heq, hitems v ?_⟩
        simpa [Holds, list, heq, Array.getD_eq_getD_getElem?] using hv
      · refine .inl ?_
        simpa [Holds, list, Array.getD_eq_getD_getElem?, Array.getElem?_push, heq] using hv
    | object c => exact .inl hv
  · show _ ≤ (h.lists.push items).size
    rw [Array.size_push]
    exact Nat.le_succ _

/-- A new object. -/
theorem pushObject {fields : Fields Value} (hfields : ∀ f ∈ fields, f.2.Settled (h.extent N) owners)
    (o : Option (Nat × Nat)) : Kept (Function.update owners (.object h.objects.size) o) N
      { h with objects := h.objects.push fields } := by
  have hnew : ¬h.Has (.object h.objects.size) := Nat.lt_irrefl h.objects.size
  have hclosures : { h with objects := h.objects.push fields }.closures = h.closures := rfl
  refine hh.create hnew (fun c => ?_) ?_ (fun c v hv => ?_) hclosures rfl
    ⟨Nat.le_refl _, Nat.le_refl _, ?_, Nat.le_refl _, Nat.le_refl _, Nat.le_refl _⟩ o
  · cases c with
    | list c => simp [Has]
    | object c => simp only [Has, Array.size_push, Cell.object.injEq, Nat.lt_succ_iff_lt_or_eq]
  · simp only [cells, Array.size_push, Nat.add_assoc]
  · cases c with
    | list c => exact .inl hv
    | object c =>
      obtain ⟨name, hv⟩ := hv
      by_cases heq : c = h.objects.size
      · refine .inr ⟨congrArg Cell.object heq, hfields (name, v) ?_⟩
        simpa [object, heq, Array.getD_eq_getD_getElem?] using hv
      · refine .inl ⟨name, ?_⟩
        simpa [object, Array.getD_eq_getD_getElem?, Array.getElem?_push, heq] using hv
  · show _ ≤ (h.objects.push fields).size
    rw [Array.size_push]
    exact Nat.le_succ _

theorem setItem {cell : Nat} (hc : owners (.list cell) ≠ none) (hv : v.Settled (h.extent N) owners)
    (i : Nat) : (h.setItem cell i v).Kept owners N := by
  have hsize : (h.setItem cell i v).lists.size = h.lists.size := Array.size_modify
  refine hh.fill hc (fun b => ?_) ?_ (fun b w hw => ?_) rfl rfl
    ⟨Nat.le_refl _, hsize.ge, Nat.le_refl _, Nat.le_refl _, Nat.le_refl _, Nat.le_refl _⟩
  · cases b with
    | list b => simp only [Has, hsize]
    | object b => rfl
  · simp only [cells, hsize]
    rfl
  · cases b with
    | list b =>
      by_cases heq : b = cell
      · subst heq
        rcases mem_list_setItem hw with hw | rfl | rfl
        · exact .inl hw
        · exact .inr ⟨rfl, settled_of_cell?_eq_none trivial rfl⟩
        · exact .inr ⟨rfl, hv⟩
      · refine .inl ?_
        simpa [Holds, list, Heap.setItem, Array.getD_eq_getD_getElem?, Array.getElem?_modify,
          Ne.symm heq] using hw
    | object b => exact .inl hw

theorem setField {cell : Nat} (hc : owners (.object cell) ≠ none) (hv : v.Settled (h.extent N) owners)
    (name : String) : (h.setField cell name v).Kept owners N := by
  have hsize : (h.setField cell name v).objects.size = h.objects.size := Array.size_modify
  refine hh.fill hc (fun b => ?_) ?_ (fun b w hw => ?_) rfl rfl
    ⟨Nat.le_refl _, Nat.le_refl _, hsize.ge, Nat.le_refl _, Nat.le_refl _, Nat.le_refl _⟩
  · cases b with
    | list b => rfl
    | object b => simp only [Has, hsize]
  · simp only [cells, hsize]
    rfl
  · cases b with
    | list b => exact .inl hw
    | object b =>
      obtain ⟨x, hw⟩ := hw
      by_cases heq : b = cell
      · subst heq
        have hlt : b < h.objects.size := hh.owned _ hc
        simp only [object, Heap.setField, Array.getD_eq_getD_getElem?, Array.getElem?_modify, if_true,
          Array.getElem?_eq_getElem hlt, Option.map_some, Option.getD_some] at hw
        rcases Fields.mem_of_mem_insert hw with heq | hw
        · cases heq
          exact .inr ⟨rfl, hv⟩
        · refine .inl ⟨x, ?_⟩
          simpa [object, Array.getD_eq_getD_getElem?, hlt] using hw
      · refine .inl ⟨x, ?_⟩
        simpa [object, Heap.setField, Array.getD_eq_getD_getElem?, Array.getElem?_modify,
          Ne.symm heq] using hw

end Kept

end Heap

/-! ## Registers -/

/-- The registers of a block with `k` callers: those of a list hold cells under construction, if any cells at all,
and the values of all others are settled. -/
structure Registers.Kept (owners : Owners) (k : Nat) (S : List Nat) (n : Extent) (rs : Array Value) : Prop where
  within : ∀ {i : Nat} {v : Value}, rs[i]? = some v → v.Within n
  settled : ∀ {i : Nat} {v : Value}, rs[i]? = some v → i ∉ S → v.Settled n owners
  held : ∀ {i : Nat} {v : Value} {c : Cell}, rs[i]? = some v → i ∈ S → v.cell? = some c →
    owners c = some (k, i)

namespace Registers.Kept

variable {owners : Owners} {k k' : Nat} {S S' : List Nat} {n n' : Extent} {rs : Array Value}
  (hr : Kept owners k S n rs)

include hr

theorem mono (hle : n ≤ n') : Kept owners k S n' rs :=
  ⟨fun hv => (hr.within hv).mono hle, fun hv hi => (hr.settled hv hi).mono hle, hr.held⟩

/-- A register without a cell under construction gets a value. -/
theorem set {i : Nat} {v : Value} (hi : i ∉ S) (hv : v.Settled n owners) :
    Kept owners k S n (rs.setIfInBounds i v) := by
  have hget {j : Nat} {w : Value} (hw : (rs.setIfInBounds i v)[j]? = some w) :
      j = i ∧ w = v ∨ rs[j]? = some w := by
    rw [Array.getElem?_setIfInBounds] at hw
    split at hw
    next heq =>
      split at hw
      · exact .inl ⟨heq.symm, (Option.some.inj hw).symm⟩
      · cases hw
    next => exact .inr hw
  refine ⟨fun hw => ?_, fun hw hj => ?_, fun hw hj hc => ?_⟩
  · rcases hget hw with ⟨-, rfl⟩ | hw
    · exact hv.within
    · exact hr.within hw
  · rcases hget hw with ⟨-, rfl⟩ | hw
    · exact hv
    · exact hr.settled hw hj
  · rcases hget hw with ⟨rfl, -⟩ | hw
    · exact absurd hj hi
    · exact hr.held hw hj hc

/-- What is known about cells that there are is all that matters. -/
theorem congr {owners' : Owners} {h : Heap} {N : Nat} (hn : n = h.extent N)
    (howners : ∀ c, h.Has c → owners' c = owners c) : Kept owners' k S n rs := by
  subst hn
  have heq {i : Nat} {v : Value} {c : Cell} (hv : rs[i]? = some v) (hc : v.cell? = some c) :
      owners' c = owners c :=
    howners c (Heap.has_of_cell? (hr.within hv) hc)
  exact ⟨hr.within, fun hv hi => ⟨hr.within hv, fun c hc => (heq hv hc).trans ((hr.settled hv hi).free c hc)⟩,
    fun hv hi hc => (heq hv hc).trans (hr.held hv hi hc)⟩

/-- A register gets a new cell, which is under construction from now on. -/
theorem create {i : Nat} {v : Value} {c : Cell} (hi : i ∉ S) (hv : v.Within n) (hc : v.cell? = some c)
    (howner : owners c = some (k, i)) : Kept owners k (i :: S) n (rs.setIfInBounds i v) := by
  have hget {j : Nat} {w : Value} (hw : (rs.setIfInBounds i v)[j]? = some w) :
      j = i ∧ w = v ∨ j ≠ i ∧ rs[j]? = some w := by
    rw [Array.getElem?_setIfInBounds] at hw
    split at hw
    next heq =>
      split at hw
      · exact .inl ⟨heq.symm, (Option.some.inj hw).symm⟩
      · cases hw
    next hne => exact .inr ⟨Ne.symm hne, hw⟩
  refine ⟨fun hw => ?_, fun hw hj => ?_, fun hw hj hcell => ?_⟩
  · rcases hget hw with ⟨-, rfl⟩ | ⟨-, hw⟩
    · exact hv
    · exact hr.within hw
  · rcases hget hw with ⟨rfl, -⟩ | ⟨-, hw⟩
    · exact absurd List.mem_cons_self hj
    · exact hr.settled hw fun h => hj (List.mem_cons_of_mem _ h)
  · rcases hget hw with ⟨rfl, rfl⟩ | ⟨hne, hw⟩
    · cases hc.symm.trans hcell
      exact howner
    · exact hr.held hw ((List.mem_cons.mp hj).resolve_left hne) hcell

/-- Some cells of the block are complete. -/
theorem release (hS : S' ⊆ S) : Kept (owners.release k S') k S' n rs where
  within := hr.within
  settled {i v} hv hi := by
    refine ⟨hr.within hv, fun c hc => ?_⟩
    by_cases hi' : i ∈ S
    · exact Owners.release_self (hr.held hv hi' hc) hi
    · exact Owners.release_of_none ((hr.settled hv hi').free c hc)
  held hv hi hc := Owners.release_of_some (hr.held hv (hS hi) hc) fun _ => hi

/-- Some cells of another block are complete. -/
theorem release_ne (hk : k' ≠ k) : Kept (owners.release k' S') k S n rs where
  within := hr.within
  settled hv hi := (hr.settled hv hi).release k' S'
  held hv hi hc := Owners.release_of_some (hr.held hv hi hc) fun h => absurd h.symm hk

end Registers.Kept

end Reified
