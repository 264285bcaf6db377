import Mathlib.Data.List.Forall2
import Reified.Proofs.Conformance.Values
import Reified.Proofs.Simulation.TypeTest

/-!
# The type that is found for a value

The machine finds a type for every value of data without a fault, and does nothing but making variables for it.
The type is an outline of the value. Its variables are the new ones, and each of them occurs once.

## Main definitions

* `Table.Makes` — a table after variables have been made
* `Invents` — an action that does nothing but making variables

## Main results

* `Invents.typeOf` — **the type of a value of data** is an outline of it
-/

namespace Reified

/-! ## New variables -/

namespace Table

/-- In the second table there are the given new variables, which are flexible and unbound, and maybe others; nothing
else has been bound. -/
structure Makes (T : Table) (vs : List TyVar) (S : Table) : Prop where
  size : T.size ≤ S.size
  binding : ∀ id, S.binding? id = T.binding? id
  nodup : (vs.map (·.id)).Nodup
  flexible : ∀ v ∈ vs, v.rigid = false
  range : ∀ v ∈ vs, T.size ≤ v.id ∧ v.id < S.size

namespace Makes

variable {T S R : Table} {vs ws : List TyVar}

theorem refl (T : Table) : T.Makes [] T :=
  ⟨Nat.le_refl _, fun _ => rfl, List.nodup_nil, List.forall_mem_nil _, List.forall_mem_nil _⟩

theorem trans (h : T.Makes vs S) (h' : S.Makes ws R) : T.Makes (vs ++ ws) R where
  size := h.size.trans h'.size
  binding id := (h'.binding id).trans (h.binding id)
  nodup := by
    rw [List.map_append]
    refine h.nodup.append h'.nodup fun id hid hid' => ?_
    obtain ⟨v, hv, rfl⟩ := List.mem_map.mp hid
    obtain ⟨w, hw, heq⟩ := List.mem_map.mp hid'
    have hlt := (h.range v hv).2
    have hle := (h'.range w hw).1
    omega
  flexible v hv := (List.mem_append.mp hv).elim (h.flexible v) (h'.flexible v)
  range v hv := by
    rcases List.mem_append.mp hv with hv | hv
    · exact ⟨(h.range v hv).1, (h.range v hv).2.trans_le h'.size⟩
    · exact ⟨h.size.trans (h'.range v hv).1, (h'.range v hv).2⟩

theorem newVar (T : Table) (name : String) (inferred : Bool) (level : Nat) :
    T.Makes [(T.newVar name inferred false level).1] (T.newVar name inferred false level).2 where
  size := by
    rw [size_newVar]
    omega
  binding id := binding?_newVar name inferred false level id
  nodup := List.nodup_singleton _
  flexible := List.forall_mem_singleton.mpr rfl
  range := List.forall_mem_singleton.mpr ⟨Nat.le_refl _, by rw [size_newVar]; exact Nat.lt_succ_self _⟩

/-- Nothing is known about new variables. -/
theorem unknown (h : T.Makes vs S) : S.Unknown vs where
  nodup := h.nodup
  flexible := h.flexible
  unbound v hv := (h.binding v.id).trans (binding?_of_size_le (h.range v hv).1)

end Makes

end Table

/-! ## Actions that make variables -/

/-- On a machine with the given heap, the action succeeds and does nothing but making variables; `Q` is what is known
about variables that it has made, and about the result. -/
def Invents {α : Type} (h : Heap) (x : Exec α) (Q : List TyVar → α → Prop) : Prop :=
  ∀ ⦃k : Context⦄ ⦃m : Machine⦄ ⦃e p : Nat⦄ ⦃regs : Array Value⦄, m.heap = h →
    ∃ a vs m', x (k.run m e p regs) = .ok a (k.run m' e p regs) ∧ m'.heap = h ∧ m.table.Makes vs m'.table ∧ Q vs a

namespace Invents

variable {α β : Type} {h : Heap} {x : Exec α} {Q : List TyVar → α → Prop} {R : List TyVar → β → Prop}

theorem pure {a : α} (ha : Q [] a) : Invents h (Pure.pure a) Q :=
  fun _ m _ _ _ hm => ⟨a, [], m, rfl, hm, .refl _, ha⟩

/-- **One action after the other** makes the variables of both. -/
theorem bind {f : α → Exec β} (hx : Invents h x Q)
    (hf : ∀ vs a, Q vs a → Invents h (f a) fun ws b => R (vs ++ ws) b) : Invents h (x >>= f) R := by
  intro k m e p regs hm
  obtain ⟨a, vs, m₁, hrun, hm₁, hmakes, ha⟩ := hx hm
  obtain ⟨b, ws, m₂, hrun', hm₂, hmakes', hb⟩ := hf vs a ha hm₁
  exact ⟨b, vs ++ ws, m₂, (Exec.bind_ok hrun).trans hrun', hm₂, hmakes.trans hmakes', hb⟩

theorem map {f : α → β} (hx : Invents h x Q) (hf : ∀ vs a, Q vs a → R vs (f a)) :
    Invents h (x >>= fun a => Pure.pure (f a)) R :=
  hx.bind fun vs a ha => .pure (by rw [List.append_nil]; exact hf vs a ha)

theorem heap {f : Heap → Exec α} (hf : Invents h (f h) Q) : Invents h (Exec.heap >>= f) Q := by
  intro k m e p regs hm
  obtain ⟨a, vs, m', hrun, hrest⟩ := @hf k m e p regs hm
  refine ⟨a, vs, m', ?_, hrest⟩
  rw [Exec.bind_ok Context.heap_run, hm, hrun]

theorem freshVar : Invents h Exec.freshVar fun vs t => ∃ v, vs = [v] ∧ t = .var v :=
  fun _ m _ _ _ hm => ⟨_, _, _, rfl, hm, .newVar m.table "" false m.frames.depth, _, rfl, rfl⟩

/-- The results of an action on each member of a list have the variables that it has made. -/
theorem mapM {γ : Type} {f : γ → Exec α} {V : α → List TyVar} {S : γ → α → Prop} : (xs : List γ) →
    (∀ x ∈ xs, Invents h (f x) fun vs a => V a = vs ∧ S x a) →
    Invents h (xs.mapM f) fun vs as => as.flatMap V = vs ∧ List.Forall₂ S xs as
  | [], _ => by
    rw [List.mapM_nil]
    exact .pure ⟨rfl, .nil⟩
  | x :: xs, hf => by
    rw [List.mapM_cons]
    refine (hf x List.mem_cons_self).bind fun vs a ⟨hvs, ha⟩ => ?_
    refine (mapM xs fun y hy => hf y (List.mem_cons_of_mem x hy)).map fun ws as ⟨hws, has⟩ => ⟨?_, .cons ha has⟩
    rw [List.flatMap_cons, hvs, hws]

/-! ## The type of a value -/

theorem typeOfWithin_simple {v : Value} {name : String} (hv : v.simpleName? = some name) (n : Nat) :
    Exec.typeOfWithin n v = Pure.pure (.name name) := by
  cases v <;> cases hv <;> cases n <;> rfl

/-- What is found for a value is an outline of it over the variables that have been made. -/
theorem typeOfWithin {n : Nat} {v : Value} (hv : h.Nested n v) :
    Invents h (Exec.typeOfWithin n v) fun vs u => u.vars = vs ∧ h.Outlines v u := by
  induction hv with
  | simple hv =>
    rw [typeOfWithin_simple hv]
    exact .pure ⟨rfl, .simple hv⟩
  | @cell n v c hc hheld ih =>
    cases v with
    | array c =>
      cases hc
      refine .heap ?_
      cases hx : (h.list c)[0]? with
      | some x =>
        exact (ih x (Array.mem_of_getElem? hx)).map fun vs u ⟨hvs, hu⟩ => ⟨hvs, .array hx hu⟩
      | none =>
        refine freshVar.map ?_
        rintro _ _ ⟨v, rfl, rfl⟩
        exact ⟨rfl, .empty hx v⟩
    | tuple c =>
      cases hc
      refine .heap ((mapM (V := Ty.vars) (h.list c).toList fun x hx => ih x (Array.mem_toList_iff.mp hx)).map ?_)
      rintro vs us ⟨hvs, hus⟩
      refine ⟨by rw [Ty.vars, Ty.varsList_eq, hvs], .tuple hus.length_eq fun p hp => ?_⟩
      exact (List.forall₂_iff_zip.mp hus).2 hp
    | object c =>
      cases hc
      have hfield : ∀ f ∈ h.object c, Invents h (do return (f.1, ← Exec.typeOfWithin n f.2)) fun vs (g : String × Ty) =>
          g.2.vars = vs ∧ g.1 = f.1 ∧ h.Outlines f.2 g.2 := fun f hf =>
        (ih f.2 ⟨f.1, hf⟩).map fun vs u ⟨hvs, hu⟩ => ⟨hvs, rfl, hu⟩
      refine .heap ((mapM (h.object c) hfield).map ?_)
      rintro vs gs ⟨hvs, hgs⟩
      refine ⟨by rw [Ty.vars, Ty.varsFields_eq, hvs], .record ?_ fun p hp => ?_⟩
      · rw [Fields.names, Fields.names, ← List.forall₂_eq_eq_eq, List.forall₂_map_left_iff, List.forall₂_map_right_iff]
        exact (hgs.imp fun _ _ h => h.1).flip
      · exact ((List.forall₂_iff_zip.mp hgs).2 hp).2
    | _ => cases hc

/-- **The type of a value of data** is an outline of it over new variables. -/
theorem typeOf {v : Value} (hv : h.Data v) :
    Invents h (Exec.typeOf v) fun vs u => u.vars = vs ∧ h.Outlines v u :=
  .heap (typeOfWithin hv.nested)

end Invents

end Reified
