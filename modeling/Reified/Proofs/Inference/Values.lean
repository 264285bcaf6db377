import Mathlib.Data.List.Zip
import Reified.Proofs.Conformance.Values
import Reified.Proofs.Inference.Signatures

/-!
# Values that match for inference

What the inference of arguments sees of a value are the sorts of the parts that it is made of, and the signatures of
the functions among them. Two values in two heaps match if they do not differ in these.

A value of a run is made of finitely many parts, so it matches itself, also in a later heap in which its parts are
what they were.

## Main definitions

* `Heap.Matches` — two values in two heaps do not differ for inference

## Main results

* `Heap.Finite.matches` — a value that has remained what it was
* `Machine.Reached.finite`, `Machine.Reached.matches_self` — the values in registers
-/

namespace Reified

namespace Heap

/-- The values do not differ for inference: they are made of parts of the same sorts, and the functions among these
have the same signatures. -/
inductive Matches (h h' : Heap) : Value → Value → Prop
  | unit : Matches h h' .unit .unit
  | bool (a b : Bool) : Matches h h' (.bool a) (.bool b)
  | number (x y : Number) : Matches h h' (.number x) (.number y)
  | string (s s' : String) : Matches h h' (.string s) (.string s')
  | type (t u : Ty) : Matches h h' (.type t) (.type u)
  | hole (c c' : Nat) : Matches h h' (.hole c) (.hole c')
  | builtin (op : Operator) : Matches h h' (.builtin op) (.builtin op)
  | function {c c' : Nat} (hc : c < h.closures.size) (hc' : c' < h'.closures.size)
      (hsignature : (h.closure c).signature = (h'.closure c').signature) : Matches h h' (.function c) (.function c')
  | array {c c' : Nat} (hlength : (h.list c).toList.length = (h'.list c').toList.length)
      (hitems : ∀ p ∈ (h.list c).toList.zip (h'.list c').toList, Matches h h' p.1 p.2) :
      Matches h h' (.array c) (.array c')
  | tuple {c c' : Nat} (hlength : (h.list c).toList.length = (h'.list c').toList.length)
      (hitems : ∀ p ∈ (h.list c).toList.zip (h'.list c').toList, Matches h h' p.1 p.2) :
      Matches h h' (.tuple c) (.tuple c')
  | object {c c' : Nat} (hnames : Fields.names (h.object c) = Fields.names (h'.object c'))
      (hfields : ∀ p ∈ (h.object c).zip (h'.object c'), Matches h h' p.1.2 p.2.2) :
      Matches h h' (.object c) (.object c')

/-- Every function in the value is there. -/
def Knows (h : Heap) (v : Value) : Prop := ∀ c, h.Contains v (.function c) → c < h.closures.size

variable {h h' H : Heap} {v w x : Value} {c : Cell} {n d N : Nat} {rank : Cell → Nat}

theorem Matches.symm (hv : h.Matches h' v w) : h'.Matches h w v := by
  have hzip {α : Type} {as bs : List α} {p : α × α} (hp : p ∈ bs.zip as) : p.swap ∈ as.zip bs := by
    rw [← List.zip_swap]
    exact List.mem_map_of_mem hp
  induction hv with
  | unit => exact .unit
  | bool a b => exact .bool b a
  | number x y => exact .number y x
  | string s s' => exact .string s' s
  | type t u => exact .type u t
  | hole c c' => exact .hole c' c
  | builtin op => exact .builtin op
  | function hc hc' hsignature => exact .function hc' hc hsignature.symm
  | array hlength _ ih => exact .array hlength.symm fun p hp => ih p.swap (hzip hp)
  | tuple hlength _ ih => exact .tuple hlength.symm fun p hp => ih p.swap (hzip hp)
  | object hnames _ ih => exact .object hnames.symm fun p hp => ih p.swap (hzip hp)

/-- **A value that has remained what it was** matches itself: no cell in it holds anything else, and no function in it
has another signature. -/
theorem Finite.matches (hv : h.Finite v) (hlists : ∀ c, h.Reaches v (.list c) → h'.list c = h.list c)
    (hobjects : ∀ c, h.Reaches v (.object c) → h'.object c = h.object c)
    (hfunctions : ∀ c, h.Contains v (.function c) →
      c < h.closures.size ∧ c < h'.closures.size ∧ (h'.closure c).signature = (h.closure c).signature) :
    h.Matches h' v v := by
  induction hv with
  | @leaf v hv =>
    cases v with
    | unit => exact .unit
    | bool b => exact .bool b b
    | number x => exact .number x x
    | string s => exact .string s s
    | type t => exact .type t t
    | hole c => exact .hole c c
    | builtin op => exact .builtin op
    | function c =>
      obtain ⟨hc, hc', hsignature⟩ := hfunctions c (.self _)
      exact .function hc hc' hsignature.symm
    | array | tuple | object => cases hv
  | @cell v c hc _ ih =>
    have hitem {x : Value} (hx : h.Holds c x) : h.Matches h' x x :=
      ih x hx (fun d ⟨y, hy, hd⟩ => hlists d ⟨y, .held hc hx hy, hd⟩)
        (fun d ⟨y, hy, hd⟩ => hobjects d ⟨y, .held hc hx hy, hd⟩) fun d hd => hfunctions d (.held hc hx hd)
    have hlist {c : Nat} {p : Value × Value} (hp : p ∈ (h.list c).toList.zip (h.list c).toList) :
        p.1 ∈ h.list c ∧ p.2 = p.1 := by
      obtain ⟨i, hi, rfl⟩ := List.getElem_of_mem hp
      rw [List.getElem_zip]
      exact ⟨Array.mem_toList_iff.mp (List.getElem_mem _), rfl⟩
    cases v with
    | array c =>
      cases hc
      have heq := hlists c ⟨_, .self _, rfl⟩
      refine .array (by rw [heq]) fun p hp => ?_
      rw [heq] at hp
      obtain ⟨hmem, hp⟩ := hlist hp
      rw [hp]
      exact hitem hmem
    | tuple c =>
      cases hc
      have heq := hlists c ⟨_, .self _, rfl⟩
      refine .tuple (by rw [heq]) fun p hp => ?_
      rw [heq] at hp
      obtain ⟨hmem, hp⟩ := hlist hp
      rw [hp]
      exact hitem hmem
    | object c =>
      cases hc
      have heq := hobjects c ⟨_, .self _, rfl⟩
      refine .object (by rw [heq]) fun p hp => ?_
      rw [heq] at hp
      obtain ⟨i, hi, rfl⟩ := List.getElem_of_mem hp
      rw [List.getElem_zip]
      exact hitem ⟨_, List.getElem_mem _⟩
    | _ => cases hc

/-! ## Values of a run -/

/-- What a moved cell holds are the moved values. -/
theorem exists_holds_of_move (hc : (v.move (H.extent d)).cell? = some c) (hx : (h.behind H d).Holds c x) :
    ∃ b y, v.cell? = some b ∧ h.Holds b y ∧ x = y.move (H.extent d) := by
  have hlist {a : Nat} (hx : x ∈ (h.behind H d).list (a + (H.extent d).lists)) :
      ∃ y, h.Holds (.list a) y ∧ x = y.move (H.extent d) := by
    rw [list_behind, Array.mem_map] at hx
    obtain ⟨y, hy, rfl⟩ := hx
    exact ⟨y, hy, rfl⟩
  cases v with
  | array a | tuple a =>
    cases hc
    obtain ⟨y, hy, rfl⟩ := hlist hx
    exact ⟨_, y, rfl, hy, rfl⟩
  | object a =>
    cases hc
    obtain ⟨name, hx⟩ := hx
    rw [object_behind, Fields.move, List.mem_map] at hx
    obtain ⟨f, hf, heq⟩ := hx
    cases heq
    exact ⟨_, f.2, rfl, ⟨f.1, hf⟩, rfl⟩
  | _ => cases hc

/-- A value is finite if the cells are in an order. -/
theorem Ranked.finite_move (hr : h.Ranked rank) (hv : v.Nests rank n) :
    (h.behind H d).Finite (v.move (H.extent d)) := by
  induction n generalizing v with
  | zero =>
    cases hcell : (v.move (H.extent d)).cell? with
    | none => exact .leaf hcell
    | some c =>
      refine .cell hcell fun x hx => ?_
      obtain ⟨b, -, hb, -⟩ := exists_holds_of_move hcell hx
      exact absurd (hv b hb) (Nat.not_lt_zero _)
  | succ n ih =>
    cases hcell : (v.move (H.extent d)).cell? with
    | none => exact .leaf hcell
    | some c =>
      refine .cell hcell fun x hx => ?_
      obtain ⟨b, y, hb, hy, rfl⟩ := exists_holds_of_move hcell hx
      exact ih (hr.nests_of_holds (hv b hb) hy)

/-- What a moved value contains are the moved values. -/
theorem exists_contains_of_move (hx : (h.behind H d).Contains (v.move (H.extent d)) x) :
    ∃ y, h.Contains v y ∧ x = y.move (H.extent d) := by
  generalize hw : v.move (H.extent d) = w at hx
  induction hx generalizing v with
  | self => exact ⟨v, .self v, hw.symm⟩
  | held hc hx _ ih =>
    subst hw
    obtain ⟨b, y, hb, hy, rfl⟩ := exists_holds_of_move hc hx
    obtain ⟨z, hz, rfl⟩ := ih rfl
    exact ⟨z, .held hb hy hz, rfl⟩

theorem All.contains {P : Value → Prop} (hh : h.All P) (hv : P v) (hx : h.Contains v x) : P x := by
  induction hx with
  | self => exact hv
  | held _ hx _ ih => exact ih (hh.holds hx)

/-- The functions in a moved value are there. -/
theorem All.knows_move (hh : h.All (Value.Within (h.extent N))) (hv : v.Within (h.extent N)) :
    (h.behind H d).Knows (v.move (H.extent d)) := by
  intro c hc
  obtain ⟨y, hy, heq⟩ := exists_contains_of_move hc
  have hwithin := hh.contains hv hy
  cases y with
  | function a =>
    cases heq
    have ha : a < h.closures.size := hwithin
    show a + H.closures.size < (H.closures ++ h.closures.map _).size
    rw [Array.size_append, Array.size_map]
    omega
  | _ => cases heq

end Heap

namespace Machine.Reached

variable {m : Machine} {B : Block} {r : Run} {v : Value}

/-- **The values in registers** are finite, and the functions in them are there. -/
theorem finite (hm : m.Reached Block.Generated) (hB : B.Generated) (hr : Run.Goes (m.start B) r)
    (hv : v ∈ r.top.registers) : r.machine.heap.Finite v ∧ r.machine.heap.Knows v := by
  obtain ⟨r₀, hr₀, rfl⟩ := hm.goes_behind hB hr
  obtain ⟨owners, pending, depths, base, D, hstands⟩ := hr₀.stands
  obtain ⟨-, -, -, hheap, htop, -⟩ := hstands.kept
  obtain ⟨rank, hrank⟩ := hheap.order
  obtain ⟨w, hw, rfl⟩ := Array.mem_map.mp (show v ∈ r₀.top.registers.map (Value.move m.extent) from hv)
  obtain ⟨i, hi, rfl⟩ := Array.getElem_of_mem hw
  have hwithin := htop.within (Array.getElem?_eq_getElem hi)
  exact ⟨hrank.finite_move (hrank.nests hwithin), (hheap.values.imp fun _ hv => hv.within).knows_move hwithin⟩

/-- **A value in a register** matches itself. -/
theorem matches_self (hm : m.Reached Block.Generated) (hB : B.Generated) (hr : Run.Goes (m.start B) r)
    (hv : v ∈ r.top.registers) : r.machine.heap.Matches r.machine.heap v v := by
  obtain ⟨hfinite, hknows⟩ := hm.finite hB hr hv
  exact hfinite.matches (fun _ _ => rfl) (fun _ _ => rfl) fun c hc => ⟨hknows c hc, hknows c hc, rfl⟩

end Machine.Reached

end Reified
