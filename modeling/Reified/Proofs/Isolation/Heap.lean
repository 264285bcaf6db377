import Reified.Proofs.Isolation.Behind
import Reified.Proofs.Machine.Heap
import Reified.Proofs.Table.Known

/-!
# A heap behind another one

The cells of one heap can be put behind those of an older one: the number of each cell is moved up by the number
of older cells of its sort, and so are the variables of types. The environment of the global names is not moved,
since both heaps have the same one; so what was the first environment inside it comes behind all older ones.

Reading, writing and creating cells is the same in both places.

## Main definitions

* `Extent` — how many variables and cells of each sort there are
* `Value.move`, `Heap.behind` — values and heaps behind older cells
* `Value.Within` — a value that mentions only what is there

## Main results

* `Heap.list_behind`, `Heap.environment_behind`, `Heap.lookup_behind`, … — reading
* `Heap.setItem_behind`, `Heap.define_behind`, … — writing
* `Heap.newArray_behind`, `Heap.newEnvironment_behind`, … — creating
-/

namespace Reified

/-! ## Moved values -/

/-- The numbers of variables and of cells of each sort. -/
structure Extent where
  vars : Nat
  lists : Nat
  objects : Nat
  closures : Nat
  holes : Nat
  environments : Nat

/-- There are at least as many of each sort. -/
structure Extent.Le (n n' : Extent) : Prop where
  vars : n.vars ≤ n'.vars
  lists : n.lists ≤ n'.lists
  objects : n.objects ≤ n'.objects
  closures : n.closures ≤ n'.closures
  holes : n.holes ≤ n'.holes
  environments : n.environments ≤ n'.environments

instance : LE Extent := ⟨Extent.Le⟩

/-- The extent of a heap, beside the given number of variables. -/
def Heap.extent (h : Heap) (vars : Nat) : Extent :=
  ⟨vars, h.lists.size, h.objects.size, h.closures.size, h.holes.size, h.environments.size⟩

/-- The number of an environment behind older ones. That of the global names is shared. -/
def Extent.environment (o : Extent) : Nat → Nat
  | 0 => 0
  | e + 1 => e + o.environments

namespace Value

/-- The value with its cell or its variables behind those of an extent. -/
def move (o : Extent) : Value → Value
  | .array c => .array (c + o.lists)
  | .tuple c => .tuple (c + o.lists)
  | .object c => .object (c + o.objects)
  | .function c => .function (c + o.closures)
  | .hole c => .hole (c + o.holes)
  | .type t => .type (t.shift o.vars)
  | .unit => .unit
  | .bool b => .bool b
  | .number x => .number x
  | .string s => .string s
  | .builtin op => .builtin op

variable {o : Extent} {v w : Value}

@[simp] theorem isTypeLevel_move : (v.move o).isTypeLevel = v.isTypeLevel := by
  cases v <;> rfl

@[simp] theorem isHole_move : (v.move o).isHole = v.isHole := by
  cases v <;> rfl

@[simp] theorem cellKind?_move : (v.move o).cellKind? = v.cellKind? := by
  cases v <;> rfl

theorem move_injective (o : Extent) : Function.Injective (move o) := by
  intro v w h
  cases v <;> cases w <;> simp only [move, array.injEq, tuple.injEq, object.injEq, function.injEq,
    hole.injEq, type.injEq, Nat.add_right_cancel_iff, reduceCtorEq] at h
  case type t u => exact congrArg Value.type (Ty.shift_injective o.vars h)
  all_goals first | exact h | rfl | exact congrArg _ h

@[simp] theorem same_move : (v.move o).same (w.move o) = v.same w := by
  have h : v.move o = w.move o ↔ v = w := (move_injective o).eq_iff
  cases v <;> cases w <;> first | rfl | simp only [same, move] at h ⊢; simp only [h]

/-- The value mentions only cells and variables that are there. -/
def Within (n : Extent) : Value → Prop
  | .array c | .tuple c => c < n.lists
  | .object c => c < n.objects
  | .function c => c < n.closures
  | .hole c => c < n.holes
  | .type t => Table.Below n.vars t
  | _ => True

theorem Within.mono {n n' : Extent} (hv : v.Within n) (hle : n ≤ n') : v.Within n' := by
  cases v with
  | array | tuple => exact Nat.lt_of_lt_of_le hv hle.lists
  | object => exact Nat.lt_of_lt_of_le hv hle.objects
  | function => exact Nat.lt_of_lt_of_le hv hle.closures
  | hole => exact Nat.lt_of_lt_of_le hv hle.holes
  | type t => exact fun w hw => Nat.lt_of_lt_of_le (hv w hw) hle.vars
  | unit | bool | number | string | builtin => trivial

end Value

/-- The function with its environment and the variables of its type behind those of an extent. -/
def Closure.move (o : Extent) (c : Closure) : Closure :=
  ⟨c.block, o.environment c.environment, c.signature.shift o.vars⟩

/-- The hole with its values behind those of an extent. -/
def Hole.move (o : Extent) : Hole → Hole
  | .call callee args => .call (callee.move o) (args.map (Value.move o))
  | .subscript target i => .subscript (target.move o) (i.move o)
  | .member object field => .member (object.move o) field

/-- The fields with their values behind those of an extent. -/
def Fields.move (o : Extent) (fs : Fields Value) : Fields Value := fs.map fun f => (f.1, f.2.move o)

/-- The environment with its values, and the environment around it, behind those of an extent. -/
def Environment.move (o : Extent) (e : Environment) : Environment :=
  ⟨Fields.move o e.values, e.parent.map o.environment⟩

namespace Fields

variable {o : Extent}

theorem get?_move (name : String) (fs : Fields Value) :
    get? name (move o fs) = (get? name fs).map (Value.move o) :=
  get?_map (Value.move o) name fs

theorem insert_map {α β : Type} (g : α → β) (name : String) (x : α) (fs : Fields α) :
    insert name (g x) (fs.map fun f => (f.1, g f.2)) = (insert name x fs).map fun f => (f.1, g f.2) := by
  induction fs with
  | nil => rfl
  | cons f fs ih =>
    simp only [List.map_cons, insert]
    split
    · rfl
    · split
      · rfl
      · rw [ih, List.map_cons]

theorem insert_move (name : String) (v : Value) (fs : Fields Value) :
    insert name (v.move o) (move o fs) = move o (insert name v fs) :=
  insert_map (Value.move o) name v fs

end Fields

/-! ## Heaps -/

namespace Heap

/-- A heap behind an older one. -/
def behind (h H : Heap) (vars : Nat) : Heap :=
  let o := H.extent vars
  ⟨H.lists ++ h.lists.map fun items => items.map (Value.move o),
    H.objects ++ h.objects.map (Fields.move o), H.closures ++ h.closures.map (Closure.move o),
    H.holes ++ h.holes.map (Hole.move o),
    H.environments ++ (h.environments.extract 1).map (Environment.move o)⟩

variable {h H : Heap} {d : Nat} {v : Value} {c e : Nat} {name : String}

theorem extent_le {N N' : Nat} (hN : N ≤ N') : h.extent N ≤ h.extent N' :=
  ⟨hN, Nat.le_refl _, Nat.le_refl _, Nat.le_refl _, Nat.le_refl _, Nat.le_refl _⟩

theorem getElem?_behind {α β : Type} (xs : Array β) (ys : Array α) (f : α → β) (i : Nat) :
    (xs ++ ys.map f)[i + xs.size]? = ys[i]?.map f := by
  simp [Array.getElem?_append]

/-- A change of one of the newer elements. -/
theorem modify_behind {α β : Type} (xs : Array β) (ys : Array α) {f : α → β} {g : α → α} {g' : β → β}
    (hg : ∀ y, g' (f y) = f (g y)) (i : Nat) :
    (xs ++ ys.map f).modify (i + xs.size) g' = xs ++ (ys.modify i g).map f := by
  refine Array.ext_getElem? fun j => ?_
  simp only [Array.getElem?_modify, Array.getElem?_append, Array.getElem?_map]
  by_cases hj : j < xs.size
  · rw [if_pos hj, if_pos hj, if_neg (by omega)]
  · rw [if_neg hj, if_neg hj]
    by_cases heq : i = j - xs.size
    · rw [if_pos (by omega), if_pos heq]
      cases ys[j - xs.size]? <;> simp [hg]
    · rw [if_neg (by omega), if_neg heq]

/-! ### Reading -/

theorem list_behind (c : Nat) : (h.behind H d).list (c + (H.extent d).lists) =
    (h.list c).map (Value.move (H.extent d)) := by
  simp only [list, behind, Array.getD_eq_getD_getElem?, extent, getElem?_behind]
  cases h.lists[c]? <;> simp

theorem object_behind (c : Nat) : (h.behind H d).object (c + (H.extent d).objects) =
    Fields.move (H.extent d) (h.object c) := by
  simp only [object, behind, Array.getD_eq_getD_getElem?, extent, getElem?_behind]
  cases h.objects[c]? <;> rfl

theorem closure_behind (hc : c < h.closures.size) :
    (h.behind H d).closure (c + (H.extent d).closures) = (h.closure c).move (H.extent d) := by
  simp only [closure, behind, Array.getD_eq_getD_getElem?, extent, getElem?_behind,
    Array.getElem?_eq_getElem hc, Option.map_some, Option.getD_some]

theorem environment_behind_zero (hH : 0 < H.environments.size) :
    (h.behind H d).environment 0 = H.environment 0 := by
  simp only [environment, behind, Array.getD_eq_getD_getElem?, Array.getElem?_append, if_pos hH]

theorem environment_behind (he : e + 1 < h.environments.size) :
    (h.behind H d).environment ((H.extent d).environment (e + 1)) =
      (h.environment (e + 1)).move (H.extent d) := by
  have hget : (h.environments.extract 1)[e]? = some h.environments[e + 1] := by
    rw [Array.getElem?_extract, if_pos (by omega), Nat.add_comm, Array.getElem?_eq_getElem he]
  simp only [environment, behind, Array.getD_eq_getD_getElem?, Extent.environment, extent, getElem?_behind,
    hget, Array.getElem?_eq_getElem he, Option.map_some, Option.getD_some]

theorem size_environments_behind (hh : 0 < h.environments.size) :
    (h.behind H d).environments.size = (H.extent d).environment h.environments.size := by
  obtain ⟨n, hn⟩ : ∃ n, h.environments.size = n + 1 := Nat.exists_eq_succ_of_ne_zero (by omega)
  simp only [behind, Array.size_append, Array.size_map, Array.size_extract, hn, Extent.environment, extent]
  omega

theorem environment_lt (hH : 0 < H.environments.size) {e e' : Nat} :
    (H.extent d).environment e < (H.extent d).environment e' ↔ e < e' := by
  cases e <;> cases e' <;> simp [Extent.environment, extent, hH]

/-- The heaps can be told apart by nothing that is in the environment of the global names. -/
structure Rooted (h H : Heap) (vars : Nat) : Prop where
  old : 0 < H.environments.size
  new : 0 < h.environments.size
  root : H.environment 0 = (h.environment 0).move (H.extent vars)

/-- Every environment that is there is moved, also that of the global names. -/
theorem Rooted.environment (hroot : h.Rooted H d) (he : e < h.environments.size) :
    (h.behind H d).environment ((H.extent d).environment e) = (h.environment e).move (H.extent d) := by
  cases e with
  | zero => exact (environment_behind_zero hroot.old).trans hroot.root
  | succ e => exact environment_behind he

theorem Rooted.parent? (hroot : h.Rooted H d) (he : e < h.environments.size) :
    (h.behind H d).parent? ((H.extent d).environment e) = (h.parent? e).map (H.extent d).environment := by
  rw [Heap.parent?, hroot.environment he]
  rfl

/-- **Looking up a name** finds the moved value. -/
theorem Rooted.lookup (hroot : h.Rooted H d) (he : e < h.environments.size) (name : String) :
    (h.behind H d).lookup ((H.extent d).environment e) name =
      (h.lookup e name).map (Value.move (H.extent d)) := by
  induction e using Nat.strongRecOn with
  | ind e ih =>
    rw [Heap.lookup, Heap.lookup, hroot.environment he, hroot.parent? he, Environment.move,
      Fields.get?_move]
    cases Fields.get? name (h.environment e).values with
    | some v => rfl
    | none =>
      cases h.parent? e with
      | none => rfl
      | some outer =>
        simp only [Option.map_none, Option.map_some, environment_lt hroot.old]
        split
        next hlt => exact ih outer hlt (hlt.trans he)
        next => rfl

/-! ### Writing -/

theorem setItem_behind (c i : Nat) (v : Value) :
    (h.behind H d).setItem (c + (H.extent d).lists) i (v.move (H.extent d)) =
      (h.setItem c i v).behind H d := by
  simp only [setItem, behind, mk.injEq, and_true]
  refine modify_behind H.lists h.lists (fun items => ?_) c
  simp only [Array.size_map, Array.map_setIfInBounds, Array.map_append, Array.map_replicate]
  rfl

theorem setField_behind (c : Nat) (name : String) (v : Value) :
    (h.behind H d).setField (c + (H.extent d).objects) name (v.move (H.extent d)) =
      (h.setField c name v).behind H d := by
  simp only [setField, behind, mk.injEq, and_true, true_and]
  exact modify_behind H.objects h.objects (Fields.insert_move name v) c

/-- A name is defined in an environment inside that of the global names. -/
theorem define_behind (he : e ≠ 0) (name : String) (v : Value) :
    (h.behind H d).define ((H.extent d).environment e) name (v.move (H.extent d)) =
      (h.define e name v).behind H d := by
  obtain ⟨e, rfl⟩ := Nat.exists_eq_succ_of_ne_zero he
  have hextract (f : Environment → Environment) :
      (h.environments.modify (e + 1) f).extract 1 = (h.environments.extract 1).modify e f := by
    refine Array.ext_getElem? fun i => ?_
    simp only [Array.getElem?_extract, Array.getElem?_modify, Array.size_modify]
    by_cases hi : i < h.environments.size - 1
    · by_cases heq : e = i
      · simp [hi, heq, Nat.add_comm]
      · simp [hi, heq, Nat.add_comm]
    · simp [hi]
  simp only [define, behind, mk.injEq, true_and]
  rw [hextract]
  refine modify_behind H.environments (h.environments.extract 1) (fun x => ?_) e
  simp only [Environment.move, Fields.insert_move]

/-! ### Creating -/

theorem newArray_behind (items : Array Value) :
    (h.behind H d).newArray (items.map (Value.move (H.extent d))) =
      ((h.newArray items).1.move (H.extent d), (h.newArray items).2.behind H d) := by
  simp [newArray, behind, Value.move, extent, Nat.add_comm]

theorem newTuple_behind (items : Array Value) :
    (h.behind H d).newTuple (items.map (Value.move (H.extent d))) =
      ((h.newTuple items).1.move (H.extent d), (h.newTuple items).2.behind H d) := by
  simp [newTuple, behind, Value.move, extent, Nat.add_comm]

theorem newObject_behind (fields : Fields Value) :
    (h.behind H d).newObject (Fields.move (H.extent d) fields) =
      ((h.newObject fields).1.move (H.extent d), (h.newObject fields).2.behind H d) := by
  simp [newObject, behind, Value.move, extent, Nat.add_comm]

theorem newClosure_behind (k : Closure) :
    (h.behind H d).newClosure (k.move (H.extent d)) =
      ((h.newClosure k).1.move (H.extent d), (h.newClosure k).2.behind H d) := by
  simp [newClosure, behind, Value.move, extent, Nat.add_comm]

theorem newHole_behind (x : Hole) :
    (h.behind H d).newHole (x.move (H.extent d)) =
      ((h.newHole x).1.move (H.extent d), (h.newHole x).2.behind H d) := by
  simp [newHole, behind, Value.move, extent, Nat.add_comm]

theorem newEnvironment_behind (hh : 0 < h.environments.size) (outer : Nat) :
    (h.behind H d).newEnvironment (some ((H.extent d).environment outer)) =
      ((H.extent d).environment (h.newEnvironment (some outer)).1,
        (h.newEnvironment (some outer)).2.behind H d) := by
  refine Prod.ext (size_environments_behind hh) ?_
  have hextract : (h.environments.push ⟨[], some outer⟩).extract 1 =
      (h.environments.extract 1).push ⟨[], some outer⟩ := by
    rw [Array.extract_push, if_neg (by rw [Array.size_push]; omega), if_pos (by omega)]
  simp only [newEnvironment, behind, mk.injEq, true_and, hextract]
  simp [Environment.move, Fields.move]

end Heap

end Reified
