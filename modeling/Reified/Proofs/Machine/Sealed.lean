import Reified.Proofs.Machine.Inside
import Reified.Proofs.Machine.Runs
import Reified.Proofs.Table.Sealed

/-!
# A variable that no instruction gets to

If a variable of types is sealed and no value of a run is a type in which it occurs, then this remains so: no
instruction computes with a type in which it occurs, but for making an instance of a signature, and the instance has a
copy in its place. This holds whatever the code is, and whether an instruction succeeds or fails.

## Main definitions

* `Run.Sealed` — the variable is sealed, and nothing that the run computes with mentions it
* `Exec.Seals` — an action after which this is still so

## Main results

* `Exec.Seals.bind` — one action after the other
* `Exec.seals_inferImplicit` — the inferred arguments of a call
* `Exec.seals_step` — **one step**
-/

namespace Reified

/-- The value is no type in which the variable occurs. -/
def Value.Omits (id : Nat) : Value → Prop
  | .type t => t.Omits id
  | _ => True

/-- No value that can be read from the heap is a type in which the variable occurs. -/
structure Heap.Omits (id : Nat) (h : Heap) : Prop where
  lists : ∀ vs ∈ h.lists, ∀ v ∈ vs, v.Omits id
  objects : ∀ fs ∈ h.objects, ∀ f ∈ fs, f.2.Omits id
  environments : ∀ e ∈ h.environments, ∀ f ∈ e.values, f.2.Omits id

/-- The variable is sealed, and no value of the machine mentions it. It may occur in signatures. -/
structure Machine.Sealed (id : Nat) (m : Machine) : Prop where
  table : m.table.Sealed id
  heap : m.heap.Omits id

/-- The variable is sealed, and nothing that the run computes with mentions it. -/
structure Run.Sealed (id : Nat) (r : Run) : Prop where
  machine : r.machine.Sealed id
  top : ∀ v ∈ r.top.registers, v.Omits id
  callers : ∀ a ∈ r.callers, ∀ v ∈ a.registers, v.Omits id

/-! ## Heaps -/

namespace Heap.Omits

variable {id c e i : Nat} {h : Heap} {v : Value} {name : String}

theorem list (hh : h.Omits id) (hv : v ∈ h.list c) : v.Omits id := by
  rw [Heap.list, Array.getD_eq_getD_getElem?] at hv
  cases hc : h.lists[c]? with
  | none => simp [hc] at hv
  | some vs =>
    rw [hc] at hv
    exact hh.lists vs (Array.mem_of_getElem? hc) v hv

theorem field (hh : h.Omits id) (hv : Fields.get? name (h.object c) = some v) : v.Omits id := by
  rw [object, Array.getD_eq_getD_getElem?] at hv
  cases hc : h.objects[c]? with
  | none =>
    rw [hc] at hv
    cases hv
  | some fs =>
    rw [hc] at hv
    exact hh.objects fs (Array.mem_of_getElem? hc) _ (Fields.mem_of_get?_eq_some hv)

theorem field? (hh : h.Omits id) {o : Value} (hv : Exec.field? h o name = some v) : v.Omits id := by
  cases o with
  | object c => exact hh.field hv
  | _ => cases hv

theorem lookup (hh : h.Omits id) (hv : h.lookup e name = some v) : v.Omits id := by
  fun_induction Heap.lookup with
  | case1 e w hw =>
    cases hv
    rw [environment, Array.getD_eq_getD_getElem?] at hw
    cases he : h.environments[e]? with
    | none =>
      rw [he] at hw
      cases hw
    | some E =>
      rw [he] at hw
      exact hh.environments E (Array.mem_of_getElem? he) _ (Fields.mem_of_get?_eq_some hw)
  | case2 e hnone outer hparent hlt ih => exact ih hv
  | case3 => cases hv
  | case4 => cases hv

theorem pushList {vs : Array Value} (hh : h.Omits id) (hvs : ∀ v ∈ vs, v.Omits id) :
    Omits id { h with lists := h.lists.push vs } := by
  refine { hh with lists := fun xs hxs => ?_ }
  rcases Array.mem_push.mp hxs with hxs | rfl
  · exact hh.lists xs hxs
  · exact hvs

theorem pushObject {fs : Fields Value} (hh : h.Omits id) (hfs : ∀ f ∈ fs, f.2.Omits id) :
    Omits id { h with objects := h.objects.push fs } := by
  refine { hh with objects := fun xs hxs => ?_ }
  rcases Array.mem_push.mp hxs with hxs | rfl
  · exact hh.objects xs hxs
  · exact hfs

theorem newEnvironment (hh : h.Omits id) (parent : Option Nat) : (h.newEnvironment parent).2.Omits id := by
  refine { hh with environments := fun E hE => ?_ }
  rcases Array.mem_push.mp hE with hE | rfl
  · exact hh.environments E hE
  · exact fun f hf => nomatch hf

theorem of_mem_modify {α : Type} {xs : Array α} {f : α → α} {y : α} (hy : y ∈ xs.modify c f) :
    y ∈ xs ∨ ∃ x ∈ xs, y = f x := by
  obtain ⟨j, hj, rfl⟩ := Array.mem_iff_getElem.mp hy
  rw [Array.size_modify] at hj
  rw [Array.getElem_modify]
  split
  · exact .inr ⟨xs[j], Array.getElem_mem hj, rfl⟩
  · exact .inl (Array.getElem_mem hj)

theorem setItem (hh : h.Omits id) (hv : v.Omits id) : (h.setItem c i v).Omits id := by
  refine { hh with lists := fun vs hvs w hw => ?_ }
  simp only [Heap.setItem] at hvs
  rcases of_mem_modify hvs with hvs | ⟨items, hitems, rfl⟩
  · exact hh.lists vs hvs w hw
  · rcases Array.mem_or_eq_of_mem_setIfInBounds hw with hw | rfl
    · rcases Array.mem_append.mp hw with hw | hw
      · exact hh.lists items hitems w hw
      · rw [(Array.mem_replicate.mp hw).2]
        trivial
    · exact hv

theorem setField (hh : h.Omits id) (hv : v.Omits id) : (h.setField c name v).Omits id := by
  refine { hh with objects := fun fs hfs f hf => ?_ }
  simp only [Heap.setField] at hfs
  rcases of_mem_modify hfs with hfs | ⟨fields, hfields, rfl⟩
  · exact hh.objects fs hfs f hf
  · rcases Fields.mem_of_mem_insert hf with rfl | hf
    · exact hv
    · exact hh.objects fields hfields f hf

theorem define (hh : h.Omits id) (hv : v.Omits id) : (h.define e name v).Omits id := by
  refine { hh with environments := fun E hE f hf => ?_ }
  simp only [Heap.define] at hE
  rcases of_mem_modify hE with hE | ⟨E, hE', rfl⟩
  · exact hh.environments E hE f hf
  · rcases Fields.mem_of_mem_insert hf with rfl | hf
    · exact hv
    · exact hh.environments E hE' f hf

mutual

/-- The zero value of a type and its cells mention no variable. -/
theorem zero : (t : Ty) → {h : Heap} → h.Omits id → (zero t h).1.Omits id ∧ (zero t h).2.Omits id
  | .name s, h, hh => by
    rw [Heap.zero.eq_def]
    split <;> first | exact ⟨trivial, hh⟩ | exact ⟨Ty.omits_name _, hh⟩ | simp_all
  | .array _, h, hh => ⟨trivial, hh.pushList fun _ hv => by simp at hv⟩
  | .tuple ts, h, hh => by
    obtain ⟨hvs, hh'⟩ := zeros ts hh
    rw [Heap.zero]
    exact ⟨trivial, hh'.pushList fun v hv => hvs v (List.mem_toArray.mp hv)⟩
  | .record fs, h, hh => by
    obtain ⟨hvs, hh'⟩ := zeroFields fs hh
    rw [Heap.zero]
    exact ⟨trivial, hh'.pushObject hvs⟩
  | .union t _, h, hh => by
    rw [Heap.zero]
    exact zero t hh
  | .binding _ t, h, hh => by
    rw [Heap.zero]
    exact zero t hh
  | .var _, h, hh => ⟨trivial, hh⟩
  | .fn .., h, hh => ⟨trivial, hh⟩

theorem zeros : (ts : List Ty) → {h : Heap} → h.Omits id →
    (∀ v ∈ (Heap.zeros ts h).1, v.Omits id) ∧ (Heap.zeros ts h).2.Omits id
  | [], h, hh => ⟨fun _ hv => (nomatch hv), hh⟩
  | t :: ts, h, hh => by
    obtain ⟨hv, hh'⟩ := zero t hh
    obtain ⟨hvs, hh''⟩ := zeros ts hh'
    rw [Heap.zeros]
    exact ⟨List.forall_mem_cons.mpr ⟨hv, hvs⟩, hh''⟩

theorem zeroFields : (fs : List (String × Ty)) → {h : Heap} → h.Omits id →
    (∀ f ∈ (Heap.zeroFields fs h).1, f.2.Omits id) ∧ (Heap.zeroFields fs h).2.Omits id
  | [], h, hh => ⟨fun _ hv => (nomatch hv), hh⟩
  | (name, t) :: fs, h, hh => by
    obtain ⟨hv, hh'⟩ := zero t hh
    obtain ⟨hvs, hh''⟩ := zeroFields fs hh'
    rw [Heap.zeroFields]
    exact ⟨List.forall_mem_cons.mpr ⟨hv, hvs⟩, hh''⟩

end

end Heap.Omits

/-! ## Actions -/

namespace Exec

variable {α β : Type} {id : Nat} {x : Exec α} {f : α → Exec β} {P P' : α → Prop} {Q : β → Prop} {r r' : Run}

/-- After the action the variable is still sealed, and the answer has the property. If the action fails, the first of
these is known of the machine. -/
def Seals (id : Nat) (x : Exec α) (P : α → Prop) : Prop :=
  ∀ r, r.Sealed id → match x r with
    | .ok a r' => P a ∧ r'.Sealed id
    | .error _ r' => r'.machine.Sealed id

namespace Seals

theorem ok {a : α} (hx : Seals id x P) (hr : r.Sealed id) (h : x r = .ok a r') : P a ∧ r'.Sealed id := by
  have hout := hx r hr
  rwa [h] at hout

theorem error {e : Fault} (hx : Seals id x P) (hr : r.Sealed id) (h : x r = .error e r') : r'.machine.Sealed id := by
  have hout := hx r hr
  rwa [h] at hout

theorem pure {a : α} (h : P a) : Seals id (pure a) P := fun _ hr => ⟨h, hr⟩

theorem throw (e : Fault) : Seals id (throw e : Exec α) P := fun _ hr => hr.machine

/-- **One action after the other.** -/
theorem bind (hx : Seals id x P) (hf : ∀ a, P a → Seals id (f a) Q) : Seals id (x >>= f) Q := by
  intro r hr
  cases h : (x >>= f) r with
  | ok b r' =>
    obtain ⟨a, r₁, hxr, hfr⟩ := bind_eq_ok h
    obtain ⟨ha, hr₁⟩ := hx.ok hr hxr
    exact (hf a ha).ok hr₁ hfr
  | error e r' =>
    rcases bind_eq_error h with hxr | ⟨a, r₁, hxr, hfr⟩
    · exact hx.error hr hxr
    · obtain ⟨ha, hr₁⟩ := hx.ok hr hxr
      exact (hf a ha).error hr₁ hfr

theorem imp (hx : Seals id x P) (h : ∀ a, P a → P' a) : Seals id x P' := by
  intro r hr
  cases hxr : x r with
  | ok a r' =>
    obtain ⟨ha, hr'⟩ := hx.ok hr hxr
    exact ⟨h a ha, hr'⟩
  | error e r' => exact hx.error hr hxr

theorem ite {c : Prop} [Decidable c] {x y : Exec α} (hx : Seals id x P) (hy : Seals id y P) :
    Seals id (if c then x else y) P := by
  split
  · exact hx
  · exact hy

theorem get : Seals id get fun r => r.Sealed id := fun _ hr => ⟨hr, hr⟩

theorem heap : Seals id heap fun h => h.Omits id := fun _ hr => ⟨hr.machine.heap, hr⟩

theorem onHeap {g : Heap → α × Heap} (h : ∀ h : Heap, h.Omits id → P (g h).1 ∧ (g h).2.Omits id) :
    Seals id (onHeap g) P := fun _ hr =>
  ⟨(h _ hr.machine.heap).1, { hr with machine := { hr.machine with heap := (h _ hr.machine.heap).2 } }⟩

theorem onFrames {g : Frames → Table → α × Frames × Table}
    (h : ∀ F (T : Table), T.Sealed id → P (g F T).1 ∧ (g F T).2.2.Sealed id) : Seals id (onFrames g) P := fun r hr =>
  ⟨(h _ _ hr.machine.table).1,
    { hr with machine := { hr.machine with table := (h r.machine.frames _ hr.machine.table).2 } }⟩

theorem onTable {g : Table → α × Table} (h : ∀ T : Table, T.Sealed id → P (g T).1 ∧ (g T).2.Sealed id) :
    Seals id (onTable g) P := onFrames (g := fun F T => ((g T).1, F, (g T).2)) fun _ => h

theorem text (v : Value) : Seals id (text v) fun _ => True := heap.bind fun _ _ => .pure trivial

/-- A failure whose cause names a value. -/
theorem throwText (v : Value) (e : String → Fault) :
    Seals id (Exec.text v >>= fun s => (MonadExcept.throw (e s) : Exec α)) P := (text v).bind fun _ _ => .throw _

/-! ### The block in execution -/

/-- Each way in which the action can end. -/
theorem of_run (h : ∀ r, r.Sealed id → (∃ a r', x r = .ok a r' ∧ P a ∧ r'.Sealed id) ∨
    ∃ e r', x r = .error e r' ∧ r'.machine.Sealed id) : Seals id x P := by
  intro r hr
  rcases h r hr with ⟨a, r', hrun, h⟩ | ⟨e, r', hrun, h⟩
  · rw [hrun]
    exact h
  · rw [hrun]
    exact h

/-- Looking at a part of the run that may not be there. -/
theorem look (h : ∀ r, (∃ a, x r = .ok a r) ∨ ∃ e, x r = .error e r) : Seals id x fun _ => True := .of_run fun r hr =>
  (h r).imp (fun ⟨a, ha⟩ => ⟨a, r, ha, trivial, hr⟩) fun ⟨e, he⟩ => ⟨e, r, he, hr.machine⟩

theorem read (r : Register) : Seals id (read r) (Value.Omits id) := fun s hs => by
  unfold Exec.read
  cases h : s.top.registers[r.index]? with
  | some v => exact ⟨hs.top v (Array.mem_of_getElem? h), hs⟩
  | none => exact hs.machine

theorem write (r : Register) {v : Value} (hv : v.Omits id) : Seals id (write r v) fun _ => True :=
  .of_run fun ⟨_, ⟨_, _, _, _, _⟩, _⟩ hs => by
    rw [Exec.write]
    split
    · refine .inl ⟨_, _, rfl, trivial, { hs with top := fun w hw => ?_ }⟩
      rcases Array.mem_or_eq_of_mem_setIfInBounds hw with hw | rfl
      · exact hs.top w hw
      · exact hv
    · exact .inr ⟨_, _, rfl, hs.machine⟩

theorem create (dst : Register) {g : Heap → Value × Heap}
    (h : ∀ h : Heap, h.Omits id → (g h).1.Omits id ∧ (g h).2.Omits id) : Seals id (create dst g) fun _ => True :=
  (onHeap h).bind fun _ hv => write dst hv

theorem readFrom (first : Register) {done : Array Value} (hdone : ∀ v ∈ done, v.Omits id) : (count : Nat) →
    Seals id (readFrom first done count) fun vs => ∀ v ∈ vs, v.Omits id
  | 0 => pure hdone
  | n + 1 => (read _).bind fun v hv =>
    have hpush : ∀ w ∈ done.push v, w.Omits id := fun w hw =>
      (Array.mem_push.mp hw).elim (hdone w) fun heq => heq ▸ hv
    readFrom first hpush n

theorem readRange (first : Register) (count : UInt32) :
    Seals id (readRange first count) fun vs => ∀ v ∈ vs, v.Omits id :=
  readFrom first (fun v hv => absurd hv (Array.not_mem_empty v)) count.toNat

theorem writeFrom (first : Register) : (done : Nat) → (vs : List Value) → (∀ v ∈ vs, v.Omits id) →
    Seals id (writeFrom first done vs) fun _ => True
  | _, [], _ => pure trivial
  | done, v :: vs, h => (write _ (h v List.mem_cons_self)).bind fun _ _ =>
      writeFrom first (done + 1) vs fun w hw => h w (List.mem_cons_of_mem v hw)

theorem identifier (i : UInt32) : Seals id (identifier i) fun _ => True := look fun s => by
  unfold Exec.identifier
  split
  · exact .inl ⟨_, rfl⟩
  · exact .inr ⟨_, rfl⟩

theorem constant (i : UInt32) : Seals id (constant i) (Value.Omits id) := fun s hs => by
  unfold Exec.constant
  cases s.top.block.constant? i with
  | some c => exact ⟨by cases c <;> trivial, hs⟩
  | none => exact hs.machine

theorem nested (i : UInt32) : Seals id (nested i) fun _ => True := look fun s => by
  unfold Exec.nested
  split
  · exact .inl ⟨_, rfl⟩
  · exact .inr ⟨_, rfl⟩

theorem message (i : UInt32) : Seals id (message i) fun _ => True := look fun s => by
  unfold Exec.message
  split <;> exact .inl ⟨_, rfl⟩

theorem lookup (name : String) : Seals id (lookup name) (Value.Omits id) := fun s hs => by
  unfold Exec.lookup
  cases h : s.machine.heap.lookup s.top.environment name with
  | some v => exact ⟨hs.machine.heap.lookup h, hs⟩
  | none => exact hs.machine

theorem jump (t : Int32) : Seals id (jump t) fun _ => True := .of_run fun ⟨_, ⟨_, _, _, _, _⟩, _⟩ hs => by
  rw [Exec.jump]
  split
  · exact .inl ⟨_, _, rfl, trivial, { hs with }⟩
  · exact .inr ⟨_, _, rfl, hs.machine⟩

theorem fetch : Seals id fetch fun _ => True := .of_run fun ⟨_, ⟨_, _, _, _, _⟩, _⟩ hs => by
  rw [Exec.fetch]
  split
  · exact .inl ⟨_, _, rfl, trivial, { hs with }⟩
  · exact .inr ⟨_, _, rfl, hs.machine⟩

theorem setEnvironment (e : Nat) : Seals id (setEnvironment e) fun _ => True := fun _ hs => ⟨trivial, { hs with }⟩

theorem enter {a : Activation} (ha : ∀ v ∈ a.registers, v.Omits id) : Seals id (enter a) fun _ => True := fun _ hs =>
  ⟨trivial, hs.machine, ha, List.forall_mem_cons.mpr ⟨hs.top, hs.callers⟩⟩

theorem back : Seals id back fun _ => True := fun
  | ⟨_, ⟨_, _, _, _, _⟩, []⟩, hs => ⟨trivial, hs⟩
  | ⟨_, ⟨_, _, _, _, _⟩, _ :: _⟩, hs =>
    have hcallers := List.forall_mem_cons.mp hs.callers
    ⟨trivial, hs.machine, hcallers.1, hcallers.2⟩

end Seals

/-! ## Types -/

variable {s t : Ty} {v : Value} {vs : List Value}

theorem seals_unify (hs : s.Omits id) (ht : t.Omits id) : Seals id (unify s t) fun _ => True := by
  intro r hr
  have htable := hr.machine.table.unify hs ht
  rw [unify]
  cases h : r.machine.table.unify s t with
  | ok _ T =>
    rw [h] at htable
    exact ⟨trivial, { hr with machine := { hr.machine with table := htable } }⟩
  | error e T =>
    rw [h] at htable
    exact { hr.machine with table := htable }

theorem seals_resolve (ht : t.Omits id) : Seals id (resolve t) (Ty.Omits id) := .onTable fun _ hT => hT.resolve ht

/-- The form of a type may be looked at, whatever variables it has. -/
theorem seals_resolve_any (t : Ty) : Seals id (resolve t) fun _ => True := .onTable fun _ hT =>
  ⟨trivial, hT.table_resolve t⟩

theorem seals_resolveDeep (ht : t.Omits id) : Seals id (resolveDeep t) (Ty.Omits id) := .onTable fun _ hT =>
  hT.resolveDeep ht

theorem seals_newVar (name : String) (inferred rigid : Bool) : Seals id (newVar name inferred rigid) (Ty.Omits id) :=
  .onFrames fun _ _ hT => hT.newVar name inferred rigid _

theorem seals_freshVar : Seals id freshVar (Ty.Omits id) := seals_newVar "" false false

theorem seals_instantiate (t : Ty) : Seals id (instantiate t) (Ty.Omits id) := .onFrames fun _ _ hT => hT.instantiate t _

theorem seals_pushFrame : Seals id pushFrame fun _ => True := .onFrames fun _ _ hT => ⟨trivial, hT⟩

theorem seals_popFrame : Seals id popFrame fun _ => True := .onFrames fun F _ hT => ⟨trivial, hT.pop F⟩

theorem seals_freshVars : {done : List Ty} → (∀ t ∈ done, t.Omits id) → (n : Nat) →
    Seals id (freshVars done n) fun ts => ∀ t ∈ ts, t.Omits id
  | _, hdone, 0 => .pure fun t ht => hdone t (List.mem_reverse.mp ht)
  | _, hdone, n + 1 => seals_freshVar.bind fun _ ht => seals_freshVars (List.forall_mem_cons.mpr ⟨ht, hdone⟩) n

theorem seals_mapM {γ δ : Type} {f : γ → Exec δ} {P : δ → Prop} (hf : ∀ x, Seals id (f x) P) (xs : List γ) :
    Seals id (xs.mapM f) fun ys => ∀ y ∈ ys, P y := by
  induction xs with
  | nil => exact .pure nofun
  | cons x xs ih =>
    rw [List.mapM_cons]
    exact (hf x).bind fun _ hy => ih.bind fun _ hys => .pure (List.forall_mem_cons.mpr ⟨hy, hys⟩)

theorem omits_signature (op : Operator) (ht : t.Omits id) : (op.signature t).Omits id := by
  refine Ty.omits_fn (fun u hu => ?_) ?_
  · cases op <;> simp at hu <;> first | exact hu ▸ ht | exact hu ▸ Ty.omits_name _
  · cases op <;> exact Ty.omits_name _

/-- **The type of a value** is found without the variable, whatever the value is. -/
theorem seals_typeOfWithin (n : Nat) (v : Value) : Seals id (typeOfWithin n v) (Ty.Omits id) := by
  induction n generalizing v with
  | zero =>
    cases v with
    | builtin op => exact seals_freshVar.bind fun _ ht => .pure (omits_signature op ht)
    | function c => exact Seals.heap.bind fun _ _ => seals_instantiate _
    | array | tuple | object | hole => exact seals_freshVar
    | unit | bool | number | string | type => exact .pure (Ty.omits_name _)
  | succ n ih =>
    cases v with
    | builtin op => exact seals_freshVar.bind fun _ ht => .pure (omits_signature op ht)
    | function c => exact Seals.heap.bind fun _ _ => seals_instantiate _
    | array c =>
      rw [typeOfWithin]
      refine Seals.heap.bind fun h _ => ?_
      split
      · exact (ih _).bind fun _ ht => .pure ht.array
      · exact seals_freshVar.bind fun _ ht => .pure ht.array
    | tuple c =>
      rw [typeOfWithin]
      exact Seals.heap.bind fun _ _ => (seals_mapM ih _).bind fun _ hts => .pure (Ty.omits_tuple hts)
    | object c =>
      rw [typeOfWithin]
      exact Seals.heap.bind fun _ _ => (seals_mapM (P := fun f : String × Ty => f.2.Omits id)
        (fun f : String × Value => (ih f.2).bind fun _ ht => .pure ht) _).bind fun _ hfs => .pure (Ty.omits_record hfs)
    | hole => exact seals_freshVar
    | unit | bool | number | string | type => exact .pure (Ty.omits_name _)

theorem seals_typeOf (v : Value) : Seals id (typeOf v) (Ty.Omits id) := Seals.heap.bind fun _ _ =>
  seals_typeOfWithin _ v

theorem seals_asType (hv : v.Omits id) : Seals id (asType v) (Ty.Omits id) := by
  cases v with
  | type t => exact .pure hv
  | hole c => exact seals_freshVar
  | _ => exact .throwText _ _

theorem seals_asTypes : {done : List Ty} → (∀ t ∈ done, t.Omits id) → (vs : List Value) → (∀ v ∈ vs, v.Omits id) →
    Seals id (asTypes done vs) fun ts => ∀ t ∈ ts, t.Omits id
  | _, hdone, [], _ => .pure fun t ht => hdone t (List.mem_reverse.mp ht)
  | _, hdone, v :: vs, hvs => (seals_asType (hvs v List.mem_cons_self)).bind fun _ ht =>
      seals_asTypes (List.forall_mem_cons.mpr ⟨ht, hdone⟩) vs fun w hw => hvs w (List.mem_cons_of_mem v hw)

theorem seals_checkType (expected : TyClass) (hv : v.Omits id) : Seals id (checkType expected v) fun _ => True := by
  rw [checkType.eq_def]
  split
  case h_4 => exact (seals_resolve hv).bind fun _ _ => .pure trivial
  all_goals exact .pure trivial

theorem seals_checkTypeOf (expected : TyClass) (v : Value) : Seals id (checkTypeOf expected v) fun _ => True := by
  rw [checkTypeOf.eq_def]
  split
  case h_5 => exact (seals_typeOf _).bind fun _ ht => (seals_resolve ht).bind fun _ _ => .pure trivial
  all_goals exact .pure trivial

theorem seals_recordFields : {fields : Fields Ty} → (∀ f ∈ fields, f.2.Omits id) → (keys : List Value) →
    (ts : List Ty) → (∀ t ∈ ts, t.Omits id) → Seals id (recordFields fields keys ts) fun fs => ∀ f ∈ fs, f.2.Omits id
  | _, hfields, [], _, _ => .pure hfields
  | _, hfields, _ :: _, [], _ => .pure hfields
  | fields, hfields, key :: keys, t :: ts, hts => by
    obtain ⟨ht, hts⟩ := List.forall_mem_cons.mp hts
    cases key with
    | string name =>
      refine seals_recordFields (fun f hf => ?_) keys ts hts
      rcases Fields.mem_of_mem_insert hf with rfl | hf
      · exact ht
      · exact hfields f hf
    | _ => exact .throwText _ _

/-! ## Elements -/

theorem seals_index (v : Value) : Seals id (index v) fun _ => True := by
  cases v with
  | number x =>
    rw [index]
    split
    · exact .pure trivial
    · exact .throwText _ _
  | _ => exact .throwText _ _

theorem seals_item {shown : Exec String} (h : Seals id shown fun _ => True) (c i : Nat) (target : Value) :
    Seals id (item c i shown target) (Value.Omits id) := by
  refine Seals.heap.bind fun H hH => ?_
  split
  next v hv => exact .pure (hH.list (Array.mem_of_getElem? hv))
  next => exact h.bind fun _ _ => .throwText _ _

theorem seals_subscript (target i : Value) : Seals id (subscript target i) (Value.Omits id) := by
  rw [subscript.eq_def]
  split
  case h_1 => exact (seals_index _).bind fun _ _ => seals_item (.text _) _ _ _
  case h_2 =>
    refine Seals.heap.bind fun H hH => ?_
    split
    next v hv => exact .pure (hH.field hv)
    next => exact .throwText _ _
  case h_3 => exact .ite (.onHeap fun _ hH => ⟨trivial, { hH with }⟩) <| (Seals.text _).bind fun _ _ => .throwText _ _

/-! ## Inferred arguments -/

theorem seals_unifyArgs (function : String) (args : Array Value) : (position : Nat) → (params : List Ty) →
    (∀ t ∈ params, t.Omits id) → Seals id (unifyArgs function args position params) fun _ => True
  | _, [], _ => .pure trivial
  | position, param :: params, h => by
    obtain ⟨hparam, hparams⟩ := List.forall_mem_cons.mp h
    rw [unifyArgs]
    split
    · exact .throw _
    · exact (seals_typeOf _).bind fun t ht => (seals_unify hparam ht).bind fun _ _ =>
        seals_unifyArgs function args (position + 1) params hparams

theorem seals_readSlots : {done : List Ty} → (∀ t ∈ done, t.Omits id) → (slots : List Ty) → (∀ t ∈ slots, t.Omits id) →
    Seals id (readSlots done slots) fun ts => ∀ t ∈ ts, t.Omits id
  | _, hdone, [], _ => .pure fun t ht => hdone t (List.mem_reverse.mp ht)
  | done, hdone, slot :: slots, h => by
    obtain ⟨hslot, hslots⟩ := List.forall_mem_cons.mp h
    have hinner : slot.slotType.2.Omits id := by
      cases slot <;> exact hslot
    rw [readSlots_cons]
    refine (seals_resolveDeep hinner).bind fun t ht => ?_
    split
    · exact .throw _
    · exact seals_readSlots (List.forall_mem_cons.mpr ⟨ht, hdone⟩) slots hslots

theorem seals_inferImplicit (c : Closure) (count : Nat) (args : Array Value) :
    Seals id (inferImplicit c count args) fun ts => ∀ t ∈ ts, t.Omits id := by
  refine (seals_instantiate _).bind fun t ht => (seals_resolve ht).bind fun u hu => ?_
  split
  next params result k =>
    have hparams : ∀ t ∈ params, t.Omits id := fun t ht w hw => hu w (by
      rw [Ty.vars, Ty.varsList_eq]
      exact List.mem_append_left _ (List.mem_flatMap.mpr ⟨t, ht, hw⟩))
    exact (seals_unifyArgs _ _ _ _ fun t ht => hparams t (List.mem_of_mem_drop ht)).bind fun _ _ =>
      seals_readSlots (List.forall_mem_nil _) _ fun t ht => hparams t (List.mem_of_mem_take ht)
  next => exact .throw _

theorem seals_inFrame {act : Exec α} (h : Seals id act P) : Seals id (inFrame act) P := by
  intro r hr
  have hact : Seals id (pushFrame >>= fun _ => act) P := seals_pushFrame.bind fun _ _ => h
  rw [inFrame]
  cases hrun : (pushFrame >>= fun _ => act) r with
  | ok a r₁ =>
    obtain ⟨ha, hr₁⟩ := hact.ok hr hrun
    exact ⟨ha, (seals_popFrame r₁ hr₁).2⟩
  | error e r₁ => exact { hact.error hr hrun with table := (hact.error hr hrun).table.pop _ }

theorem seals_completeArgs (c : Closure) {args : Array Value} (hargs : ∀ v ∈ args, v.Omits id) :
    Seals id (completeArgs c args) fun vs => ∀ v ∈ vs, v.Omits id := by
  rw [completeArgs]
  split
  · exact .pure hargs
  refine (seals_resolve_any _).bind fun t _ => ?_
  extract_lets implicit all given
  have hall : ∀ v ∈ all, v.Omits id := fun v hv => by
    rcases Array.mem_append.mp hv with hv | hv
    · rw [(Array.mem_replicate.mp hv).2]
      trivial
    · exact hargs v hv
  have hgiven : Seals id (given ()) fun vs => ∀ v ∈ vs, v.Omits id := by
    refine (seals_inFrame (seals_inferImplicit _ _ _)).bind fun ts hts => .pure fun v hv => ?_
    rcases Array.mem_append.mp hv with hv | hv
    · obtain ⟨t, ht, rfl⟩ := List.mem_map.mp (List.mem_toArray.mp hv)
      exact hts t ht
    · obtain ⟨j, hj, rfl⟩ := Array.mem_extract_iff_getElem.mp hv
      exact hall _ (Array.getElem_mem _)
  split
  · exact (Seals.throw (P := fun _ : PUnit => True) _).bind fun _ _ => hgiven
  · exact hgiven

/-! ## Instructions -/

/-- **The variable remains sealed** under every instruction. -/
theorem seals_instr (i : Instr) : Seals id (instr i) fun _ => True := by
  cases i with
  | leave | call | newFunction => exact .pure trivial
  | move dst src => exact (Seals.read _).bind fun _ hv => .write _ hv
  | loadConstant dst c => exact (Seals.constant _).bind fun _ hv => .write _ hv
  | getLocal dst j => exact (Seals.identifier _).bind fun _ _ => (Seals.lookup _).bind fun _ hv => .write _ hv
  | setLocal j src =>
    exact (Seals.identifier _).bind fun _ _ => (Seals.read _).bind fun _ hv => Seals.get.bind fun _ _ =>
      .onHeap fun _ hh => ⟨trivial, hh.define hv⟩
  | newArray => exact .create _ fun _ hh => ⟨trivial, hh.pushList fun v hv => absurd hv (Array.not_mem_empty v)⟩
  | newTuple =>
    refine .create _ fun _ hh => ⟨trivial, hh.pushList fun v hv => ?_⟩
    rw [(Array.mem_replicate.mp hv).2]
    trivial
  | newObject => exact .create _ fun _ hh => ⟨trivial, hh.pushObject (List.forall_mem_nil _)⟩
  | setArrayIndex array j value =>
    refine (Seals.read _).bind fun v _ => ?_
    cases v with
    | array c => exact (Seals.read _).bind fun _ hv => .onHeap fun _ hh => ⟨trivial, hh.setItem hv⟩
    | _ => exact .throw _
  | getArrayIndex dst array j =>
    refine (Seals.read _).bind fun target _ => (Seals.read _).bind fun j _ => ?_
    cases target with
    | array c =>
      exact (seals_index j).bind fun _ _ => (seals_item (.text j) c _ _).bind fun _ hv => .write _ hv
    | _ => exact .throwText _ _
  | setTupleIndex tuple j value =>
    refine (Seals.read _).bind fun v _ => ?_
    cases v with
    | tuple c =>
      exact (Seals.read _).bind fun _ hv => Seals.heap.bind fun _ _ =>
        .ite (.onHeap fun _ hh => ⟨trivial, hh.setItem hv⟩) (.throw _)
    | _ => exact .throw _
  | getTupleIndex dst tuple j =>
    refine (Seals.read _).bind fun target _ => ?_
    cases target with
    | tuple c => exact (seals_item (.pure trivial) c _ _).bind fun _ hv => .write _ hv
    | _ => exact .throwText _ _
  | setField object f value =>
    refine (Seals.read _).bind fun v _ => ?_
    cases v with
    | object c =>
      exact (Seals.identifier _).bind fun _ _ => (Seals.read _).bind fun _ hv =>
        .onHeap fun _ hh => ⟨trivial, hh.setField hv⟩
    | _ => exact .throw _
  | getField dst object f =>
    refine (Seals.identifier _).bind fun _ _ => (Seals.read _).bind fun _ _ => Seals.heap.bind fun _ hh => ?_
    split
    next hv => exact .write _ (hh.field? hv)
    next => exact .throwText _ _
  | tryGetField dst object f t =>
    refine (Seals.identifier _).bind fun _ _ => (Seals.read _).bind fun _ _ => Seals.heap.bind fun _ hh => ?_
    split
    next hv => exact .write _ (hh.field? hv)
    next => exact .jump t
  | jump t => exact .jump t
  | jumpIfFalse condition t =>
    refine (Seals.read _).bind fun v _ => ?_
    split
    · exact .pure trivial
    · exact .jump t
    · exact .throwText _ _
  | isEqual dst lhs rhs => exact (Seals.read _).bind fun _ _ => (Seals.read _).bind fun _ _ => .write _ trivial
  | pushScope =>
    exact Seals.get.bind fun _ _ => (Seals.onHeap (P := fun _ => True) fun _ hh =>
      ⟨trivial, hh.newEnvironment _⟩).bind fun _ _ => .setEnvironment _
  | popScope =>
    refine Seals.get.bind fun _ _ => ?_
    split
    · exact .setEnvironment _
    · exact .throw _
  | pushFrame => exact seals_pushFrame
  | popFrame => exact seals_popFrame
  | unify lhs rhs =>
    exact (Seals.read _).bind fun _ hv => (seals_asType hv).bind fun _ hs => (Seals.read _).bind fun _ hw =>
      (seals_asType hw).bind fun _ ht => seals_unify hs ht
  | resolveType dst ty =>
    exact (Seals.read _).bind fun _ hv => (seals_asType hv).bind fun _ ht => (seals_resolveDeep ht).bind fun _ hu =>
      .write _ hu
  | checkType dst ty expected =>
    exact (Seals.read _).bind fun _ hv => (seals_checkType _ hv).bind fun _ _ => .write _ trivial
  | checkTypeOf dst value expected =>
    exact (Seals.read _).bind fun _ _ => (seals_checkTypeOf _ _).bind fun _ _ => .write _ trivial
  | typeError j | runtimeError j => exact (Seals.message _).bind fun _ _ => .throw _
  | inferImplicit function count first =>
    refine (Seals.read _).bind fun callee _ => Seals.get.bind fun _ _ => ?_
    cases callee with
    | function c =>
      refine Seals.heap.bind fun _ _ => (seals_inferImplicit _ _ _).bind fun ts hts => .writeFrom _ _ _ fun v hv => ?_
      obtain ⟨t, ht, rfl⟩ := List.mem_map.mp hv
      exact hts t ht
    | _ => exact .throwText _ _
  | newVarType dst name inferred rigid =>
    exact (Seals.identifier _).bind fun _ _ => (seals_newVar _ _ _).bind fun _ ht => .write _ ht
  | newNameType dst name => exact (Seals.identifier _).bind fun _ _ => .write _ (Ty.omits_name _)
  | newArrayType dst item =>
    exact (Seals.read _).bind fun _ hv => (seals_asType hv).bind fun _ ht => .write _ ht.array
  | newTupleType dst count first =>
    exact (Seals.readRange _ _).bind fun vs hvs => (seals_asTypes (List.forall_mem_nil _) _ fun v hv =>
      hvs v (Array.mem_toList_iff.mp hv)).bind fun _ hts => .write _ (Ty.omits_tuple hts)
  | newRecordType dst count firstKey firstType =>
    exact (Seals.readRange _ _).bind fun keys _ => (Seals.readRange _ _).bind fun vs hvs =>
      (seals_asTypes (List.forall_mem_nil _) _ fun v hv => hvs v (Array.mem_toList_iff.mp hv)).bind fun _ hts =>
        (seals_recordFields (List.forall_mem_nil _) _ _ hts).bind fun _ hfs => .write _ (Ty.omits_record hfs)
  | newFunctionType dst count first result implicit =>
    exact (Seals.readRange _ _).bind fun vs hvs => (seals_asTypes (List.forall_mem_nil _) _ fun v hv =>
      hvs v (Array.mem_toList_iff.mp hv)).bind fun _ hts => (Seals.read _).bind fun _ hv =>
        (seals_asType hv).bind fun _ ht => .write _ (Ty.omits_fn hts ht)
  | newUnionType dst lhs rhs =>
    exact (Seals.read _).bind fun _ hv => (seals_asType hv).bind fun _ hs => (Seals.read _).bind fun _ hw =>
      (seals_asType hw).bind fun _ ht => .write _ (Ty.omits_union hs ht)
  | newBindingType dst name ty =>
    exact (Seals.identifier _).bind fun _ _ => (Seals.read _).bind fun _ hv => (seals_asType hv).bind fun _ ht =>
      .write _ (ht.binding _)
  | newValue dst ty =>
    exact (Seals.read _).bind fun _ hv => (seals_asType hv).bind fun _ ht => (seals_resolveDeep ht).bind fun t _ =>
      .create _ fun _ hh => hh.zero t
  | getTypeForValue dst value =>
    exact (Seals.read _).bind fun _ _ => (seals_typeOf _).bind fun _ ht => .write _ ht
  | newCallHole dst callee argc first =>
    exact (Seals.read _).bind fun _ _ => (Seals.readRange _ _).bind fun _ _ =>
      .ite (.create _ fun _ hh => ⟨trivial, { hh with }⟩) (.throwText _ _)
  | newSubscriptHole dst target j =>
    exact (Seals.read _).bind fun _ _ => (Seals.read _).bind fun _ _ => (seals_subscript _ _).bind fun _ hv =>
      .write _ hv
  | newMemberHole dst object f =>
    exact (Seals.identifier _).bind fun _ _ => (Seals.read _).bind fun _ _ =>
      .ite (.create _ fun _ hh => ⟨trivial, { hh with }⟩) (.throwText _ _)
  | isCell dst value kind => exact (Seals.read _).bind fun _ _ => .write _ trivial

/-! ## Steps -/

theorem omits_enter {B : Block} {p e : Nat} {args : Array Value} {resume : Resume} (hargs : ∀ v ∈ args, v.Omits id) :
    ∀ v ∈ (Activation.enter B p e args resume).registers, v.Omits id := fun v hv => by
  rcases Array.mem_append.mp hv with hv | hv
  · exact hargs v hv
  · rw [(Array.mem_replicate.mp hv).2]
    trivial

theorem omits_of_apply {op : Operator} {h : Heap} {a b : Value} (happly : op.apply h a b = .ok v) : v.Omits id := by
  cases v with
  | type t =>
    exfalso
    unfold Operator.apply at happly
    split at happly
    · cases happly
    · split at happly
      · cases op <;> cases happly
      · cases happly
  | _ => trivial

theorem seals_call (dst callee : Register) (argc : UInt32) (first : Register) :
    Seals id (call dst callee argc first) fun _ => True := by
  refine (Seals.read _).bind fun callee _ => (Seals.readRange _ _).bind fun args hargs => ?_
  cases callee with
  | function c =>
    exact Seals.heap.bind fun _ _ => (seals_completeArgs _ hargs).bind fun _ hvs =>
      (Seals.onHeap (P := fun _ => True) fun _ hh => ⟨trivial, hh.newEnvironment _⟩).bind fun _ _ =>
        .enter (omits_enter hvs)
  | builtin op =>
    dsimp only
    split
    · refine Seals.heap.bind fun _ _ => ?_
      split
      next happly => exact .write _ (omits_of_apply happly)
      next => exact .throw _
    · exact .throw _
  | _ => exact .throwText _ _

theorem seals_newFunction (dst : Register) (i : UInt32) : Seals id (newFunction dst i) fun _ => True := by
  refine (Seals.nested _).bind fun block _ => Seals.get.bind fun _ _ => ?_
  dsimp only
  split
  · exact (seals_freshVars (List.forall_mem_nil _) _).bind fun _ _ => seals_freshVar.bind fun _ _ =>
      .create _ fun _ hh => ⟨trivial, { hh with }⟩
  · exact (Seals.onHeap (P := fun _ => True) fun _ hh => ⟨trivial, hh.newEnvironment _⟩).bind fun _ _ =>
      .enter (omits_enter fun v hv => absurd hv (Array.not_mem_empty v))

theorem seals_leave (r : Register) : Seals id (leave r) fun _ => True := by
  have hclosure (k : Closure) (h : Heap) (hh : h.Omits id) :
      (h.newClosure k).1.Omits id ∧ (h.newClosure k).2.Omits id := ⟨trivial, { hh with }⟩
  refine (Seals.read _).bind fun v hv => Seals.back.bind fun resume _ => ?_
  split
  · exact .pure trivial
  · exact .pure trivial
  · exact (Seals.write _ hv).bind fun _ _ => .pure trivial
  · split
    · exact Seals.get.bind fun _ _ => (Seals.create _ (hclosure _)).bind fun _ _ => .pure trivial
    · exact .throwText _ _

/-- **The variable remains sealed** under every step, whatever the code is. -/
theorem seals_step : Seals id step fun _ => True := by
  refine Seals.fetch.bind fun i _ => ?_
  split
  · exact seals_leave _
  · exact (seals_call _ _ _ _).bind fun _ _ => .pure trivial
  · exact (seals_newFunction _ _).bind fun _ _ => .pure trivial
  · exact (seals_instr _).bind fun _ _ => .pure trivial

end Exec

/-- **The variable remains sealed** in every run. -/
theorem Run.Sealed.of_goes {id : Nat} {r r' : Run} (hr : r.Sealed id) (h : Goes r r') : r'.Sealed id := by
  obtain ⟨n, h⟩ := h
  induction n generalizing r with
  | zero => exact h ▸ hr
  | succ n ih =>
    obtain ⟨r₁, hstep, hrest⟩ := h
    exact ih (Exec.seals_step.ok hr hstep).2 hrest

end Reified
