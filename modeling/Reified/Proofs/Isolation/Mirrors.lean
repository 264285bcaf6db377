import Reified.Proofs.Isolation.Custody
import Reified.Proofs.Isolation.Frames
import Reified.Proofs.Machine.Inside

/-!
# A run behind an older machine

A run on a machine that has been used before is the same run on a new machine with everything moved behind what
was there before. An action that only changes types is followed step by step: it does the same in both places, and
when it fails, then for the same cause, in which the numbers of variables may be others.

## Main definitions

* `Machine.behind`, `Run.behind` — machines and runs behind an older machine
* `Fault.Renamed` — the same cause with other numbers of variables
* `Exec.Mirrors` — an action that only changes types, followed by the moved one

## Main results

* `Exec.Mirrors.bind` — one action after the other
* `Exec.mirrors_typeOf`, `Exec.mirrors_completeArgs`, … — actions on types
-/

namespace Reified

/-! ## Moved runs -/

/-- How much there is in a machine. -/
abbrev Machine.extent (m : Machine) : Extent := m.heap.extent m.table.size

/-- A machine behind an older one. The environment of the global names is shared. -/
def Machine.behind (m old : Machine) : Machine :=
  ⟨m.table.behind old.table.entries (old.frames.depth - 1), m.frames.behind old.frames old.table.size,
    m.heap.behind old.heap old.table.size, m.globals⟩

/-- The block in execution with its values and its environment behind those of an extent. -/
def Activation.move (o : Extent) (a : Activation) : Activation :=
  ⟨a.block, a.position, a.registers.map (Value.move o), o.environment a.environment, a.resume⟩

/-- A run behind an older machine. -/
def Run.behind (r : Run) (m : Machine) : Run :=
  ⟨r.machine.behind m, r.top.move m.extent, r.callers.map (Activation.move m.extent)⟩

/-- The run with other types. -/
def Run.withTypes (r : Run) (F : Frames) (T : Table) : Run :=
  ⟨⟨T, F, r.machine.heap, r.machine.globals⟩, r.top, r.callers⟩

/-! ## Moved failures -/

namespace Fault

/-- The wording of the cause mentions values or types. -/
def Mentions : Fault → Prop
  | .operands .. | .notCallable _ | .notArray _ | .notTuple _ | .notIndex _ | .indexOutOfBounds ..
  | .notIndexable .. | .missingField .. | .notCondition _ | .recordKey _ | .noImplicit _ | .type _
  | .expectedType _ | .signatureValue .. => True
  | _ => False

/-- The same cause, where the variables of the types that it mentions have other numbers: the values are the same
ones in a heap with these numbers. -/
inductive Renamed (d : Nat) (h : Heap) : Fault → Fault → Prop
  | same {e : Fault} (he : ¬e.Mentions) : Renamed d h e e
  | type (e : TyError) : Renamed d h (.type e) (.type (e.shift d))
  | notCallable (v : Value) :
      Renamed d h (.notCallable (h.text v)) (.notCallable ((h.rename d).text (v.rename d)))
  | notArray (v : Value) : Renamed d h (.notArray (h.text v)) (.notArray ((h.rename d).text (v.rename d)))
  | notTuple (v : Value) : Renamed d h (.notTuple (h.text v)) (.notTuple ((h.rename d).text (v.rename d)))
  | notIndex (v : Value) : Renamed d h (.notIndex (h.text v)) (.notIndex ((h.rename d).text (v.rename d)))
  | notCondition (v : Value) :
      Renamed d h (.notCondition (h.text v)) (.notCondition ((h.rename d).text (v.rename d)))
  | recordKey (v : Value) : Renamed d h (.recordKey (h.text v)) (.recordKey ((h.rename d).text (v.rename d)))
  | noImplicit (v : Value) :
      Renamed d h (.noImplicit (h.text v)) (.noImplicit ((h.rename d).text (v.rename d)))
  | expectedType (v : Value) :
      Renamed d h (.expectedType (h.text v)) (.expectedType ((h.rename d).text (v.rename d)))
  | missingField (field : String) (v : Value) :
      Renamed d h (.missingField field (h.text v)) (.missingField field ((h.rename d).text (v.rename d)))
  | signatureValue (function : String) (v : Value) :
      Renamed d h (.signatureValue function (h.text v))
        (.signatureValue function ((h.rename d).text (v.rename d)))
  | itemOutOfBounds (i : Nat) (v : Value) :
      Renamed d h (.indexOutOfBounds (toString i) (h.text v))
        (.indexOutOfBounds (toString i) ((h.rename d).text (v.rename d)))
  | indexOutOfBounds (i v : Value) :
      Renamed d h (.indexOutOfBounds (h.text i) (h.text v))
        (.indexOutOfBounds ((h.rename d).text (i.rename d)) ((h.rename d).text (v.rename d)))
  | notIndexable (v i : Value) :
      Renamed d h (.notIndexable (h.text v) (h.text i))
        (.notIndexable ((h.rename d).text (v.rename d)) ((h.rename d).text (i.rename d)))
  | operands (symbol : String) (a b : Value) :
      Renamed d h (.operands symbol (h.text a) (h.text b))
        (.operands symbol ((h.rename d).text (a.rename d)) ((h.rename d).text (b.rename d)))

end Fault

/-! ## Following an action -/

namespace Exec

variable {α β γ δ : Type} {m : Machine} {r : Run} {D n n' : Nat} {x : Exec α} {x' : Exec β} {f : α → β}
  {P Q : Nat → α → Prop} {owners : Owners}

/-- What the two ends of an action that only changes types have to do with each other: `n` variables were there,
and `D` frames are open. -/
def Reflects (m : Machine) (r : Run) (D n : Nat) (f : α → β) (P : Nat → α → Prop)
    (out : EStateM.Result Fault Run α) (out' : EStateM.Result Fault Run β) : Prop :=
  ∃ F T, F.Grounded T ∧ F.depth = D ∧ n ≤ T.size ∧
    match out with
    | .ok a r₁ => r₁ = r.withTypes F T ∧ P T.size a ∧ out' = .ok (f a) (r₁.behind m)
    | .error e r₁ => r₁ = r.withTypes F T ∧
      ∃ e', e.Renamed m.table.size r.machine.heap e' ∧ out' = .error e' (r₁.behind m)

/-- **The action is followed** by the other one behind the older machine, whatever the types are. At least `n`
variables are there, and `D` frames are open, before and behind it. -/
def Mirrors (m : Machine) (r : Run) (D n : Nat) (x : Exec α) (x' : Exec β) (f : α → β)
    (P : Nat → α → Prop) : Prop :=
  ∀ F T, F.Grounded T → F.depth = D → n ≤ T.size →
    Reflects m r D T.size f P (x (r.withTypes F T)) (x' ((r.withTypes F T).behind m))

namespace Mirrors

theorem pure {a : α} {b : β} (hb : b = f a) (hP : ∀ N, n ≤ N → P N a) :
    Mirrors m r D n (pure a) (pure b) f P := by
  intro F T hF hD hn
  exact ⟨F, T, hF, hD, Nat.le_refl _, rfl, hP _ hn, by rw [hb]; rfl⟩

/-- **One action after the other.** -/
theorem bind {g : α → Exec γ} {g' : β → Exec δ} {f' : γ → δ} {Q : Nat → γ → Prop}
    (hx : Mirrors m r D n x x' f P)
    (hg : ∀ a N, n ≤ N → P N a → Mirrors m r D N (g a) (g' (f a)) f' Q) :
    Mirrors m r D n (x >>= g) (x' >>= g') f' Q := by
  intro F T hF hD hn
  obtain ⟨F₁, T₁, hF₁, hD₁, hn₁, hout⟩ := hx F T hF hD hn
  cases hxr : x (r.withTypes F T) with
  | ok a r₁ =>
    rw [hxr] at hout
    obtain ⟨rfl, hP, hx'⟩ := hout
    rw [bind_ok hxr, bind_ok hx']
    obtain ⟨F₂, T₂, hF₂, hD₂, hn₂, hout⟩ := hg a T₁.size (hn.trans hn₁) hP F₁ T₁ hF₁ hD₁ (Nat.le_refl _)
    exact ⟨F₂, T₂, hF₂, hD₂, hn₁.trans hn₂, hout⟩
  | error e r₁ =>
    rw [hxr] at hout
    obtain ⟨rfl, e', he, hx'⟩ := hout
    rw [bind_error hxr, bind_error hx']
    exact ⟨F₁, T₁, hF₁, hD₁, hn₁, rfl, e', he, rfl⟩

theorem imp (hx : Mirrors m r D n x x' f P) (hPQ : ∀ N a, n ≤ N → P N a → Q N a) :
    Mirrors m r D n x x' f Q := by
  intro F T hF hD hn
  obtain ⟨F₁, T₁, hF₁, hD₁, hn₁, hout⟩ := hx F T hF hD hn
  refine ⟨F₁, T₁, hF₁, hD₁, hn₁, ?_⟩
  cases hxr : x (r.withTypes F T) with
  | ok a r₁ =>
    rw [hxr] at hout
    exact ⟨hout.1, hPQ _ _ (hn.trans hn₁) hout.2.1, hout.2.2⟩
  | error e r₁ =>
    rw [hxr] at hout
    exact hout

/-- The result is wrapped up. -/
theorem map {g : α → γ} {g' : β → δ} {f' : γ → δ} {Q : Nat → γ → Prop} (hx : Mirrors m r D n x x' f P)
    (hg : ∀ a, g' (f a) = f' (g a)) (hQ : ∀ N N' a, N ≤ N' → P N a → Q N' (g a)) :
    Mirrors m r D n (x >>= fun a => Pure.pure (g a)) (x' >>= fun b => Pure.pure (g' b)) f' Q :=
  hx.bind fun a N _ hP => .pure (hg a) fun N' hN' => hQ N N' a hN' hP

theorem ite {c : Prop} [Decidable c] {y : Exec α} {y' : Exec β} (hx : c → Mirrors m r D n x x' f P)
    (hy : ¬c → Mirrors m r D n y y' f P) :
    Mirrors m r D n (if c then x else y) (if c then x' else y') f P := by
  split
  next hc => exact hx hc
  next hc => exact hy hc

theorem throw {e e' : Fault} (he : e.Renamed m.table.size r.machine.heap e') :
    Mirrors m r D n (throw e) (throw e') f P := fun F T hF hD _ =>
  ⟨F, T, hF, hD, Nat.le_refl _, rfl, e', he, rfl⟩

/-! ### Parts of the run -/

theorem onFrames {g : Frames → Table → α × Frames × Table} {g' : Frames → Table → β × Frames × Table}
    (h : ∀ F T, F.Grounded T → F.depth = D → n ≤ T.size →
      g' (F.behind m.frames m.table.size) (T.behind m.table.entries (m.frames.depth - 1)) =
        (f (g F T).1, (g F T).2.1.behind m.frames m.table.size,
          (g F T).2.2.behind m.table.entries (m.frames.depth - 1)) ∧
      T.size ≤ (g F T).2.2.size ∧ (g F T).2.1.depth = F.depth ∧ P (g F T).2.2.size (g F T).1 ∧
      (g F T).2.1.Grounded (g F T).2.2) :
    Mirrors m r D n (Exec.onFrames g) (Exec.onFrames g') f P := by
  intro F T hF hD hn
  obtain ⟨heq, hsize, hdepth, hP, hg⟩ := h F T hF hD hn
  refine ⟨_, _, hg, hdepth.trans hD, hsize, rfl, hP, ?_⟩
  have hrun : Exec.onFrames g' ((r.withTypes F T).behind m) =
      .ok (g' (F.behind m.frames m.table.size) (T.behind m.table.entries (m.frames.depth - 1))).1
        ⟨⟨(g' (F.behind m.frames m.table.size) (T.behind m.table.entries (m.frames.depth - 1))).2.2,
          (g' (F.behind m.frames m.table.size) (T.behind m.table.entries (m.frames.depth - 1))).2.1,
          r.machine.heap.behind m.heap m.table.size, r.machine.globals⟩, r.top.move m.extent,
          r.callers.map (Activation.move m.extent)⟩ := rfl
  rw [hrun, heq]
  rfl

theorem onTable {g : Table → α × Table} {g' : Table → β × Table}
    (h : ∀ F T, Frames.Grounded F T → n ≤ T.size →
      g' (T.behind m.table.entries (m.frames.depth - 1)) =
        (f (g T).1, (g T).2.behind m.table.entries (m.frames.depth - 1)) ∧
      P T.size (g T).1 ∧ (g T).2.size = T.size ∧ F.Grounded (g T).2) :
    Mirrors m r D n (Exec.onTable g) (Exec.onTable g') f P := by
  have key : Mirrors m r D n (Exec.onFrames fun F T => ((g T).1, F, (g T).2))
      (Exec.onFrames fun F T => ((g' T).1, F, (g' T).2)) f P :=
    .onFrames fun F T hF _ hn => by
      obtain ⟨heq, hP, hsize, hg⟩ := h F T hF hn
      rw [heq]
      exact ⟨rfl, hsize.ge, rfl, hsize.symm ▸ hP, hg⟩
  exact key

/-- Looking at a part of the run that does not depend on the types. -/
theorem look {a : α} {b : β} (hx : ∀ F T, x (r.withTypes F T) = .ok a (r.withTypes F T))
    (hx' : ∀ F T, x' ((r.withTypes F T).behind m) = .ok b ((r.withTypes F T).behind m)) (hb : b = f a)
    (hP : ∀ N, n ≤ N → P N a) : Mirrors m r D n x x' f P := by
  intro F T hF hD hn
  rw [hx, hx', hb]
  exact ⟨F, T, hF, hD, Nat.le_refl _, rfl, hP _ hn, rfl⟩

/-- Looking for a part of the run that is not there. -/
theorem fail {e e' : Fault} (hx : ∀ F T, x (r.withTypes F T) = .error e (r.withTypes F T))
    (hx' : ∀ F T, x' ((r.withTypes F T).behind m) = .error e' ((r.withTypes F T).behind m))
    (he : e.Renamed m.table.size r.machine.heap e') : Mirrors m r D n x x' f P := by
  intro F T hF hD hn
  rw [hx, hx']
  exact ⟨F, T, hF, hD, Nat.le_refl _, rfl, e', he, rfl⟩

theorem heap_bind {g : Heap → Exec α} {g' : Heap → Exec β}
    (h : Mirrors m r D n (g r.machine.heap) (g' (r.machine.heap.behind m.heap m.table.size)) f P) :
    Mirrors m r D n (heap >>= g) (heap >>= g') f P := h

theorem of_le (hx : Mirrors m r D n x x' f P) (hN : n ≤ n') : Mirrors m r D n' x x' f P :=
  fun F T hF hD hn => hx F T hF hD (hN.trans hn)

end Mirrors

/-! ## Values and types -/

variable {owners : Owners} {t u : Ty} {v : Value} {vs : List Value}

/-- Types over the variables that there are. -/
theorem below_mono {N N' : Nat} (hN : N ≤ N') (ht : Table.Below N t) : Table.Below N' t := fun w hw =>
  (ht w hw).trans_le hN

theorem mirrors_newVar (name : String) (inferred rigid : Bool) :
    Mirrors m r D n (newVar name inferred rigid) (newVar name inferred rigid) (Ty.shift m.table.size)
      Table.Below :=
  .onFrames fun F T hF _ _ => by
    have hsize : (F.newVar T name inferred rigid).2.2.size = T.size + 1 :=
      Table.size_newVar name inferred rigid F.depth
    refine ⟨Frames.newVar_behind hF.depth m.frames name inferred rigid, hsize.ge.trans' (Nat.le_succ _),
      Frames.depth_record F _, ?_, hF.newVar name inferred rigid⟩
    rw [hsize]
    intro w hw
    obtain rfl := List.eq_of_mem_singleton hw
    exact Nat.lt_succ_self _

theorem mirrors_freshVar :
    Mirrors m r D n freshVar freshVar (Ty.shift m.table.size) Table.Below :=
  mirrors_newVar "" false false

theorem mirrors_freshVars : (k : Nat) → ∀ {n : Nat} {done : List Ty}, (∀ t ∈ done, Table.Below n t) →
    Mirrors m r D n (freshVars done k) (freshVars (done.map (Ty.shift m.table.size)) k)
      (List.map (Ty.shift m.table.size)) fun N ts => ∀ t ∈ ts, Table.Below N t
  | 0, _, _, hdone => .pure List.map_reverse.symm fun _ hN t ht =>
      below_mono hN (hdone t (List.mem_reverse.mp ht))
  | k + 1, _, _, hdone => mirrors_freshVar.bind fun _ _ hN ht =>
      mirrors_freshVars k (List.forall_mem_cons.mpr ⟨ht, fun t ht => below_mono hN (hdone t ht)⟩)

theorem mirrors_instantiate (ht : Table.Below n t) :
    Mirrors m r D n (instantiate t) (instantiate (t.shift m.table.size)) (Ty.shift m.table.size)
      Table.Below :=
  .onFrames fun _ _ hF _ hn => by
    obtain ⟨hsize, hdepth, hbelow, hg⟩ := hF.instantiate (below_mono hn ht)
    exact ⟨Frames.instantiate_behind hF.tame.acyclic hF.depth m.frames t, hsize, hdepth, hbelow, hg⟩

theorem mirrors_resolve (ht : Table.Below n t) :
    Mirrors m r D n (resolve t) (resolve (t.shift m.table.size)) (Ty.shift m.table.size) Table.Below :=
  .onTable fun _ _ hF hn =>
    ⟨Table.resolve_behind hF.tame.acyclic t, hF.resolve (below_mono hn ht)⟩

theorem mirrors_resolveDeep (ht : Table.Below n t) :
    Mirrors m r D n (resolveDeep t) (resolveDeep (t.shift m.table.size)) (Ty.shift m.table.size)
      Table.Below :=
  .onTable fun _ _ hF hn =>
    ⟨Table.resolveDeep_behind hF.tame.acyclic t, hF.resolveDeep (below_mono hn ht)⟩

theorem unify_withTypes (t u : Ty) (r : Run) (F : Frames) (T : Table) :
    unify t u (r.withTypes F T) = match T.unify t u with
      | .ok _ T' => .ok () (r.withTypes F T')
      | .error e T' => .error (.type e) (r.withTypes F T') := rfl

theorem mirrors_unify (ht : Table.Below n t) (hu : Table.Below n u) :
    Mirrors m r D n (unify t u) (unify (t.shift m.table.size) (u.shift m.table.size)) id
      fun _ _ => True := by
  intro F T hF hD hn
  obtain ⟨hsize, hg⟩ := hF.unify (below_mono hn ht) (below_mono hn hu)
  have hbehind : (T.behind m.table.entries (m.frames.depth - 1)).unify (t.shift m.table.size)
      (u.shift m.table.size) = (T.unify t u).behind m.table.entries (m.frames.depth - 1) :=
    Table.unify_behind hF.tame hF.known (below_mono hn ht) (below_mono hn hu)
  refine ⟨F, (T.unify t u).table, hg, hD, hsize.ge, ?_⟩
  have hrun' : unify (t.shift m.table.size) (u.shift m.table.size) ((r.withTypes F T).behind m) = _ :=
    unify_withTypes _ _ ((r.withTypes F T).behind m) (F.behind m.frames m.table.size)
      (T.behind m.table.entries (m.frames.depth - 1))
  rw [hrun', hbehind, unify_withTypes]
  cases hout : T.unify t u with
  | ok a T' =>
    rw [hout] at *
    exact ⟨rfl, trivial, rfl⟩
  | error e T' => exact ⟨rfl, _, .type e, rfl⟩

/-! ### Texts -/

section kept

variable (hh : r.machine.heap.Kept owners n)

include hh

theorem text_moved (hv : v.Within (r.machine.heap.extent n)) :
    (r.machine.heap.behind m.heap m.table.size).text (v.move m.extent) =
      (r.machine.heap.rename m.table.size).text (v.rename m.table.size) := by
  obtain ⟨rank, hr⟩ := hh.order
  exact Heap.text_behind hr (hh.values.imp fun _ hv => hv.within) hv

/-- A cause that names a value. -/
theorem mirrors_throwText {mk : String → Fault} (hv : v.Within (r.machine.heap.extent n))
    (hmk : (mk (r.machine.heap.text v)).Renamed m.table.size r.machine.heap
      (mk ((r.machine.heap.rename m.table.size).text (v.rename m.table.size)))) :
    Mirrors m r D n (text v >>= fun s => throw (mk s)) (text (v.move m.extent) >>= fun s => throw (mk s))
      f P := by
  rw [← text_moved hh hv] at hmk
  exact .fail (fun _ _ => rfl) (fun _ _ => rfl) hmk

/-- A cause that names two values. -/
theorem mirrors_throwTexts {mk : String → String → Fault} {w : Value}
    (hv : v.Within (r.machine.heap.extent n)) (hw : w.Within (r.machine.heap.extent n))
    (hmk : (mk (r.machine.heap.text v) (r.machine.heap.text w)).Renamed m.table.size r.machine.heap
      (mk ((r.machine.heap.rename m.table.size).text (v.rename m.table.size))
        ((r.machine.heap.rename m.table.size).text (w.rename m.table.size)))) :
    Mirrors m r D n (text v >>= fun s => text w >>= fun s' => throw (mk s s'))
      (text (v.move m.extent) >>= fun s => text (w.move m.extent) >>= fun s' => throw (mk s s')) f P := by
  rw [← text_moved hh hv, ← text_moved hh hw] at hmk
  exact .fail (fun _ _ => rfl) (fun _ _ => rfl) hmk

end kept

/-! ### The type of a value -/

theorem Mirrors.mapM {ι κ : Type} {k : ι → κ} {g : ι → Exec α} {g' : κ → Exec β}
    (hP : ∀ N N' a, N ≤ N' → P N a → P N' a) {xs : List ι} :
    ∀ {n : Nat}, (∀ x ∈ xs, ∀ N, n ≤ N → Mirrors m r D N (g x) (g' (k x)) f P) →
    Mirrors m r D n (xs.mapM g) ((xs.map k).mapM g') (List.map f) fun N ys => ∀ y ∈ ys, P N y := by
  induction xs with
  | nil => exact fun _ => .pure rfl fun _ _ => nofun
  | cons x xs ih =>
    intro n h
    rw [List.map_cons, List.mapM_cons, List.mapM_cons]
    refine .bind (h x List.mem_cons_self n (Nat.le_refl _)) fun a N hN ha => ?_
    refine (ih fun x hx N' hN' => h x (List.mem_cons_of_mem _ hx) N' (hN.trans hN')).bind fun ys N' hN' hys => ?_
    exact .pure rfl fun N'' hN'' => List.forall_mem_cons.mpr
      ⟨hP _ _ _ (hN'.trans hN'') ha, fun y hy => hP _ _ _ hN'' (hys y hy)⟩

theorem shift_signature (op : Operator) (d : Nat) (t : Ty) :
    (op.signature t).shift d = op.signature (t.shift d) := by
  rw [Operator.signature, Ty.shift_fn, List.map_cons, List.map_cons, List.map_nil]
  cases op <;> rfl

theorem below_signature {N : Nat} (op : Operator) (ht : Table.Below N t) :
    Table.Below N (op.signature t) := by
  intro w hw
  refine ht w ?_
  cases op
  case notEqual =>
    rw [Operator.signature, Ty.vars, Ty.varsList_eq] at hw
    simpa [OperandSort.ty, Operator.operands, Operator.result, Ty.bool, Ty.vars] using hw
  all_goals cases hw

theorem below_tuple {N : Nat} {ts : List Ty} (hts : ∀ t ∈ ts, Table.Below N t) : Table.Below N (.tuple ts) := by
  intro w hw
  rw [Ty.vars, Ty.varsList_eq] at hw
  obtain ⟨t, ht, hw⟩ := List.mem_flatMap.mp hw
  exact hts t ht w hw

theorem below_record {N : Nat} {fs : List (String × Ty)} (hfs : ∀ f ∈ fs, Table.Below N f.2) :
    Table.Below N (.record fs) := by
  intro w hw
  rw [Ty.vars, Ty.varsFields_eq] at hw
  obtain ⟨f, hf, hw⟩ := List.mem_flatMap.mp hw
  exact hfs f hf w hw

theorem below_fn {N k : Nat} {ps : List Ty} (hps : ∀ t ∈ ps, Table.Below N t) (ht : Table.Below N t) :
    Table.Below N (.fn ps t k) := by
  intro w hw
  rw [Ty.vars, Ty.varsList_eq] at hw
  rcases List.mem_append.mp hw with hw | hw
  · obtain ⟨p, hp, hw⟩ := List.mem_flatMap.mp hw
    exact hps p hp w hw
  · exact ht w hw

/-- The type of a value is found in any number of steps that is larger than its rank. -/
theorem mirrors_typeOfWithin {rank : Cell → Nat} (hr : r.machine.heap.Ranked rank) {k : Nat} :
    ∀ {k' n : Nat} {v : Value}, r.machine.heap.Kept owners n → v.Within (r.machine.heap.extent n) →
    v.Nests rank k → v.Nests rank k' →
    Mirrors m r D n (typeOfWithin k v) (typeOfWithin k' (v.move m.extent)) (Ty.shift m.table.size)
      Table.Below := by
  have hbuiltin {n : Nat} (op : Operator) : Mirrors m r D n (freshVar >>= fun t => pure (op.signature t))
      (freshVar >>= fun t => pure (op.signature t)) (Ty.shift m.table.size) Table.Below :=
    mirrors_freshVar.map (fun t => (shift_signature op _ t).symm)
      fun _ _ _ hN ht => below_mono hN (below_signature op ht)
  have hfunction {n c : Nat} (hh : r.machine.heap.Kept owners n)
      (hv : (Value.function c).Within (r.machine.heap.extent n)) :
      Mirrors m r D n (heap >>= fun h => instantiate (h.closure c).signature)
        (heap >>= fun h => instantiate (h.closure (c + m.extent.closures)).signature)
        (Ty.shift m.table.size) Table.Below := by
    refine .heap_bind ?_
    rw [Heap.closure_behind hv]
    exact mirrors_instantiate (hh.closures c hv).1
  have hclosed {n : Nat} {s : String} : Mirrors m r D n (pure (.name s)) (pure (.name s))
      (Ty.shift m.table.size) Table.Below := .pure rfl fun _ _ _ => nofun
  induction k with
  | zero =>
    intro k' n v hh hv hk hk'
    cases v with
    | array c | tuple c | object c => exact absurd (hk _ rfl) (Nat.not_lt_zero _)
    | function c => cases k' <;> exact hfunction hh hv
    | builtin op => cases k' <;> exact hbuiltin op
    | hole c => cases k' <;> exact mirrors_freshVar
    | unit | bool | number | string | type => cases k' <;> exact hclosed
  | succ k ih =>
    intro k' n v hh hv hk hk'
    have hpart {c : Cell} (hc : v.cell? = some c) {w : Value} {j N : Nat} (hj : k' = j + 1)
        (hw : r.machine.heap.Holds c w) (hN : n ≤ N) :
        Mirrors m r D N (typeOfWithin k w) (typeOfWithin j (w.move m.extent)) (Ty.shift m.table.size)
          Table.Below :=
      ih (hh.mono hN) ((hh.mono hN).values.holds hw).within (hr.nests_of_holds (hk c hc) hw)
        (hr.nests_of_holds (hj ▸ hk' c hc) hw)
    have hpos {c : Cell} (hc : v.cell? = some c) : ∃ j, k' = j + 1 :=
      Nat.exists_eq_succ_of_ne_zero (by have := hk' c hc; omega)
    cases v with
    | function c => cases k' <;> exact hfunction hh hv
    | builtin op => cases k' <;> exact hbuiltin op
    | hole c => cases k' <;> exact mirrors_freshVar
    | unit | bool | number | string | type => cases k' <;> exact hclosed
    | array c =>
      obtain ⟨j, rfl⟩ := hpos rfl
      rw [Value.move, typeOfWithin, typeOfWithin]
      refine .heap_bind ?_
      rw [Heap.list_behind, Array.getElem?_map]
      cases hget : (r.machine.heap.list c)[0]? with
      | none => exact mirrors_freshVar.map (fun _ => rfl) fun _ _ _ hN ht => below_mono hN ht
      | some w =>
        exact (hpart (c := .list c) rfl rfl (Array.mem_of_getElem? hget) (Nat.le_refl _)).map (fun _ => rfl)
          fun _ _ _ hN ht => below_mono hN ht
    | tuple c =>
      obtain ⟨j, rfl⟩ := hpos rfl
      rw [Value.move, typeOfWithin, typeOfWithin]
      refine .heap_bind ?_
      rw [Heap.list_behind, Array.toList_map]
      have hitems := Mirrors.mapM (P := Table.Below) (fun _ _ _ hN ht => below_mono hN ht)
        fun w hw N hN => hpart (c := .list c) rfl rfl (Array.mem_toList_iff.mp hw) hN
      exact hitems.map (fun ts => (Ty.shift_tuple ts).symm) fun _ _ _ hN hts =>
        below_tuple fun t ht => below_mono hN (hts t ht)
    | object c =>
      obtain ⟨j, rfl⟩ := hpos rfl
      rw [Value.move, typeOfWithin, typeOfWithin]
      refine .heap_bind ?_
      rw [Heap.object_behind]
      have hfield (f : String × Value) (hf : f ∈ r.machine.heap.object c) (N : Nat) (hN : n ≤ N) :
          Mirrors m r D N (typeOfWithin k f.2 >>= fun t => pure (f.1, t))
            (typeOfWithin j (f.2.move m.extent) >>= fun t => pure (f.1, t))
            (fun f => (f.1, f.2.shift m.table.size)) fun N f => Table.Below N f.2 :=
        (hpart (c := .object c) rfl rfl ⟨f.1, hf⟩ hN).map (fun _ => rfl) fun _ _ _ hN ht => below_mono hN ht
      have hfields : Mirrors m r D n ((r.machine.heap.object c).mapM fun f =>
            typeOfWithin k f.2 >>= fun t => pure (f.1, t))
          ((Fields.move m.extent (r.machine.heap.object c)).mapM fun f =>
            typeOfWithin j f.2 >>= fun t => pure (f.1, t))
          (List.map fun f => (f.1, f.2.shift m.table.size)) fun N fs => ∀ f ∈ fs, Table.Below N f.2 :=
        .mapM (P := fun N (f : String × Ty) => Table.Below N f.2) (fun _ _ _ hN ht => below_mono hN ht) hfield
      exact hfields.map (fun fs => (Ty.shift_record fs).symm) fun _ _ _ hN hfs =>
        below_record fun f hf => below_mono hN (hfs f hf)

section kept

variable (hh : r.machine.heap.Kept owners n)

include hh

theorem mirrors_typeOf (hv : v.Within (r.machine.heap.extent n)) :
    Mirrors m r D n (typeOf v) (typeOf (v.move m.extent)) (Ty.shift m.table.size) Table.Below := by
  obtain ⟨rank, hr⟩ := hh.order
  have hnests := hr.nests hv
  refine .heap_bind (mirrors_typeOfWithin hr hh hv hnests fun c hc => (hnests c hc).trans_le ?_)
  simp only [Heap.depth, Heap.behind, Array.size_append, Array.size_map]
  omega

theorem mirrors_asType (hv : v.Within (r.machine.heap.extent n)) :
    Mirrors m r D n (asType v) (asType (v.move m.extent)) (Ty.shift m.table.size) Table.Below := by
  cases v with
  | type t => exact .pure rfl fun _ hN => below_mono hN hv
  | hole c => exact mirrors_freshVar
  | _ => exact mirrors_throwText hh hv (.expectedType _)

end kept

theorem mirrors_asTypes : (vs : List Value) → ∀ {n : Nat} {done : List Ty}, r.machine.heap.Kept owners n →
    (∀ t ∈ done, Table.Below n t) → (∀ v ∈ vs, v.Within (r.machine.heap.extent n)) →
    Mirrors m r D n (asTypes done vs) (asTypes (done.map (Ty.shift m.table.size)) (vs.map (Value.move m.extent)))
      (List.map (Ty.shift m.table.size)) fun N ts => ∀ t ∈ ts, Table.Below N t
  | [], _, _, _, hdone, _ => .pure List.map_reverse.symm fun _ hN t ht =>
      below_mono hN (hdone t (List.mem_reverse.mp ht))
  | v :: vs, _, _, hh, hdone, hvs => (mirrors_asType hh (hvs v List.mem_cons_self)).bind fun _ _ hN ht =>
      mirrors_asTypes vs (hh.mono hN) (List.forall_mem_cons.mpr ⟨ht, fun t ht => below_mono hN (hdone t ht)⟩)
        fun w hw => (hvs w (List.mem_cons_of_mem _ hw)).mono (Heap.extent_le hN)

/-- The test of the class of a type. -/
theorem mirrors_tyClass {x : Exec Ty} {x' : Exec Ty}
    (hx : Mirrors m r D n x x' (Ty.shift m.table.size) Table.Below) (expected : TyClass) :
    Mirrors m r D n (x >>= fun t => pure (decide (t.tyClass = expected)))
      (x' >>= fun t => pure (decide (t.tyClass = expected))) id fun _ _ => True :=
  hx.map (fun t => by rw [Ty.tyClass_shift]; rfl) fun _ _ _ _ _ => trivial

theorem mirrors_checkType (expected : TyClass) (hv : v.Within (r.machine.heap.extent n)) :
    Mirrors m r D n (checkType expected v) (checkType expected (v.move m.extent)) id fun _ _ => True := by
  have hpure {b b' : Bool} (hb : b' = b) : Mirrors m r D n (pure b) (pure b') id fun _ _ => True :=
    .pure hb fun _ _ => trivial
  cases expected with
  | anyValue => exact hpure (by rw [Value.isTypeLevel_move])
  | anyType => exact hpure Value.isTypeLevel_move
  | hole => exact hpure Value.isHole_move
  | _ =>
    cases v with
    | type t => exact mirrors_tyClass (mirrors_resolve hv) _
    | _ => exact hpure rfl

theorem mirrors_checkTypeOf (hh : r.machine.heap.Kept owners n) (expected : TyClass)
    (hv : v.Within (r.machine.heap.extent n)) :
    Mirrors m r D n (checkTypeOf expected v) (checkTypeOf expected (v.move m.extent)) id
      fun _ _ => True := by
  have hpure {b b' : Bool} (hb : b' = b) : Mirrors m r D n (pure b) (pure b') id fun _ _ => True :=
    .pure hb fun _ _ => trivial
  have htype (expected : TyClass) : Mirrors m r D n
      (typeOf v >>= fun t => resolve t >>= fun u => pure (decide (u.tyClass = expected)))
      (typeOf (v.move m.extent) >>= fun t => resolve t >>= fun u => pure (decide (u.tyClass = expected)))
      id fun _ _ => True :=
    (mirrors_typeOf hh hv).bind fun t N hN ht => mirrors_tyClass (mirrors_resolve ht) expected
  cases expected with
  | hole => exact hpure Value.isHole_move
  | anyValue =>
    cases v with
    | hole => exact hpure rfl
    | _ => exact hpure rfl
  | anyType =>
    cases v with
    | hole => exact hpure rfl
    | _ => exact hpure rfl
  | _ =>
    cases v with
    | hole => exact hpure rfl
    | _ => exact htype _

theorem mirrors_recordFields (hh : r.machine.heap.Kept owners n) : (keys : List Value) → (ts : List Ty) →
    ∀ {fields : Fields Ty}, (∀ f ∈ fields, Table.Below n f.2) → (∀ t ∈ ts, Table.Below n t) →
    (∀ v ∈ keys, v.Within (r.machine.heap.extent n)) →
    Mirrors m r D n (recordFields fields keys ts)
      (recordFields (fields.map fun f => (f.1, f.2.shift m.table.size)) (keys.map (Value.move m.extent))
        (ts.map (Ty.shift m.table.size)))
      (List.map fun f => (f.1, f.2.shift m.table.size)) fun N fs => ∀ f ∈ fs, Table.Below N f.2
  | [], _, _, hfields, _, _ => .pure rfl fun _ hN f hf => below_mono hN (hfields f hf)
  | _ :: _, [], _, hfields, _, _ => .pure rfl fun _ hN f hf => below_mono hN (hfields f hf)
  | key :: keys, t :: ts, fields, hfields, hts, hkeys => by
    obtain ⟨ht, hts⟩ := List.forall_mem_cons.mp hts
    obtain ⟨hkey, hrest⟩ := List.forall_mem_cons.mp hkeys
    cases key with
    | string name =>
      have hinsert : ∀ f ∈ Fields.insert name t fields, Table.Below n f.2 := fun f hf =>
        (Fields.mem_of_mem_insert hf).elim (fun h => h ▸ ht) (hfields f)
      have ih := mirrors_recordFields hh keys ts hinsert hts hrest
      rw [← Fields.insert_map] at ih
      exact ih
    | _ => exact mirrors_throwText hh hkey (.recordKey _)

/-! ### Elements -/

theorem mirrors_index (hh : r.machine.heap.Kept owners n) (hv : v.Within (r.machine.heap.extent n)) :
    Mirrors m r D n (index v) (index (v.move m.extent)) id fun _ _ => True := by
  cases v with
  | number x =>
    rw [Value.move, index]
    split
    · exact .pure rfl fun _ _ => trivial
    · exact mirrors_throwText hh hv (.notIndex _)
  | _ => exact mirrors_throwText hh hv (.notIndex _)

theorem mirrors_item (hh : r.machine.heap.Kept owners n) {cell i : Nat} {shown shown' : Exec String}
    {target : Value}
    (hthrow : Mirrors m r D n (shown >>= fun s => text target >>= fun s' => throw (.indexOutOfBounds s s'))
      (shown' >>= fun s => text (target.move m.extent) >>= fun s' => throw (.indexOutOfBounds s s'))
      (Value.move m.extent) fun N v => v.Settled (r.machine.heap.extent N) owners) :
    Mirrors m r D n (item cell i shown target) (item (cell + m.extent.lists) i shown' (target.move m.extent))
      (Value.move m.extent) fun N v => v.Settled (r.machine.heap.extent N) owners := by
  rw [item, item]
  refine .heap_bind ?_
  rw [Heap.list_behind, Array.getElem?_map]
  cases hget : (r.machine.heap.list cell)[i]? with
  | none => exact hthrow
  | some w => exact .pure rfl fun N hN => (hh.mono hN).item hget

/-! ## Inferred arguments -/

theorem mirrors_unifyArgs (function : String) {args : Array Value} : (params : List Ty) →
    ∀ {n position : Nat}, r.machine.heap.Kept owners n →
    (∀ v ∈ args, v.Within (r.machine.heap.extent n)) → (∀ t ∈ params, Table.Below n t) →
    Mirrors m r D n (unifyArgs function args position params)
      (unifyArgs function (args.map (Value.move m.extent)) position (params.map (Ty.shift m.table.size)))
      id fun _ _ => True
  | [], _, _, _, _, _ => .pure rfl fun _ _ => trivial
  | param :: params, n, position, hh, hargs, hparams => by
    obtain ⟨hparam, hparams⟩ := List.forall_mem_cons.mp hparams
    rw [List.map_cons, unifyArgs, unifyArgs, Array.getElem?_map]
    cases hget : args[position]? with
    | none => exact .throw (.same id)
    | some v =>
      refine (mirrors_typeOf hh (hargs v (Array.mem_of_getElem? hget))).bind fun t N hN ht => ?_
      refine (mirrors_unify (below_mono hN hparam) ht).bind fun _ N' hN' _ => ?_
      have hle := hN.trans hN'
      exact mirrors_unifyArgs function params (hh.mono hle)
        (fun w hw => (hargs w hw).mono (Heap.extent_le hle)) fun u hu => below_mono hle (hparams u hu)

theorem mirrors_readSlots : (slots : List Ty) → ∀ {n : Nat} {done : List Ty},
    (∀ t ∈ done, Table.Below n t) → (∀ t ∈ slots, Table.Below n t) →
    Mirrors m r D n (readSlots done slots)
      (readSlots (done.map (Ty.shift m.table.size)) (slots.map (Ty.shift m.table.size)))
      (List.map (Ty.shift m.table.size)) fun N ts => ∀ t ∈ ts, Table.Below N t
  | [], _, _, hdone, _ => .pure List.map_reverse.symm fun _ hN t ht =>
      below_mono hN (hdone t (List.mem_reverse.mp ht))
  | slot :: slots, n, done, hdone, hslots => by
    obtain ⟨hslot, hslots⟩ := List.forall_mem_cons.mp hslots
    have hinner : Table.Below n slot.slotType.2 := by
      cases slot <;> exact hslot
    rw [List.map_cons, readSlots_cons, readSlots_cons, Ty.slotType_shift]
    refine (mirrors_resolveDeep hinner).bind fun u N hN hu => ?_
    have ih := mirrors_readSlots slots (List.forall_mem_cons.mpr ⟨hu, fun t ht => below_mono hN (hdone t ht)⟩)
      fun t ht => below_mono hN (hslots t ht)
    cases u with
    | var v => exact .throw (.type (.cannotInfer slot.slotType.1))
    | _ => exact ih

theorem mirrors_inferImplicit (hh : r.machine.heap.Kept owners n) {c : Closure}
    (hc : Table.Below n c.signature) (count : Nat) {args : Array Value}
    (hargs : ∀ v ∈ args, v.Within (r.machine.heap.extent n)) :
    Mirrors m r D n (inferImplicit c count args)
      (inferImplicit (c.move m.extent) count (args.map (Value.move m.extent)))
      (List.map (Ty.shift m.table.size)) fun N ts => ∀ t ∈ ts, Table.Below N t := by
  refine (mirrors_instantiate hc).bind fun t N hN ht => (mirrors_resolve ht).bind fun u N' hN' hu => ?_
  have hle := hN.trans hN'
  cases u with
  | fn params result k =>
    have hparams : ∀ t ∈ params, Table.Below N' t := fun t ht w hw => hu w (by
      rw [Ty.vars, Ty.varsList_eq]
      exact List.mem_append_left _ (List.mem_flatMap.mpr ⟨t, ht, hw⟩))
    rw [Ty.shift_fn]
    have hunify : Mirrors m r D N' (unifyArgs c.block.name args count (params.drop count))
        (unifyArgs c.block.name (args.map (Value.move m.extent)) count
          ((params.drop count).map (Ty.shift m.table.size))) id fun _ _ => True :=
      mirrors_unifyArgs c.block.name (params.drop count) (hh.mono hle)
        (fun v hv => (hargs v hv).mono (Heap.extent_le hle)) fun t ht => hparams t (List.mem_of_mem_drop ht)
    rw [List.map_drop] at hunify
    refine hunify.bind fun _ N'' hN'' _ => ?_
    have hread : Mirrors m r D N'' (readSlots [] (params.take count))
        (readSlots [] ((params.take count).map (Ty.shift m.table.size)))
        (List.map (Ty.shift m.table.size)) fun N ts => ∀ t ∈ ts, Table.Below N t :=
      mirrors_readSlots (params.take count) nofun fun t ht =>
        below_mono hN'' (hparams t (List.mem_of_mem_take ht))
    rw [List.map_take] at hread
    exact hread
  | _ => exact .throw (.same id)

/-- What becomes of a run when its innermost frame is closed. -/
def popped (r : Run) : Run :=
  r.withTypes (r.machine.frames.pop r.machine.table).2.1 (r.machine.frames.pop r.machine.table).2.2

theorem inFrame_run (x : Exec α) (r : Run) : inFrame x r =
    match x (r.withTypes r.machine.frames.push r.machine.table) with
    | .ok a r₁ => .ok a (popped r₁)
    | .error e r₁ => .error e (popped r₁) := by
  have hpush : (pushFrame >>= fun _ => x) r = x (r.withTypes r.machine.frames.push r.machine.table) := rfl
  rw [inFrame, hpush]
  cases x (r.withTypes r.machine.frames.push r.machine.table) <;> rfl

/-- **A frame of its own** is closed also when the action fails. -/
theorem mirrors_inFrame (hx : Mirrors m r (D + 1) n x x' f P) :
    Mirrors m r D n (inFrame x) (inFrame x') f P := by
  intro F T hF hD hn
  have hpush : (F.behind m.frames m.table.size).push = F.push.behind m.frames m.table.size :=
    Frames.push_behind hF.depth m.frames m.table.size
  obtain ⟨F₁, T₁, hF₁, hD₁, hn₁, hout⟩ := hx F.push T hF.push (congrArg (· + 1) hD) hn
  have hdepth : 1 < F₁.depth := by have := hF.depth; omega
  obtain ⟨hsize, hdepth', hF₂⟩ := hF₁.pop hdepth
  have hpopped : popped ((r.withTypes F₁ T₁).behind m) = (popped (r.withTypes F₁ T₁)).behind m := by
    have hpop : (F₁.behind m.frames m.table.size).pop (T₁.behind m.table.entries (m.frames.depth - 1)) =
      ((F₁.pop T₁).1.map (· + m.table.size), (F₁.pop T₁).2.1.behind m.frames m.table.size,
        (F₁.pop T₁).2.2.behind m.table.entries (m.frames.depth - 1)) :=
      Frames.pop_behind hdepth m.frames hF₁.levels
    simp only [popped, Run.behind, Run.withTypes, Machine.behind, hpop]
  have hrun' : inFrame x' ((r.withTypes F T).behind m) =
      match x' ((r.withTypes F.push T).behind m) with
      | .ok a r₁ => .ok a (popped r₁)
      | .error e r₁ => .error e (popped r₁) := by
    rw [inFrame_run]
    simp only [Run.behind, Run.withTypes, Machine.behind, hpush]
  have hrun : inFrame x (r.withTypes F T) = match x (r.withTypes F.push T) with
      | .ok a r₁ => .ok a (popped r₁)
      | .error e r₁ => .error e (popped r₁) := inFrame_run x _
  refine ⟨_, _, hF₂, by omega, hn₁.trans hsize.ge, ?_⟩
  rw [hrun, hrun']
  cases hxr : x (r.withTypes F.push T) with
  | ok a r₁ =>
    rw [hxr] at hout
    obtain ⟨rfl, hP, hx'⟩ := hout
    rw [hx']
    refine ⟨rfl, hsize.symm ▸ hP, ?_⟩
    rw [← hpopped]
  | error e r₁ =>
    rw [hxr] at hout
    obtain ⟨rfl, e', he, hx'⟩ := hout
    rw [hx']
    refine ⟨rfl, e', he, ?_⟩
    rw [← hpopped]

/-- **The arguments of a call** are completed in the same way. -/
theorem mirrors_completeArgs (hh : r.machine.heap.Kept owners n) {c : Closure}
    (hc : Table.Below n c.signature) {args : Array Value}
    (hargs : ∀ v ∈ args, v.Settled (r.machine.heap.extent n) owners) :
    Mirrors m r D n (completeArgs c args)
      (completeArgs (c.move m.extent) (args.map (Value.move m.extent))) (Array.map (Value.move m.extent))
      fun N vs => ∀ v ∈ vs, v.Settled (r.machine.heap.extent N) owners := by
  rw [completeArgs, completeArgs, Array.size_map]
  refine .ite (fun _ => .pure rfl fun N hN v hv => (hargs v hv).mono (Heap.extent_le hN)) fun _ => ?_
  refine (mirrors_resolve hc).bind fun t N hN ht => ?_
  extract_lets implicit all given implicit' all' given'
  have himplicit : implicit' = implicit := by
    cases t <;> rfl
  have hall : all' = all.map (Value.move m.extent) := by
    simp only [all', all, himplicit, Array.map_append, Array.map_replicate, Value.move]
  have hwithin : ∀ v ∈ all, v.Settled (r.machine.heap.extent N) owners := fun v hv => by
    rcases Array.mem_append.mp hv with hv | hv
    · obtain ⟨-, rfl⟩ := Array.mem_replicate.mp hv
      exact Value.settled_of_cell?_eq_none trivial rfl
    · exact (hargs v hv).mono (Heap.extent_le hN)
  have hgiven : Mirrors m r D N (given ()) (given' ()) (Array.map (Value.move m.extent))
      fun N vs => ∀ v ∈ vs, v.Settled (r.machine.heap.extent N) owners := by
    simp only [given, given', himplicit, hall]
    refine (mirrors_inFrame (mirrors_inferImplicit (hh.mono hN) (below_mono hN hc) implicit
      fun v hv => (hwithin v hv).within)).bind fun ts N' hN' hts => ?_
    refine .pure ?_ fun N'' hN'' v hv => ?_
    · simp only [Array.map_append, Array.map_extract, Array.size_map, List.length_map, List.map_map,
        List.map_toArray, Function.comp_def, Value.move]
      rfl
    · rcases Array.mem_append.mp hv with hv | hv
      · obtain ⟨t, ht, rfl⟩ := List.mem_map.mp (List.mem_toArray.mp hv)
        exact Value.settled_type (below_mono hN'' (hts t ht))
      · obtain ⟨j, hj, rfl⟩ := Array.mem_extract_iff_getElem.mp hv
        exact (hwithin _ (Array.getElem_mem _)).mono (Heap.extent_le (hN'.trans hN''))
  simp only [himplicit]
  refine .ite (fun _ => ?_) fun _ => hgiven
  exact (Mirrors.throw (f := id) (P := fun _ _ => True) (.same id)).bind fun _ _ hN' _ => hgiven.of_le hN'

end Exec

end Reified
