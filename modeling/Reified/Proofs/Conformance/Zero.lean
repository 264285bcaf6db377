import Reified.Proofs.Conformance.Found
import Reified.Proofs.Conformance.Schemas
import Reified.Proofs.Machine.Learns

/-!
# The zero value of a type inhabits it

In every state that a machine can come to, the zero value of a type can be built, and what is found as the type of
this value unifies with the type itself. The type is made of the names that every program knows, and of flexible
variables that are not bound, each of them in as many places as there may be.

## Main definitions

* `Heap.Extends` — a heap with further cells
* `Heap.IsZero` — the structure of the zero value of a type

## Main results

* `Heap.isZero_zero` — what `Heap.zero` builds
* `Heap.IsZero.data`, `Heap.IsZero.zeroTy` — a zero value is a value of data; what is found for it
* `Run.unifies_zero` — **the zero value of a type inhabits it**
-/

namespace Reified

/-- Every member of a list has a partner in another one that is as long. -/
theorem exists_zip_mem {α β : Type} {as : List α} {bs : List β} (hlength : as.length = bs.length) {a : α}
    (ha : a ∈ as) : ∃ b, (a, b) ∈ as.zip bs := by
  obtain ⟨i, ha⟩ := List.mem_iff_getElem?.mp ha
  obtain ⟨hi, -⟩ := List.getElem?_eq_some_iff.mp ha
  exact ⟨_, mem_zip_iff.mpr ⟨i, ha, List.getElem?_eq_getElem (hlength ▸ hi)⟩⟩

namespace Heap

/-! ## Further cells -/

/-- All lists and objects of the first heap are in the second one as they are. -/
structure Extends (h h' : Heap) : Prop where
  list : ∀ c < h.lists.size, c < h'.lists.size ∧ h'.list c = h.list c
  object : ∀ c < h.objects.size, c < h'.objects.size ∧ h'.object c = h.object c

variable {h h₁ h' : Heap} {t u : Ty} {v : Value} {P : TyVar → Prop}

namespace Extends

theorem refl (h : Heap) : h.Extends h := ⟨fun _ hc => ⟨hc, rfl⟩, fun _ hc => ⟨hc, rfl⟩⟩

theorem trans (e : h.Extends h₁) (e' : h₁.Extends h') : h.Extends h' where
  list c hc :=
    have hc₁ := e.list c hc
    have hc' := e'.list c hc₁.1
    ⟨hc'.1, hc'.2.trans hc₁.2⟩
  object c hc :=
    have hc₁ := e.object c hc
    have hc' := e'.object c hc₁.1
    ⟨hc'.1, hc'.2.trans hc₁.2⟩

theorem pushList (h : Heap) (items : Array Value) : h.Extends { h with lists := h.lists.push items } where
  list c hc := by
    refine ⟨by rw [Array.size_push]; omega, ?_⟩
    simp [Heap.list, Array.getD_eq_getD_getElem?, Array.getElem?_push, hc.ne]
  object _ hc := ⟨hc, rfl⟩

theorem pushObject (h : Heap) (fields : Fields Value) : h.Extends { h with objects := h.objects.push fields } where
  list _ hc := ⟨hc, rfl⟩
  object c hc := by
    refine ⟨by rw [Array.size_push]; omega, ?_⟩
    simp [Heap.object, Array.getD_eq_getD_getElem?, Array.getElem?_push, hc.ne]

end Extends

theorem list_push (h : Heap) (items : Array Value) :
    ({ h with lists := h.lists.push items } : Heap).list h.lists.size = items := by
  simp [Heap.list, Array.getD_eq_getD_getElem?]

theorem object_push (h : Heap) (fields : Fields Value) :
    ({ h with objects := h.objects.push fields } : Heap).object h.objects.size = fields := by
  simp [Heap.object, Array.getD_eq_getD_getElem?]

/-! ## Zero values -/

/-- The value has the structure of the zero value of the type. -/
inductive IsZero (h : Heap) : Value → Ty → Prop
  | var (v : TyVar) : IsZero h .unit (.var v)
  | name {v : Value} {n : String} (hv : v.simpleName? = some n) : IsZero h v (.name n)
  | array {c : Nat} (hc : c < h.lists.size) (hitems : h.list c = #[]) (t : Ty) : IsZero h (.array c) (.array t)
  | tuple {c : Nat} {ts : List Ty} (hc : c < h.lists.size) (hlength : (h.list c).toList.length = ts.length)
      (hitems : ∀ p ∈ (h.list c).toList.zip ts, IsZero h p.1 p.2) : IsZero h (.tuple c) (.tuple ts)
  | record {c : Nat} {fs : List (String × Ty)} (hc : c < h.objects.size)
      (hnames : Fields.names (h.object c) = Fields.names fs)
      (hfields : ∀ p ∈ (h.object c).zip fs, IsZero h p.1.2 p.2.2) : IsZero h (.object c) (.record fs)
  | left {v : Value} {l : Ty} (hv : IsZero h v l) (r : Ty) : IsZero h v (.union l r)
  | binding {v : Value} {t : Ty} (n : String) (hv : IsZero h v t) : IsZero h v (.binding n t)

/-- A zero value is one in every heap with further cells. -/
theorem IsZero.extends (hv : h.IsZero v t) (e : h.Extends h') : h'.IsZero v t := by
  induction hv with
  | var v => exact .var v
  | name hv => exact .name hv
  | array hc hitems t =>
    obtain ⟨hc', heq⟩ := e.list _ hc
    exact .array hc' (heq.trans hitems) t
  | tuple hc hlength _ ih =>
    obtain ⟨hc', heq⟩ := e.list _ hc
    refine .tuple hc' (heq ▸ hlength) ?_
    rw [heq]
    exact ih
  | record hc hnames _ ih =>
    obtain ⟨hc', heq⟩ := e.object _ hc
    refine .record hc' (heq ▸ hnames) ?_
    rw [heq]
    exact ih
  | left _ r ih => exact .left ih r
  | binding n _ ih => exact .binding n ih

/-- Zero values of a list of types, one after the other. -/
theorem isZero_zeros {ts : List Ty} (hts : ∀ t ∈ ts, ∀ h : Heap, (zero t h).2.IsZero (zero t h).1 t ∧ h.Extends (zero t h).2)
    (h : Heap) : List.Forall₂ (zeros ts h).2.IsZero (zeros ts h).1 ts ∧ h.Extends (zeros ts h).2 := by
  induction ts generalizing h with
  | nil => exact ⟨.nil, .refl h⟩
  | cons t ts ih =>
    obtain ⟨ht, hts⟩ := List.forall_mem_cons.mp hts
    obtain ⟨hfirst, e⟩ := ht h
    obtain ⟨hrest, e'⟩ := ih hts (zero t h).2
    rw [zeros]
    exact ⟨.cons (hfirst.extends e') hrest, e.trans e'⟩

/-- Zero values of named types, one after the other. -/
theorem isZero_zeroFields {fs : List (String × Ty)}
    (hfs : ∀ f ∈ fs, ∀ h : Heap, (zero f.2 h).2.IsZero (zero f.2 h).1 f.2 ∧ h.Extends (zero f.2 h).2) (h : Heap) :
    List.Forall₂ (fun g f => g.1 = f.1 ∧ (zeroFields fs h).2.IsZero g.2 f.2) (zeroFields fs h).1 fs ∧
      h.Extends (zeroFields fs h).2 := by
  induction fs generalizing h with
  | nil => exact ⟨.nil, .refl h⟩
  | cons f fs ih =>
    obtain ⟨name, t⟩ := f
    obtain ⟨hf, hfs⟩ := List.forall_mem_cons.mp hfs
    obtain ⟨hfirst, e⟩ := hf h
    obtain ⟨hrest, e'⟩ := ih hfs (zero t h).2
    rw [zeroFields]
    exact ⟨.cons ⟨rfl, hfirst.extends e'⟩ hrest, e.trans e'⟩

/-- **The zero value of a type** has its structure; all that was there before is left alone. -/
theorem isZero_zero (ht : t.Schema P) (h : Heap) : (zero t h).2.IsZero (zero t h).1 t ∧ h.Extends (zero t h).2 := by
  induction ht generalizing h with
  | @var v _ =>
    rw [zero]
    exact ⟨.var v, .refl h⟩
  | @name n hn =>
    have hmem : n ∈ ["Void", "Bool", "Number", "String", "Type"] := by simpa [Ty.isWellKnown, Ty.wellKnown] using hn
    simp only [List.mem_cons, List.not_mem_nil, or_false] at hmem
    rcases hmem with rfl | rfl | rfl | rfl | rfl <;> exact ⟨.name rfl, .refl h⟩
  | @array t _ _ =>
    rw [zero]
    exact ⟨.array (by simp) (h.list_push #[]) t, .pushList h #[]⟩
  | @tuple ts _ ih =>
    obtain ⟨hvs, e⟩ := isZero_zeros ih h
    rw [zero]
    let h₁ := (zeros ts h).2
    let items := (zeros ts h).1.toArray
    have e' := Extends.pushList h₁ items
    have hlist : (h₁.newTuple items).2.list h₁.lists.size = items := h₁.list_push items
    refine ⟨.tuple (by simp [newTuple]) ?_ fun p hp => ?_, e.trans e'⟩
    · rw [hlist]
      exact hvs.length_eq
    · rw [hlist] at hp
      exact ((List.forall₂_iff_zip.mp hvs).2 hp).extends e'
  | @record fs _ _ ih =>
    obtain ⟨hvs, e⟩ := isZero_zeroFields ih h
    rw [zero]
    let h₁ := (zeroFields fs h).2
    let fields := (zeroFields fs h).1
    have e' := Extends.pushObject h₁ fields
    have hobject : (h₁.newObject fields).2.object h₁.objects.size = fields := h₁.object_push fields
    refine ⟨.record (by simp [newObject]) ?_ fun p hp => ?_, e.trans e'⟩
    · rw [hobject, Fields.names, Fields.names, ← List.forall₂_eq_eq_eq, List.forall₂_map_left_iff,
        List.forall₂_map_right_iff]
      exact hvs.imp fun _ _ h => h.1
    · rw [hobject] at hp
      exact ((List.forall₂_iff_zip.mp hvs).2 hp).2.extends e'
  | union _ _ ih _ =>
    rw [zero]
    exact ⟨.left (ih h).1 _, (ih h).2⟩
  | binding n _ ih =>
    rw [zero]
    exact ⟨.binding n (ih h).1, (ih h).2⟩

/-- A zero value is a value of data. -/
theorem IsZero.data (hv : h.IsZero v t) : h.Data v := by
  induction hv with
  | var v => exact .simple rfl
  | name hv => exact .simple hv
  | array hc hitems t =>
    refine .cell rfl fun x hx => ?_
    rw [Holds, hitems] at hx
    exact absurd hx (Array.not_mem_empty x)
  | tuple hc hlength _ ih =>
    refine .cell rfl fun x hx => ?_
    obtain ⟨t, hp⟩ := exists_zip_mem hlength (Array.mem_toList_iff.mpr hx)
    exact ih _ hp
  | record hc hnames _ ih =>
    refine .cell rfl fun x hx => ?_
    obtain ⟨field, hx⟩ := hx
    obtain ⟨f, hp⟩ := exists_zip_mem (Fields.length_eq_of_names_eq hnames) hx
    exact ih _ hp
  | left _ r ih => exact ih
  | binding n _ ih => exact ih

/-- **What is found for a zero value.** -/
theorem IsZero.zeroTy (hv : h.IsZero v t) (hu : h.Outlines v u) : t.ZeroTy u := by
  induction hv generalizing u with
  | var v =>
    cases hu with
    | simple hv =>
      cases hv
      exact .var v
  | @name v n hv =>
    cases hu with
    | simple hv' =>
      obtain rfl := Option.some.inj (hv.symm.trans hv')
      exact .name n
    | _ => cases hv
  | array hc hitems t =>
    cases hu with
    | simple hv => cases hv
    | empty _ w => exact .array t w
    | array hx _ =>
      rw [hitems] at hx
      cases hx
  | tuple hc hlength _ ih =>
    cases hu with
    | simple hv => cases hv
    | tuple hlength' hitems =>
      refine .tuple (hlength.symm.trans hlength') fun p hp => ?_
      obtain ⟨x, hx, hu⟩ := exists_mem_zip_left hlength hp
      exact ih (x, p.1) hx (hitems (x, p.2) hu)
  | record hc hnames _ ih =>
    cases hu with
    | simple hv => cases hv
    | record hnames' hfields =>
      refine .record (hnames'.trans hnames) fun p hp => ?_
      obtain ⟨x, hx, hu⟩ := exists_mem_zip_left (Fields.length_eq_of_names_eq hnames) hp
      exact ih (x, p.1) hx (hfields (x, p.2) hu)
  | left _ r ih => exact .left r (ih hu)
  | binding n _ ih => exact .binding n (ih hu)

end Heap

/-! ## The machine -/

namespace Table

variable {T S R : Table} {t u : Ty}

/-- A variable of the type can be bound: it is flexible, known, and neither bound nor generalized. -/
def Bindable (T : Table) (v : TyVar) : Prop :=
  v.rigid = false ∧ v.id < T.size ∧ T.binding? v.id = none ∧ T.isGeneralized v.id = false

/-- What is not bound stands for itself. -/
theorem deep_eq_self (ht : t.Schema T.Bindable) : T.deep t = t := by
  rw [deep_eq_subst]
  conv_rhs => rw [← Ty.subst_var t]
  exact Ty.subst_congr fun v hv => deep_var_of_unbound (ht.of_mem_vars hv).2.2.1

/-- New variables have nothing to do with those of the type, which stand for themselves. -/
theorem Makes.loose {vs : List TyVar} (hR : S.Makes vs R) (hT : T.Acyclic) (hS : T.Same S) : R.Loose T.Bindable vs where
  acyclic := (hS.acyclic hT).imp fun _ hr v t hv => hr v t (hR.binding v ▸ hv)
  unknown := hR.unknown
  known v hv := (hR.range v hv).2
  ends v := fun ⟨hflexible, hlt, hunbound, _⟩ => by
    have hlt' : v.id < S.size := hS.size.symm ▸ hlt
    refine .inr ⟨v, deep_var_of_unbound ((hR.binding v.id).trans (hS.unbound_iff.mpr hunbound)), hflexible,
      hlt'.trans_le hR.size, fun hmem => ?_⟩
    obtain ⟨w, hw, hid⟩ := List.mem_map.mp hmem
    have hle := (hR.range w hw).1
    omega

end Table

namespace Context

variable {k : Context} {m : Machine} {e p : Nat} {regs : Array Value} {dst r ty found : Register} {t u : Ty} {v : Value}

/-- The zero value of a type without bound variables is built. -/
theorem newValue_run (hT : m.table.Acyclic) (hty : regs[ty.index]? = some (.type t)) (ht : t.Schema m.table.Bindable)
    (hd : dst.index < regs.size) : ∃ S, m.table.Same S ∧ Exec.instr (.newValue dst ty) (k.run m e p regs) =
      .ok () (k.run ⟨S, m.frames, (Heap.zero t m.heap).2, m.globals⟩ e p
        (regs.setIfInBounds dst.index (Heap.zero t m.heap).1)) := by
  obtain ⟨hresolved, hsteady⟩ := Table.steady_resolveDeep hT t
  rw [Table.deep_eq_self ht] at hresolved
  have hrun : Exec.resolveDeep t (k.run m e p regs) = .ok (m.table.resolveDeep t).1
      (k.run { m with table := (m.table.resolveDeep t).2 } e p regs) := rfl
  rw [hresolved] at hrun
  refine ⟨(m.table.resolveDeep t).2, hsteady.same, ?_⟩
  rw [Exec.instr, Exec.bind_ok (read_run hty)]
  show (Exec.resolveDeep t >>= fun t => Exec.create dst (Heap.zero t)) (k.run m e p regs) = _
  rw [Exec.bind_ok hrun, create_run hd]
  rfl

/-- The type of a value of data is found. -/
theorem getTypeForValue_run (hv : m.heap.Data v) (hr : regs[r.index]? = some v) (hd : dst.index < regs.size) :
    ∃ u m', m'.heap = m.heap ∧ m.table.Makes u.vars m'.table ∧ m.heap.Outlines v u ∧
      Exec.instr (.getTypeForValue dst r) (k.run m e p regs) =
        .ok () (k.run m' e p (regs.setIfInBounds dst.index (.type u))) := by
  obtain ⟨u, vs, m', hrun, hheap, hmakes, rfl, hu⟩ := @Invents.typeOf m.heap v hv k m e p regs rfl
  refine ⟨u, m', hheap, hmakes, hu, ?_⟩
  rw [Exec.instr, Exec.bind_ok (read_run hr), Exec.bind_ok hrun, write_run hd]

/-- Two types are unified. -/
theorem unify_run {S : Table} (ht : regs[r.index]? = some (.type t)) (hu : regs[found.index]? = some (.type u))
    (h : m.table.unify t u = .ok () S) :
    Exec.instr (.unify r found) (k.run m e p regs) = .ok () (k.run { m with table := S } e p regs) := by
  have hunify : Exec.unify t u (k.run m e p regs) = .ok () (k.run { m with table := S } e p regs) := by
    simp only [Exec.unify, run, h]
  rw [Exec.instr, Exec.bind_ok (read_run ht)]
  exact (Exec.bind_ok (read_run hu)).trans hunify

end Context

namespace Exec

/-- **The zero value of a type inhabits it.** In every state that a machine comes to, whatever blocks it has run, the
zero value of a type is built, a type is found for it, and the two types unify. -/
theorem zero_inhabits {m : Machine} (hm : m.Reached fun _ => True) {B : Block} {r : Run} (hr : Run.Goes (m.start B) r)
    {ty dst found : Register} {t : Ty} (hty : r.top.registers[ty.index]? = some (.type t))
    (ht : t.Schema r.machine.table.Bindable) (hdst : dst.index < r.top.registers.size)
    (hfound : found.index < r.top.registers.size) (hdst' : dst.index ≠ ty.index) (hfound' : found.index ≠ ty.index) :
    ∃ v u r₁ r₂ r₃, instr (.newValue dst ty) r = .ok () r₁ ∧ r₁.top.registers[dst.index]? = some v ∧
      r₁.machine.heap.IsZero v t ∧ instr (.getTypeForValue found dst) r₁ = .ok () r₂ ∧
      r₂.top.registers[found.index]? = some (.type u) ∧ t.ZeroTy u ∧ instr (.unify ty found) r₂ = .ok () r₃ := by
  have hT := (Run.tame_of_goes hm hr).acyclic
  obtain ⟨m, ⟨block, p, regs, e, resume⟩, callers⟩ := r
  let k : Context := ⟨block, resume, callers⟩
  dsimp only at hty ht hdst hfound hT
  -- the value is built
  obtain ⟨S, hS, hnew⟩ := Context.newValue_run (k := k) (e := e) (p := p) hT hty ht hdst
  obtain ⟨hzero, -⟩ := Heap.isZero_zero ht m.heap
  let regs₁ := regs.setIfInBounds dst.index (Heap.zero t m.heap).1
  have hsize : regs₁.size = regs.size := Array.size_setIfInBounds
  have hv₁ : regs₁[dst.index]? = some (Heap.zero t m.heap).1 := getElem?_set hdst
  have hfound₁ : found.index < regs₁.size := hsize ▸ hfound
  have hty₁ : regs₁[ty.index]? = some (.type t) := (Array.getElem?_setIfInBounds_ne hdst').trans hty
  -- its type is found
  obtain ⟨u, m₂, -, hmakes, hu, hget⟩ := Context.getTypeForValue_run (k := k) (e := e) (p := p)
    (m := ⟨S, m.frames, (Heap.zero t m.heap).2, m.globals⟩) hzero.data hv₁ hfound₁
  let regs₂ := regs₁.setIfInBounds found.index (.type u)
  have hu₂ : regs₂[found.index]? = some (.type u) := getElem?_set hfound₁
  have hty₂ : regs₂[ty.index]? = some (.type t) := (Array.getElem?_setIfInBounds_ne hfound').trans hty₁
  -- the two types are unified
  have hzeroTy := hzero.zeroTy hu
  have hloose := hmakes.loose hT hS
  rw [← List.append_nil u.vars] at hloose
  obtain ⟨R, hR, -⟩ := hloose.unify ht hzeroTy
  exact ⟨_, u, _, _, _, hnew, hv₁, hzero, hget, hu₂, hzeroTy, Context.unify_run hty₂ hu₂ hR⟩

end Exec

/-- A block that builds the type of pairs whose second member has items of the type of the first one. -/
def Block.memberAndItems : Block :=
  ⟨"b", #[.newVarType ⟨0⟩ 0 false false, .newArrayType ⟨1⟩ ⟨0⟩, .newTupleType ⟨2⟩ 2 ⟨0⟩], #[], #["a"], #[], 0, 3, 0⟩

namespace Exec

/-- The variable is bound to the type of the unit value by the first member, and the unknown item type to the variable
by the second one. -/
theorem zero_inhabits_pair : ∃ r, Run.Goes (Machine.initial.start .memberAndItems) r ∧
    ∃ a : TyVar, r.top.registers[2]? = some (.type (.tuple [.var a, .array (.var a)])) ∧
      ∃ v u r₁ r₂ r₃, instr (.newValue ⟨1⟩ ⟨2⟩) r = .ok () r₁ ∧ r₁.top.registers[1]? = some v ∧
        r₁.machine.heap.IsZero v (.tuple [.var a, .array (.var a)]) ∧
        instr (.getTypeForValue ⟨0⟩ ⟨1⟩) r₁ = .ok () r₂ ∧ r₂.top.registers[0]? = some (.type u) ∧
        (Ty.tuple [.var a, .array (.var a)]).ZeroTy u ∧ instr (.unify ⟨2⟩ ⟨0⟩) r₂ = .ok () r₃ := by
  have hgoes : ∃ r, Run.Goes (Machine.initial.start .memberAndItems) r ∧
      r.top.registers[2]? = some (.type (.tuple [.var ⟨0, "a", false, false⟩, .array (.var ⟨0, "a", false, false⟩)])) ∧
      r.top.registers.size = 3 ∧ r.machine.table.Bindable ⟨0, "a", false, false⟩ :=
    ⟨_, (Run.Goes.one rfl).trans ((Run.Goes.one rfl).trans (.one rfl)), rfl, rfl, rfl, by decide, rfl, rfl⟩
  obtain ⟨r, hr, hty, hsize, ha⟩ := hgoes
  refine ⟨r, hr, _, hty, ?_⟩
  have ht : (Ty.tuple [.var ⟨0, "a", false, false⟩, .array (.var ⟨0, "a", false, false⟩)]).Schema
      r.machine.table.Bindable := .tuple (by simpa using ⟨.var ha, .array (.var ha)⟩)
  have hone : (⟨1⟩ : Register).index < r.top.registers.size := hsize ▸ by decide
  have hzero : (⟨0⟩ : Register).index < r.top.registers.size := hsize ▸ by decide
  exact @zero_inhabits _ .initial _ _ hr ⟨2⟩ ⟨1⟩ ⟨0⟩ _ hty ht hone hzero (by decide) (by decide)

end Exec

end Reified
