import Reified.Proofs.Frames.Declared
import Reified.Proofs.Simulation.Types
import Reified.Proofs.Ty.Proper

/-!
# The code for signatures

The code that evaluates a signature makes a variable for each variable of the signature, in a frame of its own,
and builds the signature over these. Nothing binds them, so resolving the type does not change it, and closing
the frame generalizes them.

## Main definitions

* `Machine.declare` — a machine after variables have been made
* `Ty.renewed` — a type over the variables made for its own

## Main results

* `Lower.goes_declareVars` — variables are made, each in a register of its own
* `Lower.rebuilt_eq_subst` — what is built of a tidy type is the type
* `Lower.goes_signature` — **a signature is built again**
-/

namespace Reified

open Builder Lower

/-! ## Making variables -/

/-- The machine after variables like the given ones have been made. -/
def Machine.declare (m : Machine) (vs : List TyVar) : Machine :=
  { m with table := (m.frames.declare m.table vs).2, frames := (m.frames.declare m.table vs).1 }

namespace Lower

/-- The registers hold the variables that have been made for the given ones, the first of them with the
number `n`. -/
def Holds (n : Nat) (vs : List TyVar) (low high : Nat) (regs : Array Value)
    (registers : List (Nat × Register)) : Prop :=
  ∀ v : TyVar, v.id ∈ vs.map (·.id) → ∃ r, registers.lookup v.id = some r ∧ low ≤ r.index ∧ r.index < high ∧
    regs[r.index]? = some (.type (.var (v.renumbered n vs)))

theorem goes_declareVars {F : Builder} {k : Context} (hk : k.block = F.finish) (hfits : F.finish.Fits) :
    (vs : List TyVar) → (vs.map (·.id)).Nodup → ∀ {done registers : List (Nat × Register)} {b b' : Builder}
    {m : Machine} {e : Nat} {regs : Array Value}, declareVars done vs b = .ok registers b' → b'.Before F →
    F.block.registerCount.toNat ≤ regs.size →
    ∃ regs', Run.Goes (k.run m e b.items.size regs) (k.run (m.declare vs) e b'.items.size regs') ∧
      Keeps (· < b.next.toNat) regs regs' ∧
      (∀ id ∉ vs.map (·.id), registers.lookup id = done.lookup id) ∧
      Holds m.table.size vs b.next.toNat b'.next.toNat regs' registers
  | [], _, done, registers, b, b', m, e, regs, h, hF, hfile => by
    rw [declareVars] at h
    obtain ⟨rfl, rfl⟩ := pure_eq_ok h
    exact ⟨regs, .refl _, .refl _, fun _ _ => rfl, fun v hv => absurd hv List.not_mem_nil⟩
  | w :: vs, hvs, done, registers, b, b', m, e, regs, h, hF, hfile => by
    obtain ⟨hw, hvs⟩ := List.nodup_cons.mp hvs
    rw [declareVars] at h
    obtain ⟨r, b₁, hr, h⟩ := bind_eq_ok h
    obtain ⟨j, b₂, hj, h⟩ := bind_eq_ok h
    obtain ⟨_, b₃, hemit, h⟩ := bind_eq_ok h
    have htame : Tame (declareVars ((w.id, r) :: done) vs) := fun n u => safe_declareVars vs _
    have hF₃ := htame.before h hF
    have hnext := htame.next_le h
    obtain ⟨hF₂, hcode, hsize, hnext₃⟩ := emit_spec hemit hF₃
    obtain ⟨hF₁, hname, hitems₂, hnext₂⟩ := identifier_spec hj hF₂ hfits
    obtain ⟨-, hindex, hnext₁, -, hfile₁, hitems₁⟩ := allocate_spec hr hF₁
    rw [← hk] at hcode hname
    have hd : r.index < regs.size := by omega
    have hstep := Context.step_newVarType (m := m) (e := e) hcode hname hd
    rw [← hsize, hitems₂, hitems₁] at hstep
    let made := m.frames.newVar m.table w.name w.inferred w.rigid
    have hfile₁ : F.block.registerCount.toNat ≤ (regs.setIfInBounds r.index (.type made.1)).size := by
      rwa [Array.size_setIfInBounds]
    obtain ⟨regs', hgoes, hkeeps, hlookup, hholds⟩ := goes_declareVars hk hfits vs hvs
      (m := { m with table := made.2.2, frames := made.2.1 }) (e := e)
      h hF hfile₁
    have hset : Keeps (· < b.next.toNat) regs (regs.setIfInBounds r.index (.type made.1)) := .set (by omega)
    have hr' : regs'[r.index]? = some (.type (.var ⟨m.table.size, w.name, w.inferred, w.rigid⟩)) := by
      rw [hkeeps.get (by omega), getElem?_set hd]
      rfl
    refine ⟨regs', (Run.Goes.one hstep).trans hgoes, hset.trans (hkeeps.mono fun i hi => by omega),
      fun id hid => ?_, fun v hv => ?_⟩
    · obtain ⟨hne, hid⟩ := not_or.mp fun hor => hid (List.mem_cons.mpr hor)
      rw [hlookup id hid, List.lookup_cons, beq_false_of_ne hne]
    · rw [TyVar.renumbered]
      by_cases hid : w.id = v.id
      · -- the variable that was made here is not made again
        rw [if_pos hid]
        refine ⟨r, ?_, by omega, by omega, hr'⟩
        rw [hlookup v.id (hid ▸ hw), List.lookup_cons, hid]
        simp
      · rw [if_neg hid]
        obtain ⟨r', hr', hlow, hhigh, hv'⟩ := hholds v ((List.mem_cons.mp hv).resolve_left fun h => hid h.symm)
        have hmade : made.2.2.size = m.table.size + 1 :=
          Table.size_newVar w.name w.inferred w.rigid m.frames.depth
        refine ⟨r', hr', by omega, hhigh, ?_⟩
        rw [hv', ← hmade]

/-- A variable that has been made is copied. -/
theorem buildsVar_declaredVar {F : Builder} {k : Context} (hk : k.block = F.finish) {n low high : Nat}
    {vs : List TyVar} {regs : Array Value} {registers : List (Nat × Register)}
    (hregisters : Holds n vs low high regs registers)
    (hothers : ∀ id ∉ vs.map (·.id), registers.lookup id = none) :
    BuildsVar F k (declaredVar registers) (fun v => .var (v.renumbered n vs)) (fun i => low ≤ i ∧ i < high)
      regs := by
  intro v dst b b' m e regs₁ h hF hd hkeeps
  by_cases hv : v.id ∈ vs.map (·.id)
  · obtain ⟨src, hsrc, hlow, hhigh, ht⟩ := hregisters v hv
    simp only [declaredVar, hsrc] at h
    obtain ⟨-, hcode, hsize, -⟩ := emit_spec h hF
    rw [← hk] at hcode
    have hsrc : regs₁[src.index]? = some _ := (hkeeps.get ⟨hlow, hhigh⟩).trans ht
    rw [hsize]
    exact ⟨_, .one (Context.step_move hcode hsrc hd), .set fun hne => hne rfl, getElem?_set hd⟩
  · simp only [declaredVar, hothers v.id hv] at h
    cases h

end Lower

/-! ## What is built of a type -/

namespace Ty

theorem rebuiltList_eq (σ : TyVar → Ty) (ts : List Ty) : rebuiltList σ ts = ts.map (rebuilt σ) := by
  induction ts with
  | nil => rfl
  | cons t ts ih => rw [rebuiltList, ih, List.map_cons]

theorem rebuiltFields_eq (σ : TyVar → Ty) (fs : List (String × Ty)) :
    rebuiltFields σ fs = fs.map fun f => (f.1, f.2.rebuilt σ) := by
  induction fs with
  | nil => rfl
  | cons f fs ih => rw [rebuiltFields, ih, List.map_cons]

/-- The variables of what is built come from those of the type. -/
theorem exists_of_mem_vars_rebuilt {σ : TyVar → Ty} {t : Ty} {w : TyVar} (hw : w ∈ (t.rebuilt σ).vars) :
    ∃ v ∈ t.vars, w ∈ (σ v).vars := by
  induction t with
  | var v => exact ⟨v, List.mem_singleton_self v, hw⟩
  | name n => exact absurd hw List.not_mem_nil
  | array t ih => exact ih hw
  | tuple ts ih =>
    rw [rebuilt, vars, varsList_eq, rebuiltList_eq, List.mem_flatMap] at hw
    obtain ⟨u, hu, hw⟩ := hw
    obtain ⟨t, ht, rfl⟩ := List.mem_map.mp hu
    obtain ⟨v, hv, hw⟩ := ih t ht hw
    exact ⟨v, by rw [vars, varsList_eq]; exact List.mem_flatMap.mpr ⟨t, ht, hv⟩, hw⟩
  | record fs ih =>
    rw [rebuilt, vars, varsFields_eq, rebuiltFields_eq, List.mem_flatMap] at hw
    obtain ⟨g, hg, hw⟩ := hw
    obtain ⟨f, hf, rfl⟩ := List.mem_map.mp (Fields.mem_of_mem_ofList hg)
    obtain ⟨v, hv, hw⟩ := ih f hf hw
    exact ⟨v, by rw [vars, varsFields_eq]; exact List.mem_flatMap.mpr ⟨f, hf, hv⟩, hw⟩
  | fn ps r k ihp ihr =>
    rw [rebuilt, vars, varsList_eq, rebuiltList_eq, List.mem_append, List.mem_flatMap] at hw
    rw [vars, varsList_eq]
    rcases hw with ⟨u, hu, hw⟩ | hw
    · obtain ⟨t, ht, rfl⟩ := List.mem_map.mp hu
      obtain ⟨v, hv, hw⟩ := ihp t ht hw
      exact ⟨v, List.mem_append_left _ (List.mem_flatMap.mpr ⟨t, ht, hv⟩), hw⟩
    · obtain ⟨v, hv, hw⟩ := ihr hw
      exact ⟨v, List.mem_append_right _ hv, hw⟩
  | union a b iha ihb =>
    rcases List.mem_append.mp hw with hw | hw
    · obtain ⟨v, hv, hw⟩ := iha hw
      exact ⟨v, List.mem_append_left _ hv, hw⟩
    · obtain ⟨v, hv, hw⟩ := ihb hw
      exact ⟨v, List.mem_append_right _ hv, hw⟩
  | binding n t ih => exact ih hw

end Ty

namespace Lower

mutual

/-- A tidy type whose counts are right is built as it is. -/
theorem rebuilt_eq_subst {var : TyVar → Register → Lower Unit} (σ : TyVar → Ty) : (t : Ty) → t.Tidy →
    t.Counted → ∀ {dst : Register} {b b' : Builder}, ty var t dst b = .ok () b' → t.rebuilt σ = t.subst σ
  | .var v, _, _, dst, b, b', _ => by rw [Ty.rebuilt, Ty.subst]
  | .name n, _, _, dst, b, b', _ => by rw [Ty.rebuilt, Ty.subst]
  | .array t, ht, hc, dst, b, b', h => by
    rw [ty] at h
    obtain ⟨item, b₁, -, h⟩ := bind_eq_ok h
    obtain ⟨_, b₂, h, -⟩ := bind_eq_ok h
    rw [Ty.rebuilt, Ty.subst, rebuilt_eq_subst σ t ht hc h]
  | .tuple ts, ht, hc, dst, b, b', h => by
    rw [ty] at h
    obtain ⟨first, b₁, -, h⟩ := bind_eq_ok h
    obtain ⟨_, b₂, h, -⟩ := bind_eq_ok h
    rw [Ty.rebuilt, Ty.subst, rebuiltList_eq_substList σ ts ht hc h]
  | .record fs, ht, hc, dst, b, b', h => by
    rw [ty] at h
    obtain ⟨firstKey, b₁, -, h⟩ := bind_eq_ok h
    obtain ⟨firstType, b₂, -, h⟩ := bind_eq_ok h
    obtain ⟨_, b₃, h, -⟩ := bind_eq_ok h
    have hsorted : Fields.Sorted (Ty.substFields σ fs) := ht.1.of_names (by
      rw [Ty.substFields_eq, Fields.names, Fields.names, List.map_map]
      rfl)
    rw [Ty.rebuilt, Ty.subst, rebuiltFields_eq_substFields σ fs ht.2 hc h, hsorted.ofList_eq]
  | .fn ps r n, ht, hc, dst, b, b', h => by
    rw [ty] at h
    obtain ⟨first, b₁, hfirst, h⟩ := bind_eq_ok h
    obtain ⟨_, b₂, hps, h⟩ := bind_eq_ok h
    obtain ⟨result, b₃, -, h⟩ := bind_eq_ok h
    obtain ⟨_, b₄, hr, -⟩ := bind_eq_ok h
    -- there are registers for all parameters, so the number of inferred ones fits into an operand
    obtain ⟨-, -, -, hle, -, -⟩ := allocateRange_spec hfirst (.refl b₁)
    have hn : (UInt32.ofNat n).toNat = n := by
      have := hc.2.2
      rw [UInt32.toNat_ofNat_of_lt' (by simp only [UInt32.size]; omega)]
    rw [Ty.rebuilt, Ty.subst, rebuiltList_eq_substList σ ps ht.1 hc.1 hps,
      rebuilt_eq_subst σ r ht.2 hc.2.1 hr, hn]
  | .union x y, ht, hc, dst, b, b', h => by
    rw [ty] at h
    obtain ⟨_, b₁, hx, h⟩ := bind_eq_ok h
    obtain ⟨right, b₂, -, h⟩ := bind_eq_ok h
    obtain ⟨_, b₃, hy, -⟩ := bind_eq_ok h
    rw [Ty.rebuilt, Ty.subst, rebuilt_eq_subst σ x ht.1 hc.1 hx, rebuilt_eq_subst σ y ht.2 hc.2 hy]
  | .binding x t, ht, hc, dst, b, b', h => by
    rw [ty] at h
    obtain ⟨inner, b₁, -, h⟩ := bind_eq_ok h
    obtain ⟨_, b₂, h, -⟩ := bind_eq_ok h
    rw [Ty.rebuilt, Ty.subst, rebuilt_eq_subst σ t ht hc h]

theorem rebuiltList_eq_substList {var : TyVar → Register → Lower Unit} (σ : TyVar → Ty) : (ts : List Ty) →
    Ty.TidyList ts → Ty.CountedList ts → ∀ {first : Register} {index : Nat} {b b' : Builder},
    tys var first index ts b = .ok () b' → Ty.rebuiltList σ ts = Ty.substList σ ts
  | [], _, _, first, index, b, b', _ => by rw [Ty.rebuiltList, Ty.substList]
  | t :: ts, ht, hc, first, index, b, b', h => by
    rw [tys] at h
    obtain ⟨_, b₁, h₁, h₂⟩ := bind_eq_ok h
    rw [Ty.rebuiltList, Ty.substList, rebuilt_eq_subst σ t ht.1 hc.1 h₁,
      rebuiltList_eq_substList σ ts ht.2 hc.2 h₂]

theorem rebuiltFields_eq_substFields {var : TyVar → Register → Lower Unit} (σ : TyVar → Ty) :
    (fs : List (String × Ty)) → Ty.TidyFields fs → Ty.CountedFields fs →
    ∀ {firstKey firstType : Register} {index : Nat} {b b' : Builder},
    tyFields var firstKey firstType index fs b = .ok () b' → Ty.rebuiltFields σ fs = Ty.substFields σ fs
  | [], _, _, firstKey, firstType, index, b, b', _ => by rw [Ty.rebuiltFields, Ty.substFields]
  | (name, t) :: fs, ht, hc, firstKey, firstType, index, b, b', h => by
    rw [tyFields] at h
    obtain ⟨_, b₁, -, h⟩ := bind_eq_ok h
    obtain ⟨_, b₂, h₁, h₂⟩ := bind_eq_ok h
    rw [Ty.rebuiltFields, Ty.substFields, rebuilt_eq_subst σ t ht.1 hc.1 h₁,
      rebuiltFields_eq_substFields σ fs ht.2 hc.2 h₂]

end

end Lower

/-! ## Signatures -/

/-- What is built of a type over the variables that are made for its own, the first of them with the
number `n`. -/
def Ty.renewed (n : Nat) (t : Ty) : Ty := t.rebuilt fun v => .var (v.renumbered n t.distinctVars)

namespace Lower

/-- The variables of a type that has been rebuilt are among those made for it. -/
theorem mem_vars_renewed {t : Ty} {n : Nat} {w : TyVar} (hw : w ∈ (t.renewed n).vars) :
    n ≤ w.id ∧ w.id < n + t.distinctVars.length := by
  obtain ⟨v, hv, hw⟩ := Ty.exists_of_mem_vars_rebuilt hw
  obtain rfl := List.mem_singleton.mp hw
  obtain ⟨u, hu, hid⟩ := Ty.exists_mem_firstOccurrences hv
  exact TyVar.id_renumbered (List.mem_map.mpr ⟨u, hu, hid⟩)

/-- **A signature is built again.** Its code leaves the block with the signature over new variables. These are
generalized; the frames, and the variables that there were, are as before. -/
theorem goes_signature {F : Builder} {k : Context} (hk : k.block = F.finish) (hfits : F.finish.Fits) {t : Ty}
    {b b' : Builder} {m : Machine} {e : Nat} {regs : Array Value} (h : signature t b = .ok () b')
    (hF : b'.Before F) (hfile : F.block.registerCount.toNat ≤ regs.size) :
    ∃ T q dst regs', Run.Goes (k.run m e b.items.size regs)
        (k.run ⟨T, m.frames, (m.heap.newEnvironment (some e)).2, m.globals⟩ e q regs') ∧
      k.block.code[q]? = some (.leave dst) ∧
      regs'[dst.index]? = some (.type (t.renewed m.table.size)) ∧
      m.table.Declared T t.distinctVars.length := by
  obtain ⟨dst, b₁, h₁, h⟩ := bind_eq_ok h
  obtain ⟨_, b₂, h₂, h⟩ := bind_eq_ok h
  obtain ⟨_, b₃, h₃, h⟩ := bind_eq_ok h
  obtain ⟨registers, b₄, h₄, h⟩ := bind_eq_ok h
  obtain ⟨_, b₅, h₅, h⟩ := bind_eq_ok h
  obtain ⟨_, b₆, h₆, h⟩ := bind_eq_ok h
  obtain ⟨_, b₇, h₇, h⟩ := bind_eq_ok h
  obtain ⟨_, b₈, h₈, h⟩ := bind_eq_ok h
  have hsafe : ∀ n u (v : TyVar) (r : Register), Safe n u (declaredVar registers v r) :=
    fun n u => safe_declaredVar registers
  obtain ⟨hF₈, hcode₉, -, -⟩ := emit_spec h hF
  obtain ⟨hF₇, hcode₈, hsize₈, -⟩ := emit_spec h₈ hF₈
  obtain ⟨hF₆, hcode₇, hsize₇, -⟩ := emit_spec h₇ hF₇
  obtain ⟨hF₅, hcode₆, hsize₆, -⟩ := emit_spec h₆ hF₆
  have hF₄ := Tame.before (fun n u => safe_ty (hsafe n u) _ dst) h₅ hF₅
  have htame : Tame (declareVars [] t.distinctVars) := fun _ _ => safe_declareVars _ _
  have hF₃ := htame.before h₄ hF₄
  have hle := htame.next_le h₄
  obtain ⟨hF₂, hcode₃, hsize₃, hnext₃⟩ := emit_spec h₃ hF₃
  obtain ⟨hF₁, hcode₂, hsize₂, hnext₂⟩ := emit_spec h₂ hF₂
  obtain ⟨-, hindex, hnext₁, -, hfile₁, hitems₁⟩ := allocate_spec h₁ hF₁
  rw [← hk] at hcode₂ hcode₃ hcode₆ hcode₇ hcode₈ hcode₉
  have hd : dst.index < regs.size := by omega
  -- the scope and the frame of the signature
  have hstep₂ := Context.step_pushScope (m := m) (e := e) regs hcode₂
  rw [← hsize₂, hitems₁] at hstep₂
  let m₂ := m.withHeap (m.heap.newEnvironment (some e)).2
  let e₂ := m.heap.environments.size
  have hstep₃ := Context.step_pushFrame (m := m₂) (e := e₂) regs hcode₃
  rw [← hsize₃] at hstep₃
  -- its variables
  let m₃ : Machine := { m₂ with frames := m.frames.push }
  obtain ⟨regs₄, hgoes₄, hkeeps₄, hothers, hholds⟩ := goes_declareVars hk hfits t.distinctVars
    (Ty.nodup_firstOccurrences [] t.vars) (m := m₃) (e := e₂) h₄ hF₄ hfile
  let m₄ := m₃.declare t.distinctVars
  have hvar : BuildsVar F k (declaredVar registers) (fun v => .var (v.renumbered m.table.size t.distinctVars))
      (fun i => b₃.next.toNat ≤ i ∧ i < b₄.next.toNat) regs₄ := buildsVar_declaredVar hk hholds hothers
  -- the type over them, which is resolved as it is
  have hsize₄ := hkeeps₄.size
  obtain ⟨regs₅, hgoes₅, hkeeps₅, hv₅⟩ := goes_ty hk hfits hsafe hvar t (m := m₄) (e := e₂) h₅ hF₅
    ⟨by omega, by omega, by omega⟩ (fun hi => by omega) (fun i hi => hi.2) (.refl regs₄)
  have hsize₅ := hkeeps₅.size
  have hd₅ : dst.index < regs₅.size := by omega
  let u := t.renewed m.table.size
  replace hv₅ : regs₅[dst.index]? = some (.type u) := hv₅
  have hunbound : ∀ v ∈ u.vars, m₄.table.binding? v.id = none := fun w hw => by
    obtain ⟨v, hv, hw⟩ := Ty.exists_of_mem_vars_rebuilt hw
    obtain rfl := List.mem_singleton.mp hw
    have htable : m₄.table = m.table.grow _ := Frames.table_declare m.frames.push m.table t.distinctVars
    rw [htable, Table.binding?_grow, Table.binding?_of_size_le]
    obtain ⟨u, hu, hid⟩ := Ty.exists_mem_firstOccurrences hv
    exact (TyVar.id_renumbered (hid ▸ List.mem_map_of_mem hu)).1
  have hstep₆ := Context.step_resolveType (m := m₄) (e := e₂) hcode₆ hv₅ hd₅
  rw [← hsize₆, Table.resolveDeep_of_unbound hunbound] at hstep₆
  -- the frame and the scope are closed
  let T := m.table.addGeneralized t.distinctVars.length (m.frames.depth + 1)
  have hpop : (m₄.frames.pop m₄.table).2 = (m.frames, T) := m.frames.pop_declare m.table t.distinctVars
  have hstep₇ := Context.step_popFrame (m := m₄) (e := e₂) (regs₅.setIfInBounds dst.index (.type u)) hcode₇
  rw [← hsize₇, hpop] at hstep₇
  have hparent : m₄.heap.parent? e₂ = some e := congrArg Environment.parent Heap.environment_newEnvironment_self
  have hstep₈ := Context.step_popScope (m := ⟨T, m.frames, m₄.heap, m₄.globals⟩)
    (regs₅.setIfInBounds dst.index (.type u)) hcode₈ hparent
  rw [← hsize₈] at hstep₈
  exact ⟨T, b₈.items.size, dst, _, ((((((Run.Goes.one hstep₂).trans (.one hstep₃)).trans hgoes₄).trans hgoes₅).trans
    (.one hstep₆)).trans (.one hstep₇)).trans (.one hstep₈), hcode₉, getElem?_set hd₅, m.table.declared_spec _ _⟩

end Lower

end Reified
