import Reified.Proofs.Eval.Plain
import Reified.Proofs.Eval.Store
import Reified.Proofs.Lowering.Safe
import Reified.Proofs.Machine.Heap
import Reified.Proofs.Machine.Runs
import Reified.Proofs.Machine.TypeSteps

/-!
# The code for types

The code for a type builds the type in its register and leaves alone all other registers that were
handed out before, whatever the machine.

## Main definitions

* `Keeps` — some registers stay as they are
* `Room` — the register file has room for code
* `BuildsVar`, `BuildsVarThrough` — code that builds variables

## Main results

* `Lower.through_ty`, `Lower.goes_ty` — the code for a type builds it
* `Lower.typeExpr_eq_ty` — a written type is built like a type
-/

namespace Reified

/-! ## Registers -/

/-- The registers at certain positions stay as they are. -/
structure Keeps (P : Nat → Prop) (regs regs' : Array Value) : Prop where
  size : regs'.size = regs.size
  get : ∀ {i : Nat}, P i → regs'[i]? = regs[i]?

section keeps

variable {P Q : Nat → Prop} {regs regs₁ regs' : Array Value} {dst : Register} {v : Value}

theorem Keeps.refl (regs : Array Value) : Keeps P regs regs := ⟨rfl, fun _ => rfl⟩

theorem Keeps.trans (h : Keeps P regs regs₁) (h' : Keeps P regs₁ regs') : Keeps P regs regs' :=
  ⟨h'.size.trans h.size, fun hi => (h'.get hi).trans (h.get hi)⟩

theorem Keeps.mono (h : Keeps Q regs regs') (hPQ : ∀ i, P i → Q i) : Keeps P regs regs' :=
  ⟨h.size, fun hi => h.get (hPQ _ hi)⟩

theorem Keeps.set (hdst : ¬ P dst.index) : Keeps P regs (regs.setIfInBounds dst.index v) := by
  refine ⟨Array.size_setIfInBounds, fun hi => ?_⟩
  rw [Array.getElem?_setIfInBounds_ne]
  exact fun heq => hdst (heq ▸ hi)

theorem getElem?_set (hdst : dst.index < regs.size) :
    (regs.setIfInBounds dst.index v)[dst.index]? = some v :=
  Array.getElem?_setIfInBounds_self_of_lt hdst

end keeps

/-- The register file has all registers of the code, and the register for the result has been handed
out. -/
structure Room (F b : Builder) (dst : Register) (regs : Array Value) : Prop where
  lt : dst.index < b.next.toNat
  size : dst.index < regs.size
  file : F.block.registerCount.toNat ≤ regs.size

/-- One instruction of a block, at one of the positions. -/
theorem Run.Through.instr {Q : Nat → Prop} {k : Context} {m : Machine} {e p : Nat} {regs : Array Value} {r : Run}
    (hp : Q p) (h : Exec.step (k.run m e p regs) = .ok none r) : Run.Through Q (k.run m e p regs) r := .one hp h

/-! ## Types -/

/-- Code for variables builds the types that are given for them, as long as the registers `P` hold
what they hold in `regs₀`. -/
def BuildsVar (F : Builder) (k : Context) (var : TyVar → Register → Lower Unit) (σ : TyVar → Ty)
    (P : Nat → Prop) (regs₀ : Array Value) : Prop :=
  ∀ {v : TyVar} {dst : Register} {b b' : Builder} {m : Machine} {e : Nat} {regs : Array Value},
    var v dst b = .ok () b' → b'.Before F → dst.index < regs.size → Keeps P regs₀ regs →
    ∃ regs', Run.Goes (k.run m e b.items.size regs) (k.run m e b'.items.size regs') ∧
      Keeps (· ≠ dst.index) regs regs' ∧ regs'[dst.index]? = some (.type (σ v))

/-- Code for variables builds the types that are given for them, executing instructions at the positions `Q`. -/
def BuildsVarThrough (Q : Nat → Prop) (F : Builder) (k : Context) (var : TyVar → Register → Lower Unit)
    (σ : TyVar → Ty) (P : Nat → Prop) (regs₀ : Array Value) : Prop :=
  ∀ {v : TyVar} {dst : Register} {b b' : Builder} {m : Machine} {e : Nat} {regs : Array Value},
    var v dst b = .ok () b' → b'.Before F → (∀ q < b'.items.size, Q q) → dst.index < regs.size →
    Keeps P regs₀ regs →
    ∃ regs', Run.Through Q (k.run m e b.items.size regs) (k.run m e b'.items.size regs') ∧
      Keeps (· ≠ dst.index) regs regs' ∧ regs'[dst.index]? = some (.type (σ v))

theorem Ty.length_rebuiltList (σ : TyVar → Ty) (ts : List Ty) :
    (rebuiltList σ ts).length = ts.length := by
  induction ts with
  | nil => rw [rebuiltList]
  | cons t ts ih => rw [rebuiltList, List.length_cons, ih, List.length_cons]

theorem Ty.length_rebuiltFields (σ : TyVar → Ty) (fs : List (String × Ty)) :
    (rebuiltFields σ fs).length = fs.length := by
  induction fs with
  | nil => rw [rebuiltFields]
  | cons f fs ih => rw [rebuiltFields, List.length_cons, ih, List.length_cons]

namespace TypeExpr

theorem length_plainList (ts : List TypeExpr) : (plainList ts).length = ts.length := by
  induction ts with
  | nil => rw [plainList]; rfl
  | cons t ts ih => rw [plainList, List.length_cons, ih, List.length_cons]

theorem length_plainFields (fs : List (String × TypeExpr)) :
    (plainFields fs).length = fs.length := by
  induction fs with
  | nil => rw [plainFields]; rfl
  | cons f fs ih => rw [plainFields, List.length_cons, ih, List.length_cons]

end TypeExpr

namespace Lower

open Builder

section ty

variable {F : Builder} {k : Context} {var : TyVar → Register → Lower Unit} {σ : TyVar → Ty}
  {P Q : Nat → Prop} {regs₀ : Array Value} (hk : k.block = F.finish) (hfits : F.finish.Fits)
  (hsafe : ∀ n u v r, Safe n u (var v r)) (hvar : BuildsVarThrough Q F k var σ P regs₀)

include hk hfits hsafe hvar

set_option linter.unusedSectionVars false

mutual

theorem through_ty : (t : Ty) → ∀ {dst : Register} {b b' : Builder} {m : Machine} {e : Nat}
    {regs : Array Value}, ty var t dst b = .ok () b' → b'.Before F → (∀ q < b'.items.size, Q q) → Room F b dst regs →
    ¬ P dst.index → (∀ i, P i → i < b.next.toNat) → Keeps P regs₀ regs →
    ∃ regs', Run.Through Q (k.run m e b.items.size regs) (k.run m e b'.items.size regs') ∧
      Keeps (fun i => i < b.next.toNat ∧ i ≠ dst.index) regs regs' ∧
      regs'[dst.index]? = some (.type (t.rebuilt σ))
  | .var v, dst, b, b', m, e, regs, h, hF, hQ, hroom, hdst, hP, hregs => by
    rw [ty] at h
    obtain ⟨regs', hgoes, hkeeps, hv⟩ := hvar (m := m) (e := e) h hF hQ hroom.size hregs
    rw [Ty.rebuilt]
    exact ⟨regs', hgoes, hkeeps.mono fun i hi => hi.2, hv⟩
  | .name x, dst, b, b', m, e, regs, h, hF, hQ, hroom, hdst, hP, hregs => by
    rw [ty] at h
    obtain ⟨j, b₁, hj, h⟩ := bind_eq_ok h
    obtain ⟨hF₁, hcode, hsize, -⟩ := emit_spec h hF
    obtain ⟨-, hname, hitems, -⟩ := identifier_spec hj hF₁ hfits
    rw [← hk] at hcode hname
    rw [hitems] at hcode hsize
    rw [hsize, Ty.rebuilt]
    exact ⟨_, .instr (hQ _ (by omega)) (Context.step_newNameType hcode hname hroom.size), .set fun hi => hi.2 rfl,
      getElem?_set hroom.size⟩
  | .array t, dst, b, b', m, e, regs, h, hF, hQ, hroom, hdst, hP, hregs => by
    rw [ty] at h
    obtain ⟨item, b₁, hitem, h⟩ := bind_eq_ok h
    obtain ⟨_, b₂, ht, h⟩ := bind_eq_ok h
    obtain ⟨hF₂, hcode, hsize, -⟩ := emit_spec h hF
    have hF₁ := Tame.before (fun n u => safe_ty (hsafe n u) t item) ht hF₂
    obtain ⟨-, hindex, hnext, -, hfile, hitems⟩ := allocate_spec hitem hF₁
    have hlt := hroom.lt
    have hroom₁ : Room F b₁ item regs :=
      ⟨by omega, Nat.lt_of_lt_of_le (hindex ▸ hfile) hroom.file, hroom.file⟩
    obtain ⟨regs₁, hgoes, hkeeps, hv⟩ := through_ty t (m := m) (e := e) ht hF₂ (fun q hq => hQ q (by omega)) hroom₁
      (fun hi => by have := hP _ hi; omega) (fun i hi => by have := hP i hi; omega) hregs
    rw [← hk] at hcode
    have hd : dst.index < regs₁.size := hkeeps.size ▸ hroom.size
    rw [hsize, ← hitems, Ty.rebuilt]
    exact ⟨_, hgoes.trans (.instr (hQ _ (by omega)) (Context.step_newArrayType hcode hv hd)),
      (hkeeps.mono fun i hi => ⟨by omega, by omega⟩).trans (.set fun hi => hi.2 rfl),
      getElem?_set hd⟩
  | .tuple ts, dst, b, b', m, e, regs, h, hF, hQ, hroom, hdst, hP, hregs => by
    rw [ty] at h
    obtain ⟨first, b₁, hfirst, h⟩ := bind_eq_ok h
    obtain ⟨_, b₂, hts, h⟩ := bind_eq_ok h
    obtain ⟨hF₂, hcode, hsize, -⟩ := emit_spec h hF
    have hF₁ := Tame.before (fun n u => safe_tys (hsafe n u) ts first 0) hts hF₂
    obtain ⟨-, hindex, hnext, hle, hfile, hitems⟩ := allocateRange_spec hfirst hF₁
    have hlt := hroom.lt
    have hfile' := hroom.file
    obtain ⟨regs₁, hgoes, hkeeps, hv⟩ := through_tys ts (m := m) (e := e) hts hF₂
      (fun q hq => hQ q (by omega)) (by omega) (by omega) (by omega) (fun i hi => by have := hP i hi; omega) hregs
    rw [← hk] at hcode
    have hd : dst.index < regs₁.size := hkeeps.size ▸ hroom.size
    have hlength : (Ty.rebuiltList σ ts).length = (UInt32.ofNat ts.length).toNat := by
      rw [Ty.length_rebuiltList, UInt32.toNat_ofNat_of_lt' (by simp only [UInt32.size]; omega)]
    rw [hsize, ← hitems, Ty.rebuilt]
    refine ⟨_, hgoes.trans (.instr (hQ _ (by omega)) (Context.step_newTupleType hcode hlength (fun j hj => ?_) hd)),
      (hkeeps.mono fun i hi => by omega).trans (.set fun hi => hi.2 rfl), getElem?_set hd⟩
    have := hv j hj
    rwa [Nat.zero_add] at this
  | .record fs, dst, b, b', m, e, regs, h, hF, hQ, hroom, hdst, hP, hregs => by
    rw [ty] at h
    obtain ⟨firstKey, b₁, hkey, h⟩ := bind_eq_ok h
    obtain ⟨firstType, b₂, htype, h⟩ := bind_eq_ok h
    obtain ⟨_, b₃, hfs, h⟩ := bind_eq_ok h
    obtain ⟨hF₃, hcode, hsize, -⟩ := emit_spec h hF
    have hF₂ := Tame.before (fun n u => safe_tyFields (hsafe n u) fs firstKey firstType 0) hfs hF₃
    obtain ⟨hF₁, hindex', hnext', hle', hfile', hitems'⟩ := allocateRange_spec htype hF₂
    obtain ⟨-, hindex, hnext, hle, hfile, hitems⟩ := allocateRange_spec hkey hF₁
    have hlt := hroom.lt
    have hroom' := hroom.file
    obtain ⟨regs₁, hgoes, hkeeps, hkeys, htypes⟩ := through_tyFields fs (m := m) (e := e) hfs hF₃
      (fun q hq => hQ q (by omega)) (by omega) (by omega) (by omega) (by omega) (fun i hi => by have := hP i hi; omega) hregs
    rw [← hk] at hcode
    have hd : dst.index < regs₁.size := hkeeps.size ▸ hroom.size
    have hlength : (Ty.rebuiltFields σ fs).length = (UInt32.ofNat fs.length).toNat := by
      rw [Ty.length_rebuiltFields, UInt32.toNat_ofNat_of_lt' (by simp only [UInt32.size]; omega)]
    rw [hsize, ← hitems, ← hitems', Ty.rebuilt]
    refine ⟨_, hgoes.trans (.instr (hQ _ (by omega)) (Context.step_newRecordType hcode hlength (fun j hj => ?_)
      (fun j hj => ?_) hd)), (hkeeps.mono fun i hi => by omega).trans (.set fun hi => hi.2 rfl),
      getElem?_set hd⟩
    · have := hkeys j hj
      rwa [Nat.zero_add] at this
    · have := htypes j hj
      rwa [Nat.zero_add] at this
  | .fn ps r n, dst, b, b', m, e, regs, h, hF, hQ, hroom, hdst, hP, hregs => by
    rw [ty] at h
    obtain ⟨first, b₁, hfirst, h⟩ := bind_eq_ok h
    obtain ⟨_, b₂, hps, h⟩ := bind_eq_ok h
    obtain ⟨result, b₃, hresult, h⟩ := bind_eq_ok h
    obtain ⟨_, b₄, hr, h⟩ := bind_eq_ok h
    obtain ⟨hF₄, hcode, hsize, -⟩ := emit_spec h hF
    have hF₃ := Tame.before (fun n u => safe_ty (hsafe n u) r result) hr hF₄
    obtain ⟨hF₂, hindex', hnext', -, hfile', hitems'⟩ := allocate_spec hresult hF₃
    have hle₄ := Tame.items_le (fun n u => safe_ty (hsafe n u) r result) hr
    rw [hitems'] at hle₄
    have htame : Tame (tys var first 0 ps) := fun n u => safe_tys (hsafe n u) ps first 0
    have hF₁ := htame.before hps hF₂
    have hle' := htame.next_le hps
    obtain ⟨-, hindex, hnext, hle, hfile, hitems⟩ := allocateRange_spec hfirst hF₁
    have hlt := hroom.lt
    have hroom' := hroom.file
    obtain ⟨regs₁, hgoes, hkeeps, hv⟩ := through_tys ps (m := m) (e := e) hps hF₂
      (fun q hq => hQ q (by omega)) (by omega) (by omega) (by omega) (fun i hi => by have := hP i hi; omega) hregs
    have hsize₁ := hkeeps.size
    obtain ⟨regs₂, hgoes', hkeeps', hv'⟩ := through_ty r (m := m) (e := e) hr hF₄
      (fun q hq => hQ q (by omega)) ⟨by omega, by omega, by omega⟩ (fun hi => by have := hP _ hi; omega)
      (fun i hi => by have := hP i hi; omega)
      (hregs.trans (hkeeps.mono fun i hi => by have := hP i hi; omega))
    rw [← hk] at hcode
    have hd : dst.index < regs₂.size := hkeeps'.size ▸ hkeeps.size ▸ hroom.size
    have hlength : (Ty.rebuiltList σ ps).length = (UInt32.ofNat ps.length).toNat := by
      rw [Ty.length_rebuiltList, UInt32.toNat_ofNat_of_lt' (by simp only [UInt32.size]; omega)]
    rw [hitems'] at hgoes'
    rw [hsize, ← hitems, Ty.rebuilt]
    refine ⟨_, (hgoes.trans hgoes').trans
        (.instr (hQ _ (by omega)) (Context.step_newFunctionType hcode hlength (fun j hj => ?_) hv' hd)),
      ((hkeeps.mono fun i hi => by omega).trans (hkeeps'.mono fun i hi => by omega)).trans
        (.set fun hi => hi.2 rfl), getElem?_set hd⟩
    have hj' := hj
    rw [Ty.length_rebuiltList] at hj'
    rw [hkeeps'.get, ← hv j hj, Nat.zero_add]
    rw [Register.index_offset (by omega)]
    omega
  | .union x y, dst, b, b', m, e, regs, h, hF, hQ, hroom, hdst, hP, hregs => by
    rw [ty] at h
    obtain ⟨_, b₁, hx, h⟩ := bind_eq_ok h
    obtain ⟨right, b₂, hright, h⟩ := bind_eq_ok h
    obtain ⟨_, b₃, hy, h⟩ := bind_eq_ok h
    obtain ⟨hF₃, hcode, hsize, -⟩ := emit_spec h hF
    have hF₂ := Tame.before (fun n u => safe_ty (hsafe n u) y right) hy hF₃
    obtain ⟨hF₁, hindex, hnext, -, hfile, hitems⟩ := allocate_spec hright hF₂
    have hle := Tame.next_le (fun n u => safe_ty (hsafe n u) x dst) hx
    have hle₃ := Tame.items_le (fun n u => safe_ty (hsafe n u) y right) hy
    rw [hitems] at hle₃
    have hlt := hroom.lt
    have hroom' := hroom.file
    obtain ⟨regs₁, hgoes, hkeeps, hv⟩ := through_ty x (m := m) (e := e) hx hF₁ (fun q hq => hQ q (by omega)) hroom hdst hP hregs
    have hsize₁ := hkeeps.size
    obtain ⟨regs₂, hgoes', hkeeps', hv'⟩ := through_ty y (m := m) (e := e) hy hF₃
      (fun q hq => hQ q (by omega)) ⟨by omega, by omega, by omega⟩ (fun hi => by have := hP _ hi; omega)
      (fun i hi => by have := hP i hi; omega)
      (hregs.trans (hkeeps.mono fun i hi => ⟨hP i hi, fun heq => hdst (heq ▸ hi)⟩))
    rw [← hk] at hcode
    have hd : dst.index < regs₂.size := hkeeps'.size ▸ hkeeps.size ▸ hroom.size
    rw [hitems] at hgoes'
    rw [hsize, Ty.rebuilt]
    refine ⟨_, (hgoes.trans hgoes').trans (.instr (hQ _ (by omega)) (Context.step_newUnionType hcode ?_ hv' hd)),
      (hkeeps.trans (hkeeps'.mono fun i hi => by omega)).trans (.set fun hi => hi.2 rfl),
      getElem?_set hd⟩
    rw [hkeeps'.get (by omega), hv]
  | .binding x t, dst, b, b', m, e, regs, h, hF, hQ, hroom, hdst, hP, hregs => by
    rw [ty] at h
    obtain ⟨inner, b₁, hinner, h⟩ := bind_eq_ok h
    obtain ⟨_, b₂, ht, h⟩ := bind_eq_ok h
    obtain ⟨j, b₃, hj, h⟩ := bind_eq_ok h
    obtain ⟨hF₃, hcode, hsize, -⟩ := emit_spec h hF
    obtain ⟨hF₂, hname, hitems', -⟩ := identifier_spec hj hF₃ hfits
    have hF₁ := Tame.before (fun n u => safe_ty (hsafe n u) t inner) ht hF₂
    obtain ⟨-, hindex, hnext, -, hfile, hitems⟩ := allocate_spec hinner hF₁
    have hlt := hroom.lt
    have hroom' := hroom.file
    obtain ⟨regs₁, hgoes, hkeeps, hv⟩ := through_ty t (m := m) (e := e) ht hF₂
      (fun q hq => hQ q (by rw [hsize, hitems']; omega)) ⟨by omega, by omega, by omega⟩
      (fun hi => by have := hP _ hi; omega) (fun i hi => by have := hP i hi; omega) hregs
    rw [← hk] at hcode hname
    have hd : dst.index < regs₁.size := hkeeps.size ▸ hroom.size
    rw [hitems'] at hcode hsize
    rw [hsize, ← hitems, Ty.rebuilt]
    exact ⟨_, hgoes.trans (.instr (hQ _ (by omega)) (Context.step_newBindingType hcode hname hv hd)),
      (hkeeps.mono fun i hi => ⟨by omega, by omega⟩).trans (.set fun hi => hi.2 rfl),
      getElem?_set hd⟩

theorem through_tys : (ts : List Ty) → ∀ {first : Register} {index : Nat} {b b' : Builder}
    {m : Machine} {e : Nat} {regs : Array Value}, tys var first index ts b = .ok () b' →
    b'.Before F → (∀ q < b'.items.size, Q q) → first.index + index + ts.length ≤ b.next.toNat →
    first.index + index + ts.length ≤ regs.size → F.block.registerCount.toNat ≤ regs.size →
    (∀ i, P i → i < first.index) → Keeps P regs₀ regs →
    ∃ regs', Run.Through Q (k.run m e b.items.size regs) (k.run m e b'.items.size regs') ∧
      Keeps (fun i => i < first.index + index) regs regs' ∧
      ∀ (j : Nat) (hj : j < (Ty.rebuiltList σ ts).length),
        regs'[(first.offset (index + j)).index]? = some (.type (Ty.rebuiltList σ ts)[j])
  | [], first, index, b, b', m, e, regs, h, hF, hQ, hnext, hsize, hfile, hP, hregs => by
    rw [tys] at h
    obtain ⟨-, rfl⟩ := pure_eq_ok h
    exact ⟨regs, .refl _, .refl _, fun j hj => absurd hj (Nat.not_lt_zero j)⟩
  | t :: ts, first, index, b, b', m, e, regs, h, hF, hQ, hnext, hsize, hfile, hP, hregs => by
    rw [tys] at h
    obtain ⟨_, b₁, ht, hts⟩ := bind_eq_ok h
    have htame : Tame (ty var t (first.offset index)) := fun n u => safe_ty (hsafe n u) t _
    have hF₁ := Tame.before (fun n u => safe_tys (hsafe n u) ts first (index + 1)) hts hF
    have hle := htame.next_le ht
    have hle' := Tame.items_le (fun n u => safe_tys (hsafe n u) ts first (index + 1)) hts
    have hmax := b.next.toNat_lt
    rw [List.length_cons] at hnext hsize
    have hindex : (first.offset index).index = first.index + index :=
      Register.index_offset (by omega)
    obtain ⟨regs₁, hgoes, hkeeps, hv⟩ := through_ty t (m := m) (e := e) ht hF₁
      (fun q hq => hQ q (by omega)) ⟨by omega, by omega, hfile⟩ (fun hi => by have := hP _ hi; omega)
      (fun i hi => by have := hP i hi; omega) hregs
    have hsize₁ := hkeeps.size
    obtain ⟨regs₂, hgoes', hkeeps', hv'⟩ := through_tys ts (m := m) (e := e) hts hF
      hQ (by omega) (by omega) (by omega) hP
      (hregs.trans (hkeeps.mono fun i hi => by have := hP i hi; omega))
    refine ⟨regs₂, hgoes.trans hgoes', (hkeeps.mono fun i hi => by omega).trans
      (hkeeps'.mono fun i hi => by omega), fun j hj => ?_⟩
    cases j with
    | zero =>
      rw [Nat.add_zero, hkeeps'.get (by omega), hv]
      rfl
    | succ j =>
      have := hv' j (Nat.lt_of_succ_lt_succ hj)
      rw [Nat.add_assoc, Nat.add_comm 1] at this
      exact this

theorem through_tyFields : (fs : List (String × Ty)) → ∀ {firstKey firstType : Register}
    {index : Nat} {b b' : Builder} {m : Machine} {e : Nat} {regs : Array Value},
    tyFields var firstKey firstType index fs b = .ok () b' → b'.Before F →
    (∀ q < b'.items.size, Q q) →
    firstKey.index + index + fs.length ≤ firstType.index →
    firstType.index + index + fs.length ≤ b.next.toNat →
    firstType.index + index + fs.length ≤ regs.size → F.block.registerCount.toNat ≤ regs.size →
    (∀ i, P i → i < firstKey.index) → Keeps P regs₀ regs →
    ∃ regs', Run.Through Q (k.run m e b.items.size regs) (k.run m e b'.items.size regs') ∧
      Keeps (fun i => i < firstKey.index + index ∨
        (firstType.index ≤ i ∧ i < firstType.index + index)) regs regs' ∧
      (∀ (j : Nat) (hj : j < (Ty.rebuiltFields σ fs).length),
        regs'[(firstKey.offset (index + j)).index]? =
          some (.string (Ty.rebuiltFields σ fs)[j].1)) ∧
      ∀ (j : Nat) (hj : j < (Ty.rebuiltFields σ fs).length),
        regs'[(firstType.offset (index + j)).index]? =
          some (.type (Ty.rebuiltFields σ fs)[j].2)
  | [], firstKey, firstType, index, b, b', m, e, regs, h, hF, hQ, hkeys, hnext, hsize, hfile, hP,
      hregs => by
    rw [tyFields] at h
    obtain ⟨-, rfl⟩ := pure_eq_ok h
    exact ⟨regs, .refl _, .refl _, fun j hj => absurd hj (Nat.not_lt_zero j),
      fun j hj => absurd hj (Nat.not_lt_zero j)⟩
  | (name, t) :: fs, firstKey, firstType, index, b, b', m, e, regs, h, hF, hQ, hkeys, hnext, hsize,
      hfile, hP, hregs => by
    rw [tyFields] at h
    obtain ⟨_, b₁, hname, h⟩ := bind_eq_ok h
    obtain ⟨_, b₂, ht, hfs⟩ := bind_eq_ok h
    have htame : Tame (ty var t (firstType.offset index)) := fun n u => safe_ty (hsafe n u) t _
    have hF₂ := Tame.before
      (fun n u => safe_tyFields (hsafe n u) fs firstKey firstType (index + 1)) hfs hF
    have hF₁ := htame.before ht hF₂
    obtain ⟨-, ⟨c, hc, hcode⟩, hsize₁, hnext₁⟩ := load_spec hname hF₁ hfits
    have hle := htame.next_le ht
    have hle₁ := htame.items_le ht
    have hle₂ := Tame.items_le (fun n u => safe_tyFields (hsafe n u) fs firstKey firstType (index + 1)) hfs
    have hmax := b.next.toNat_lt
    rw [List.length_cons] at hkeys hnext hsize
    have hindex : (firstKey.offset index).index = firstKey.index + index :=
      Register.index_offset (by omega)
    have hindex' : (firstType.offset index).index = firstType.index + index :=
      Register.index_offset (by omega)
    rw [← hk] at hc hcode
    have hd : (firstKey.offset index).index < regs.size := by omega
    have hload := Context.step_loadConstant (m := m) (e := e) hcode hc hd
    have hkeeps₀ : Keeps (· ≠ (firstKey.offset index).index) regs
        (regs.setIfInBounds (firstKey.offset index).index (.string name)) :=
      .set fun hne => hne rfl
    rw [← hsize₁] at hload
    have hsize₀ := hkeeps₀.size
    obtain ⟨regs₁, hgoes, hkeeps, hv⟩ := through_ty t (m := m) (e := e) ht hF₂
      (fun q hq => hQ q (by omega)) ⟨by omega, by omega, by omega⟩ (fun hi => by have := hP _ hi; omega)
      (fun i hi => by have := hP i hi; omega)
      (hregs.trans (hkeeps₀.mono fun i hi => by have := hP i hi; omega))
    have hsize₂ := hkeeps.size
    obtain ⟨regs₂, hgoes', hkeeps', hks, hts⟩ := through_tyFields fs (m := m) (e := e)
      hfs hF hQ (by omega) (by omega) (by omega) (by omega) hP
      (hregs.trans ((hkeeps₀.mono fun i hi => by have := hP i hi; omega).trans
        (hkeeps.mono fun i hi => by have := hP i hi; omega)))
    refine ⟨regs₂, ((Run.Through.instr (hQ _ (by omega)) hload).trans hgoes).trans hgoes',
      ((hkeeps₀.mono fun i hi => by omega).trans (hkeeps.mono fun i hi => by omega)).trans
        (hkeeps'.mono fun i hi => by omega), fun j hj => ?_, fun j hj => ?_⟩
    · cases j with
      | zero =>
        rw [Nat.add_zero, hkeeps'.get (by omega), hkeeps.get (by omega), getElem?_set hd]
        rfl
      | succ j =>
        have := hks j (Nat.lt_of_succ_lt_succ hj)
        rw [Nat.add_assoc, Nat.add_comm 1] at this
        exact this
    · cases j with
      | zero =>
        rw [Nat.add_zero, hkeeps'.get (by omega), hv]
        rfl
      | succ j =>
        have := hts j (Nat.lt_of_succ_lt_succ hj)
        rw [Nat.add_assoc, Nat.add_comm 1] at this
        exact this

end

end ty

/-- The code for a type builds it. -/
theorem goes_ty {F : Builder} {k : Context} {var : TyVar → Register → Lower Unit} {σ : TyVar → Ty}
    {P : Nat → Prop} {regs₀ : Array Value} (hk : k.block = F.finish) (hfits : F.finish.Fits)
    (hsafe : ∀ n u v r, Safe n u (var v r)) (hvar : BuildsVar F k var σ P regs₀) (t : Ty) {dst : Register}
    {b b' : Builder} {m : Machine} {e : Nat} {regs : Array Value} (h : ty var t dst b = .ok () b') (hF : b'.Before F)
    (hroom : Room F b dst regs) (hdst : ¬ P dst.index) (hP : ∀ i, P i → i < b.next.toNat) (hregs : Keeps P regs₀ regs) :
    ∃ regs', Run.Goes (k.run m e b.items.size regs) (k.run m e b'.items.size regs') ∧
      Keeps (fun i => i < b.next.toNat ∧ i ≠ dst.index) regs regs' ∧
      regs'[dst.index]? = some (.type (t.rebuilt σ)) := by
  have hvar' : BuildsVarThrough (fun _ => True) F k var σ P regs₀ := fun h hF _ hd hkeeps => by
    obtain ⟨regs', hgoes, hrest⟩ := hvar h hF hd hkeeps
    exact ⟨regs', Run.through_true_iff.mpr hgoes, hrest⟩
  obtain ⟨regs', hthrough, hrest⟩ :=
    through_ty hk hfits hsafe hvar' t (m := m) (e := e) h hF (fun _ _ => trivial) hroom hdst hP hregs
  exact ⟨regs', hthrough.goes, hrest⟩

/-! ## Written types -/

mutual

/-- A written type whose names are known is built like the type that it stands for. -/
theorem typeExpr_eq_ty (var : TyVar → Register → Lower Unit) : (t : TypeExpr) → t.WellKnown →
    (dst : Register) → typeExpr t dst = ty var t.plain dst
  | .name x _, ht, dst => by
    have hx : Ty.isWellKnown x = true := ht x (List.mem_singleton_self x)
    simp only [typeExpr, TypeExpr.plain, ty, hx, if_true]
  | .array t, ht, dst => by
    rw [typeExpr, TypeExpr.plain, ty]
    simp only [typeExpr_eq_ty var t ht]
  | .tuple ts, ht, dst => by
    rw [typeExpr, TypeExpr.plain, ty]
    simp only [typeExprs_eq_tys var ts ht, TypeExpr.length_plainList]
  | .record fs, ht, dst => by
    rw [typeExpr, TypeExpr.plain, ty]
    simp only [typeExprFields_eq_tyFields var fs ht, TypeExpr.length_plainFields]
  | .fn ps r, ht, dst => by
    have hps := typeExprs_eq_tys var ps fun n hn => ht n (List.mem_append_left _ hn)
    have hr := typeExpr_eq_ty var r fun n hn => ht n (List.mem_append_right _ hn)
    rw [typeExpr, TypeExpr.plain, ty]
    simp only [hps, hr, TypeExpr.length_plainList]
    rfl
  | .union a b, ht, dst => by
    have ha := typeExpr_eq_ty var a fun n hn => ht n (List.mem_append_left _ hn)
    have hb := typeExpr_eq_ty var b fun n hn => ht n (List.mem_append_right _ hn)
    rw [typeExpr, TypeExpr.plain, ty]
    simp only [ha, hb]

theorem typeExprs_eq_tys (var : TyVar → Register → Lower Unit) : (ts : List TypeExpr) →
    (∀ n ∈ TypeExpr.namesList ts, Ty.isWellKnown n = true) → (first : Register) →
    (index : Nat) → typeExprs first index ts = tys var first index (TypeExpr.plainList ts)
  | [], _, first, index => by
    rw [typeExprs, TypeExpr.plainList, tys]
  | t :: ts, ht, first, index => by
    have ht' := typeExpr_eq_ty var t fun n hn => ht n (List.mem_append_left _ hn)
    have hts := typeExprs_eq_tys var ts fun n hn => ht n (List.mem_append_right _ hn)
    rw [typeExprs, TypeExpr.plainList, tys]
    simp only [ht', hts]

theorem typeExprFields_eq_tyFields (var : TyVar → Register → Lower Unit) :
    (fs : List (String × TypeExpr)) →
    (∀ n ∈ TypeExpr.namesFields fs, Ty.isWellKnown n = true) → (firstKey firstType : Register) →
    (index : Nat) → typeExprFields firstKey firstType index fs =
      tyFields var firstKey firstType index (TypeExpr.plainFields fs)
  | [], _, firstKey, firstType, index => by
    rw [typeExprFields, TypeExpr.plainFields, tyFields]
  | (name, t) :: fs, ht, firstKey, firstType, index => by
    have ht' := typeExpr_eq_ty var t fun n hn => ht n (List.mem_append_left _ hn)
    have hfs := typeExprFields_eq_tyFields var fs fun n hn => ht n (List.mem_append_right _ hn)
    rw [typeExprFields, TypeExpr.plainFields, tyFields]
    simp only [ht', hfs]

end

/-- The code for a written type leaves its value. -/
theorem goes_typeExpr {F : Builder} {k : Context} (hk : k.block = F.finish)
    (hfits : F.finish.Fits) {t : TypeExpr} (ht : t.WellKnown) {dst : Register} {b b' : Builder}
    {m : Machine} {e : Nat} {regs : Array Value} (h : typeExpr t dst b = .ok () b')
    (hF : b'.Before F) (hroom : Room F b dst regs) :
    ∃ regs', Run.Goes (k.run m e b.items.size regs) (k.run m e b'.items.size regs') ∧
      Keeps (fun i => i < b.next.toNat ∧ i ≠ dst.index) regs regs' ∧
      regs'[dst.index]? = some (.type t.value) := by
  -- There are no variables, so the code for them does not matter.
  have hsafe : ∀ n u (v : TyVar) (r : Register),
      Safe n u (throw (.noValue v) : Lower Unit) := fun n u v r => .throw _
  have hvar : BuildsVar F k (fun v _ => throw (.noValue v)) .var (fun _ => False) regs := by
    intro v dst b b' m e regs' h
    cases h
  rw [typeExpr_eq_ty (fun v _ => throw (.noValue v)) t ht] at h
  exact goes_ty hk hfits hsafe hvar t.plain h hF hroom id (fun i hi => hi.elim) (.refl regs)

end Lower

end Reified
