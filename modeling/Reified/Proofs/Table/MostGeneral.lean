import Reified.Proofs.Table.Unify

/-!
# Unification is most general

Without unions, unification solves the equation it is given. Solutions are assignments `θ` of types
to variables that agree with the bindings of the table; names attached to types and counts of
implicit parameters are erased. On success the solutions of the table afterwards are exactly those
solutions of the table before that equate the two types. On failure there are none.

`Decides` says this of any equation, so that it can be put together from the equations between the
parts of two types. The bound on the number of steps through bindings is never reached: the
variables passed on each side are collected, and since each of them is larger than what is reached
from it, under every substitution, none is passed twice.

## Main definitions

* `Table.Extends` — a table that substitutes further in what another says
* `Table.Ready` — what is asked of one side of an equation
* `Table.Decides` — a result that decides an equation
* `Table.Moves` — a substitution of unbound flexible variables

## Main results

* `Table.decides_bind` — binding a variable
* `Table.decides_unifyForms`, `Table.decides_unifyWithin` — the recursion
* `Table.unify_decides`, `Table.unify_most_general` — unification
-/

namespace Reified

namespace Table

variable {vs : List TyVar} {T T₁ T' : Table}

/-! ## Extended tables -/

/-- The table `T'` binds all that `T` binds, and substitutes further types without unions in what
`T` says. -/
structure Extends (T T' : Table) : Prop where
  unbound : ∀ id, T'.binding? id = none → T.binding? id = none
  subst : ∃ δ : TyVar → Ty, (∀ v, (δ v).UnionFree) ∧ ∀ t, T'.deep t = (T.deep t).subst δ

theorem Same.extends (h : T.Same T') : T.Extends T' :=
  ⟨fun _ => h.unbound_iff.mp, .var, fun _ => trivial, fun t => by rw [h.deep, Ty.subst_var]⟩

theorem Extends.trans (h : T.Extends T₁) (h' : T₁.Extends T') : T.Extends T' := by
  obtain ⟨δ, hδ, hd⟩ := h.subst
  obtain ⟨δ', hδ', hd'⟩ := h'.subst
  refine ⟨fun id hid => h.unbound id (h'.unbound id hid), fun v => (δ v).subst δ', fun v => ?_,
    fun t => by rw [hd', hd, Ty.subst_subst]⟩
  exact Ty.unionFree_subst.mpr ⟨hδ v, fun w _ => hδ' w⟩

/-- The extended table says the same of a type and of what the old one says of it. -/
theorem Extends.deep_deep (h : T.Extends T') (hT : T.Acyclic) (t : Ty) :
    T'.deep (T.deep t) = T'.deep t := by
  obtain ⟨δ, -, hd⟩ := h.subst
  rw [hd, hd, Table.deep_deep hT]

/-- A new binding extends what the table says. -/
theorem extends_setBinding (hT : T.Acyclic) {id : Nat} (hid : id < T.size) {t : Ty}
    (hu : T.binding? id = none) (ht : ¬ T.Reaches t id) (hf : (T.deep t).UnionFree) :
    T.Extends (T.setBinding id t) := by
  refine ⟨fun v hv => ?_, _, fun v => ?_, deep_setBinding hT hid hu ht⟩
  · rw [binding?_setBinding hid] at hv
    by_cases hvid : v = id
    · simp [hvid] at hv
    · simpa [hvid] using hv
  · split
    · exact hf
    · exact trivial

/-! ## One side of an equation -/

/-- The type is smaller than each of the variables, by `k` at least, whatever replaces what the table
leaves unbound. -/
def Within (T : Table) (k : Nat) (V : Finset TyVar) (t : Ty) : Prop :=
  ∀ x ∈ V, ∀ θ : TyVar → Ty, ((T.deep t).subst θ).size + k ≤ ((T.deep (.var x)).subst θ).size

/-- What is asked of one side of an equation: a type over the variables of the table, without unions
below any of its bindings, and smaller than the variables `V` that were passed on the way to it. -/
structure Ready (vs : List TyVar) (T : Table) (k : Nat) (V : Finset TyVar) (t : Ty) : Prop where
  written : t.Over vs
  unionFree : (T.deep t).UnionFree
  passed : V ⊆ vs.toFinset
  within : T.Within k V t

namespace Ready

variable {V : Finset TyVar} {t : Ty} {k : Nat}

theorem mono (h : T.Ready vs k V t) (hT : T.Extends T') : T'.Ready vs k V t := by
  obtain ⟨δ, hδ, hd⟩ := hT.subst
  refine ⟨h.written, ?_, h.passed, fun x hx θ => ?_⟩
  · rw [hd]
    exact Ty.unionFree_subst.mpr ⟨h.unionFree, fun w _ => hδ w⟩
  · rw [hd, hd, Ty.subst_subst, Ty.subst_subst]
    exact h.within x hx _

theorem weaken (h : T.Ready vs k V t) : T.Ready vs 0 V t :=
  ⟨h.written, h.unionFree, h.passed, fun x hx θ => by have := h.within x hx θ; omega⟩

/-- The parts of a type are smaller again. -/
theorem part (h : T.Ready vs k V t) {c : Ty} (hc : c.Part t) : T.Ready vs 1 V c := by
  have hd : (T.deep c).Part (T.deep t) := hc.subst _
  refine ⟨h.written.part hc, hd.unionFree h.unionFree, h.passed, fun x hx θ => ?_⟩
  have h1 := (hd.subst θ).size_lt
  have h2 := h.within x hx θ
  omega

/-- **No variable is passed twice.** The representative of a type is ready after its variable, if
that is bound, was added to those passed before. -/
theorem resolve (h : T.Ready vs k V t) (hk : T.binds t = true → 0 < k) {S : Table}
    (hS : T.Agrees vs S) :
    ∃ V', V'.card = V.card + (if T.binds t then 1 else 0) ∧
      (S.resolve t).2.Ready vs 0 V' (S.resolve t).1 := by
  obtain ⟨hagrees, hover, hdeep, -⟩ := resolve_spec hS.inv h.written
  have hd : (S.resolve t).2.deep (S.resolve t).1 = T.deep t := by
    rw [hagrees.same.deep, hdeep, hS.same.deep]
  have hsame := (hS.trans hagrees).same
  cases hb : T.binds t with
  | false =>
    refine ⟨V, by simp, hover, ?_, h.passed, fun x hx θ => ?_⟩
    · rw [hd]
      exact h.unionFree
    · rw [hd, hsame.deep]
      exact h.weaken.within x hx θ
  | true =>
    obtain ⟨v, rfl⟩ : ∃ v, t = .var v := by
      cases t with
      | var v => exact ⟨v, rfl⟩
      | _ => simp [binds] at hb
    have hv : v ∉ V := fun hv => by
      have := h.within v hv .var
      have := hk hb
      omega
    refine ⟨insert v V, by simp [Finset.card_insert_of_notMem hv], hover, ?_, fun x hx => ?_,
      fun x hx θ => ?_⟩
    · rw [hd]
      exact h.unionFree
    · rcases Finset.mem_insert.mp hx with rfl | hx
      · exact List.mem_toFinset.mpr (h.written.vars _ (by simp [Ty.vars]))
      · exact h.passed hx
    · rw [hd, hsame.deep]
      rcases Finset.mem_insert.mp hx with rfl | hx
      · omega
      · exact h.weaken.within x hx θ

end Ready

/-! ## Deciding an equation -/

/-- The assignment leaves rigid variables alone. -/
def FixesRigid (vs : List TyVar) (θ : TyVar → Ty) : Prop :=
  ∀ v ∈ vs, v.rigid = true → θ v = .var v

/-- The solutions of the new table are those of the old one that satisfy the equation. -/
structure Succeeds (vs : List TyVar) (T : Table) (E : (TyVar → Ty) → Prop) (T' : Table) :
    Prop where
  inv : T'.Inv vs
  extend : T.Extends T'
  solves : ∀ θ, T'.Solves Ty.erase vs θ ↔ T.Solves Ty.erase vs θ ∧ E θ

/-- A result decides an equation: success leaves exactly its solutions, failure means that there are
none. -/
def Decides (vs : List TyVar) (T : Table) (E : (TyVar → Ty) → Prop) : Unified → Prop
  | .ok _ T' => T.Succeeds vs E T'
  | .error _ _ => ∀ θ, T.Solves Ty.erase vs θ → FixesRigid vs θ → ¬ E θ

/-- Solutions do not tell types apart that stand for the same. -/
theorem Solves.erase_eq {θ : TyVar → Ty} (hθ : T.Solves Ty.erase vs θ) {a b : Ty} (ha : a.Over vs)
    (hb : b.Over vs) (h : T.deep a = T.deep b) : a.erase.subst θ = b.erase.subst θ := by
  rw [← hθ.deep_eq Ty.natural_erase ha.vars, h, hθ.deep_eq Ty.natural_erase hb.vars]

/-- The equation between two types. -/
def Equates (a b : Ty) (θ : TyVar → Ty) : Prop :=
  a.erase.subst θ = b.erase.subst θ

namespace Decides

variable {E E₁ E₂ : (TyVar → Ty) → Prop} {r : Unified}

theorem congr (h : T.Decides vs E₁ r) (hE : ∀ θ, T.Solves Ty.erase vs θ → (E₁ θ ↔ E₂ θ)) :
    T.Decides vs E₂ r := by
  cases r with
  | ok _ T' =>
    refine ⟨h.inv, h.extend, fun θ => (h.solves θ).trans ?_⟩
    exact and_congr_right fun hθ => hE θ hθ
  | error e T' => exact fun θ hθ hr hE₂ => h θ hθ hr ((hE θ hθ).mpr hE₂)

/-- It does not matter which of two tables that agree is asked. -/
theorem of_agrees (hT : T.Agrees vs T₁) (h : T₁.Decides vs E r) : T.Decides vs E r := by
  cases r with
  | ok _ T' =>
    refine ⟨h.inv, hT.same.extends.trans h.extend, fun θ => (h.solves θ).trans ?_⟩
    rw [hT.same.solves_iff]
  | error e T' => exact fun θ hθ => h θ (hT.same.solves_iff.mpr hθ)

/-- Two equations one after the other. -/
theorem trans (h : T.Succeeds vs E₁ T₁) (h' : T₁.Decides vs E₂ r) :
    T.Decides vs (fun θ => E₁ θ ∧ E₂ θ) r := by
  cases r with
  | ok _ T' =>
    refine ⟨h'.inv, h.extend.trans h'.extend, fun θ => (h'.solves θ).trans ?_⟩
    rw [h.solves, and_assoc]
  | error e T' =>
    exact fun θ hθ hr hE => h' θ ((h.solves θ).mpr ⟨hθ, hE.1⟩) hr hE.2

/-- An equation that every assignment solves. -/
theorem ok_of_forall (hT : T.Inv vs) (hE : ∀ θ, E θ) : T.Decides vs E (.ok () T) :=
  ⟨hT, (Same.refl T).extends, fun θ => (and_iff_left (hE θ)).symm⟩

end Decides

theorem decides_mismatch {E : (TyVar → Ty) → Prop} {a b : Ty}
    (hE : ∀ θ, T.Solves Ty.erase vs θ → FixesRigid vs θ → ¬ E θ) :
    T.Decides vs E (T'.mismatch a b) := hE

theorem decides_missingField {E : (TyVar → Ty) → Prop} {field : String} {a : Ty}
    (hE : ∀ θ, T.Solves Ty.erase vs θ → FixesRigid vs θ → ¬ E θ) :
    T.Decides vs E (T'.missingField field a) := hE

/-! ## Binding a variable -/

theorem isForm_deep {t : Ty} (ht : t.IsForm) : (T.deep t).IsForm := by
  cases t with
  | var v => exact ht.elim
  | binding n t => exact ht.elim
  | _ => trivial

/-- **Binding a variable decides the equation with its type**: the type is not that variable and not
one with a name attached to it. -/
theorem decides_bind (hT : T.Inv vs) {v : TyVar} (hv : v ∈ vs) (hr : v.rigid = false)
    (hu : T.binding? v.id = none) {t : Ty} (ht : t.Over vs) (hf : (T.deep t).UnionFree)
    (hform : t.IsForm ∨ ∃ w, t = .var w ∧ T.binding? w.id = none ∧ w.id ≠ v.id) :
    T.Decides vs (Equates (.var v) t) (T.bind v t) := by
  by_cases hreach : T.Reaches t v.id
  · obtain ⟨e, S, he, -⟩ := bind_of_reaches hT ht hreach
    rw [he]
    intro θ hθ _ hE
    rcases hform with hform | ⟨w, rfl, hw, hne⟩
    · -- the variable is smaller than the type around it
      obtain ⟨w, hw, hid⟩ := hreach
      obtain rfl : w = v := hT.eq_of_id ((hT.over_deep ht).vars w hw) hv hid
      have hlt := Ty.size_lt_size_subst_of_mem (σ := θ) (isForm_deep hform) hw
      rw [hθ.deep_eq Ty.natural_erase ht.vars, ← hE] at hlt
      exact absurd hlt (lt_irrefl _)
    · exact hne ((reaches_var_of_unbound hw).mp hreach)
  · obtain ⟨S, hok, hS⟩ := bind_of_not_reaches hT ht hreach
    have hid := hS.inv.lt_size hv
    have hu' := hS.same.unbound_iff.mpr hu
    have hreach' : ¬ S.Reaches t v.id := by
      rw [Reaches, hS.same.deep]
      exact hreach
    have hdeep := deep_setBinding hS.inv.acyclic hid hu' hreach'
    rw [hok]
    refine Decides.of_agrees hS ⟨hS.inv_setBinding hv hr hu ht hreach,
      extends_setBinding hS.inv.acyclic hid hu' hreach' (by rwa [hS.same.deep]), fun θ => ?_⟩
    -- where the two sides are equal, the new binding makes no difference
    have key : θ v = (S.deep t).erase.subst θ → ∀ u : Ty, u.Over vs →
        ((S.setBinding v.id t).deep u).erase.subst θ = (S.deep u).erase.subst θ := by
      intro hvt u hu
      rw [hdeep, Ty.erase_subst, Ty.subst_subst]
      refine Ty.subst_congr fun w hw => ?_
      rw [Ty.vars_erase] at hw
      by_cases hwv : w.id = v.id
      · rw [if_pos hwv, hT.eq_of_id ((hS.inv.over_deep hu).vars w hw) hv hwv, hvt]
      · rw [if_neg hwv]
        rfl
    have hself : (S.setBinding v.id t).deep (.var v) = S.deep t := by
      rw [hdeep, deep_var_of_unbound hu', Ty.subst, if_pos rfl]
    constructor
    · intro hθ
      have hvt : θ v = (S.deep t).erase.subst θ := by rw [hθ v hv, hself]
      have hsol : S.Solves Ty.erase vs θ := fun u hu => by
        rw [hθ u hu, key hvt _ (.var hu)]
      exact ⟨hsol, hvt.trans (hsol.deep_eq Ty.natural_erase ht.vars)⟩
    · rintro ⟨hθ, hE⟩ u hu
      have hvt : θ v = (S.deep t).erase.subst θ :=
        hE.trans (hθ.deep_eq Ty.natural_erase ht.vars).symm
      rw [key hvt _ (.var hu)]
      exact hθ u hu

/-! ## The recursion -/

/-- Unifying the two types decides their equation, if more steps are allowed than there can be
variables still to pass. A variable that is going to be passed is smaller than those before. -/
def Solving (vs : List TyVar) (n : Nat) (a b : Ty) : Prop :=
  ∀ (T : Table) (j k : Nat) (V W : Finset TyVar), T.Inv vs → T.Ready vs j V a → T.Ready vs k W b →
    (T.binds a = true → 0 < j) → (T.binds b = true → 0 < k) →
    2 * vs.length < n + V.card + W.card → T.Decides vs (Equates a b) (unifyWithin n a b T)

section recursion

variable {n : Nat} {a b : Ty} {V W : Finset TyVar}

theorem decides_unifyLists {as bs : List Ty} (hlen : as.length = bs.length)
    (h : ∀ a ∈ as, ∀ b ∈ bs, Solving vs n a b) (hT : T.Inv vs)
    (ha : ∀ a ∈ as, T.Ready vs 1 V a) (hb : ∀ b ∈ bs, T.Ready vs 1 W b)
    (hn : 2 * vs.length < n + V.card + W.card) :
    T.Decides vs (fun θ => as.map (·.erase.subst θ) = bs.map (·.erase.subst θ))
      (unifyLists n as bs T) := by
  induction as generalizing bs T with
  | nil =>
    obtain rfl := List.length_eq_zero_iff.mp hlen.symm
    rw [unifyLists.eq_def]
    exact .ok_of_forall hT fun θ => rfl
  | cons a as ih =>
    cases bs with
    | nil => simp at hlen
    | cons b bs =>
      obtain ⟨ha, has⟩ := List.forall_mem_cons.mp ha
      obtain ⟨hb, hbs⟩ := List.forall_mem_cons.mp hb
      have h1 := h a (by simp) b (by simp) T 1 1 V W hT ha hb (fun _ => one_pos) (fun _ => one_pos) hn
      simp only [List.map_cons, List.cons.injEq]
      rw [unifyLists]
      split
      · next heq =>
        rw [heq] at h1
        exact .trans h1 (ih (by simpa using hlen)
          (fun a ha b hb => h a (by simp [ha]) b (by simp [hb])) h1.inv
          (fun a ha => (has a ha).mono h1.extend) fun b hb => (hbs b hb).mono h1.extend)
      · next heq =>
        rw [heq] at h1
        exact fun θ hθ hr hE => h1 θ hθ hr hE.1

theorem decides_unifyFields {fs gs : List (String × Ty)}
    (h : ∀ f ∈ fs, ∀ g ∈ gs, Solving vs n f.2 g.2) (hT : T.Inv vs)
    (hf : ∀ f ∈ fs, T.Ready vs 1 V f.2) (hg : ∀ g ∈ gs, T.Ready vs 1 W g.2)
    (hn : 2 * vs.length < n + V.card + W.card) :
    T.Decides vs (fun θ => ∀ f ∈ fs, ∃ u, Fields.get? f.1 gs = some u ∧ Equates f.2 u θ)
      (unifyFields n fs gs T) := by
  induction fs generalizing T with
  | nil =>
    rw [unifyFields]
    exact .ok_of_forall hT fun θ f hf => absurd hf (by simp)
  | cons f fs ih =>
    obtain ⟨name, t⟩ := f
    obtain ⟨ht, hf⟩ := List.forall_mem_cons.mp hf
    rw [unifyFields]
    split
    · next hnone =>
      refine decides_missingField fun θ _ _ hE => ?_
      obtain ⟨u, hu, -⟩ := hE (name, t) (by simp)
      rw [hnone] at hu
      simp at hu
    · next u hu =>
      have hmem := Fields.mem_of_get?_eq_some hu
      have h1 := h (name, t) (by simp) (name, u) hmem T 1 1 V W hT ht (hg _ hmem)
        (fun _ => one_pos) (fun _ => one_pos) hn
      have hhead : ∀ θ, (∃ u, Fields.get? name gs = some u ∧ Equates t u θ) ↔ Equates t u θ :=
        fun θ => by simp [hu]
      simp only [List.forall_mem_cons, hhead]
      dsimp only at h1 ⊢
      split
      · next heq =>
        rw [heq] at h1
        exact .trans h1 (ih (fun f hf => h f (by simp [hf])) h1.inv
          (fun f hm => (hf f hm).mono h1.extend) fun g hm => (hg g hm).mono h1.extend)
      · next heq =>
        rw [heq] at h1
        exact fun θ hθ hr hE => h1 θ hθ hr hE.1

/-- The equation between two records. -/
theorem equates_record_iff {fs gs : List (String × Ty)} (hf : Fields.Sorted fs)
    (hg : Fields.Sorted gs) {θ : TyVar → Ty} : Equates (.record fs) (.record gs) θ ↔
      (∀ f ∈ fs, ∃ u, Fields.get? f.1 gs = some u ∧ Equates f.2 u θ) ∧
        ∀ g ∈ gs, Fields.has g.1 fs = true := by
  let see (t : Ty) : Ty := t.erase.subst θ
  have hlists : Equates (.record fs) (.record gs) θ ↔
      (fs.map fun f => (f.1, see f.2)) = gs.map fun g => (g.1, see g.2) := by
    simp only [Equates, Ty.erase, Ty.subst, Ty.eraseFields_eq, Ty.substFields_eq, List.map_map,
      Ty.record.injEq]
    rfl
  rw [hlists]
  constructor
  · intro heq
    have hget : ∀ name, (Fields.get? name fs).map see = (Fields.get? name gs).map see := fun name => by
      rw [← Fields.get?_map, ← Fields.get?_map, heq]
    refine ⟨fun f hm => ?_, fun g hm => ?_⟩
    · have := hget f.1
      rw [Fields.get?_of_mem hf hm, Option.map_some] at this
      obtain ⟨u, hu, he⟩ := Option.map_eq_some_iff.mp this.symm
      exact ⟨u, hu, he.symm⟩
    · have := hget g.1
      rw [Fields.get?_of_mem hg hm, Option.map_some] at this
      obtain ⟨u, hu, -⟩ := Option.map_eq_some_iff.mp this
      simp [Fields.has, hu]
  · rintro ⟨hfs, hgs⟩
    refine Fields.ext_of_sorted (hf.map see) (hg.map see) fun name => ?_
    rw [Fields.get?_map, Fields.get?_map]
    cases hn : Fields.get? name fs with
    | some t =>
      obtain ⟨u, hu, he⟩ := hfs (name, t) (Fields.mem_of_get?_eq_some hn)
      rw [hu, Option.map_some, Option.map_some]
      exact congrArg some he
    | none =>
      cases hn' : Fields.get? name gs with
      | none => rfl
      | some u =>
        have := hgs (name, u) (Fields.mem_of_get?_eq_some hn')
        simp [Fields.has, hn] at this

/-- Two representatives, if smaller pairs of types can be trusted. -/
theorem decides_unifyForms
    (h : ∀ a' b', sizeOf a' + sizeOf b' < sizeOf a + sizeOf b → Solving vs n a' b')
    (hT : T.Inv vs) (ha : T.Ready vs 0 V a) (hb : T.Ready vs 0 W b) (hfa : T.binds a = false)
    (hfb : T.binds b = false) (hn : 2 * vs.length < n + V.card + W.card) :
    T.Decides vs (Equates a b) (unifyForms n a b T) := by
  have hpart : ∀ {c d}, c.Part a → d.Part b → Solving vs n c d := fun hc hd =>
    h _ _ (by have := hc.sizeOf_lt; have := hd.sizeOf_lt; omega)
  have hparts : ∀ {c d T'}, T'.Inv vs → T.Extends T' → c.Part a → d.Part b →
      T'.Decides vs (Equates c d) (unifyWithin n c d T') := fun hT' hext hc hd =>
    hpart hc hd _ 1 1 V W hT' ((ha.part hc).mono hext) ((hb.part hd).mono hext)
      (fun _ => one_pos) (fun _ => one_pos) hn
  have hext := (Same.refl T).extends
  rw [unifyForms.eq_def]
  split
  · -- a name attached to the expected type
    exact h _ _ (by simp) T 1 0 V W hT (ha.part .inner) hb (fun _ => one_pos)
      (fun hb => by simp [hfb] at hb) hn
  · exact h _ _ (by simp) T 0 1 V W hT ha (hb.part .inner) (fun ha => by simp [hfa] at ha)
      (fun _ => one_pos) hn
  · next v w =>
    -- two variables
    have hv := ha.written.vars v (by simp [Ty.vars])
    have hw := hb.written.vars w (by simp [Ty.vars])
    split
    · next hid =>
      obtain rfl := hT.eq_of_id hv hw hid
      exact .ok_of_forall hT fun θ => rfl
    · next hid =>
      split
      · next hr =>
        exact decides_bind hT hv (by simpa using hr) (isBound_eq_false.mp hfa) hb.written
          hb.unionFree (.inr ⟨w, rfl, isBound_eq_false.mp hfb, Ne.symm hid⟩)
      · next hrv =>
        split
        · next hr =>
          exact (decides_bind hT hw (by simpa using hr) (isBound_eq_false.mp hfb) ha.written
            ha.unionFree (.inr ⟨v, rfl, isBound_eq_false.mp hfa, hid⟩)).congr fun θ _ => eq_comm
        · next hrw =>
          refine decides_mismatch fun θ _ hfix hE => hid ?_
          have h1 := hfix v hv (by simpa using hrv)
          have h2 := hfix w hw (by simpa using hrw)
          have : Ty.var v = Ty.var w := h1.symm.trans (Eq.trans hE h2)
          exact congrArg TyVar.id (Ty.var.inj this)
  · exact hb.unionFree.elim
  · next v hb1 hb2 hb3 =>
    -- a variable and a form
    have hform : b.IsForm := by cases b <;> simp_all [Ty.IsForm]
    have hv := ha.written.vars v (by simp [Ty.vars])
    split
    · next hr =>
      exact decides_bind hT hv (by simpa using hr) (isBound_eq_false.mp hfa) hb.written
        hb.unionFree (.inl hform)
    · next hr =>
      refine decides_mismatch fun θ _ hfix hE => ?_
      exact hform.erase_subst_ne_var θ v (hE.symm.trans (hfix v hv (by simpa using hr)))
  · exact ha.unionFree.elim
  · next w ha1 ha2 ha3 =>
    have hform : a.IsForm := by cases a <;> simp_all [Ty.IsForm]
    have hw := hb.written.vars w (by simp [Ty.vars])
    split
    · next hr =>
      exact (decides_bind hT hw (by simpa using hr) (isBound_eq_false.mp hfb) ha.written
        ha.unionFree (.inl hform)).congr fun θ _ => eq_comm
    · next hr =>
      refine decides_mismatch fun θ _ hfix hE => ?_
      exact hform.erase_subst_ne_var θ w (hE.trans (hfix w hw (by simpa using hr)))
  · exact ha.unionFree.elim
  · exact hb.unionFree.elim
  · split
    · next heq => exact .ok_of_forall hT fun θ => by rw [heq]; rfl
    · next hne =>
      refine decides_mismatch fun θ _ _ hE => hne ?_
      simpa [Equates, Ty.erase, Ty.subst] using hE
  · refine (hparts hT hext .array .array).congr fun θ _ => ?_
    simp [Equates, Ty.erase, Ty.subst]
  · next ts us =>
    have hE : ∀ θ, Equates (.tuple ts) (.tuple us) θ ↔
        ts.map (·.erase.subst θ) = us.map (·.erase.subst θ) := fun θ => by
      simp [Equates, Ty.erase, Ty.subst, Function.comp_def]
    split
    · next hlen =>
      exact (decides_unifyLists hlen (fun t ht u hu => hpart (.tuple ht) (.tuple hu)) hT
        (fun t ht => ha.part (.tuple ht)) (fun u hu => hb.part (.tuple hu)) hn).congr
        fun θ _ => (hE θ).symm
    · next hlen =>
      intro θ _ _ hEq
      exact hlen (by simpa using congrArg List.length ((hE θ).mp hEq))
  · next fs gs =>
    have hE := fun θ => equates_record_iff (θ := θ) ha.written.tidy.1 hb.written.tidy.1
    have h1 := decides_unifyFields (fun f hf g hg => hpart (.record hf) (.record hg)) hT
      (fun f hf => ha.part (.record hf)) (fun g hg => hb.part (.record hg)) hn
    split
    · next heq =>
      rw [heq] at h1
      exact fun θ hθ hr hEq => h1 θ hθ hr ((hE θ).mp hEq).1
    · next heq =>
      rw [heq] at h1
      split
      · next g hg =>
        refine decides_missingField fun θ _ _ hEq => ?_
        have h2 := List.find?_some hg
        have h3 := ((hE θ).mp (by simpa using hEq)).2 g (List.mem_of_find?_eq_some hg)
        simp [h3] at h2
      · next hg =>
        refine Decides.congr h1 fun θ _ => ?_
        rw [hE, and_iff_left]
        intro g hm
        simpa using List.find?_eq_none.mp hg g hm
  · next ps r j qs s k =>
    have hE : ∀ θ, Equates (.fn ps r j) (.fn qs s k) θ ↔
        ps.map (·.erase.subst θ) = qs.map (·.erase.subst θ) ∧ Equates r s θ := fun θ => by
      simp [Equates, Ty.erase, Ty.subst, Function.comp_def]
    split
    · next hlen =>
      have h1 := decides_unifyLists hlen (fun t ht u hu => hpart (.param ht) (.param hu)) hT
        (fun t ht => ha.part (.param ht)) (fun u hu => hb.part (.param hu)) hn
      split
      · next heq =>
        rw [heq] at h1
        exact fun θ hθ hr hEq => h1 θ hθ hr ((hE θ).mp hEq).1
      · next heq =>
        rw [heq] at h1
        exact (Decides.trans h1 (hparts h1.inv h1.extend .result .result)).congr
          fun θ _ => (hE θ).symm
    · next hlen =>
      intro θ _ _ hEq
      exact hlen (by simpa using congrArg List.length ((hE θ).mp hEq).1)
  · next hfn =>
    -- two different forms
    refine decides_mismatch fun θ _ _ hE => ?_
    cases a <;> cases b <;>
      first
      | exact (hfn _ _ _ _ _ _ rfl rfl).elim
      | simp_all [Equates, Ty.erase, Ty.subst]

end recursion

theorem decides_unifyWithin (n : Nat) (a b : Ty) : Solving vs n a b := by
  intro T j k V W hT ha hb hj hk hn
  rw [unifyWithin.eq_def]
  split
  · next h =>
    match n with
    | 0 =>
      -- more variables would have been passed than there are
      have h1 := (Finset.card_le_card ha.passed).trans (List.toFinset_card_le vs)
      have h2 := (Finset.card_le_card hb.passed).trans (List.toFinset_card_le vs)
      omega
    | n + 1 =>
      have hra := resolve_spec hT ha.written
      have hrb := resolve_spec hra.1.inv hb.written
      obtain ⟨V', hV, ha'⟩ := ha.resolve hj (.refl hT)
      obtain ⟨W', hW, hb'⟩ := hb.resolve hk hra.1
      have hcard : V'.card + W'.card ≥ V.card + W.card + 1 := by
        rw [hV, hW]
        cases ha : T.binds a <;> simp_all <;> omega
      refine .of_agrees (hra.1.trans hrb.1) (.congr (decides_unifyForms
        (fun a' b' _ => decides_unifyWithin n a' b') hrb.1.inv (ha'.mono hrb.1.same.extends) hb'
        ((hrb.1.same.binds _).trans hra.2.2.2) hrb.2.2.2 (by omega)) fun θ hθ => ?_)
      have hS := hrb.1.same.solves_iff.mp hθ
      have h1 := (hra.1.same.solves_iff.mp hS).erase_eq hra.2.1 ha.written hra.2.2.1
      have h2 := hS.erase_eq hrb.2.1 hb.written hrb.2.2.1
      exact Eq.congr h1 h2
  · next h =>
    rw [Bool.or_eq_true, not_or, Bool.not_eq_true, Bool.not_eq_true] at h
    exact decides_unifyForms (fun a' b' _ => decides_unifyWithin n a' b') hT ha.weaken hb.weaken
      h.1 h.2 hn
termination_by (n, sizeOf a + sizeOf b)

/-! ## Unification -/

/-- Unification decides the equation between two types without unions. -/
theorem unify_decides (hT : T.Inv vs) {a b : Ty} (ha : a.Over vs) (hb : b.Over vs)
    (hfa : (T.deep a).UnionFree) (hfb : (T.deep b).UnionFree) :
    T.Decides vs (Equates a b) (T.unify a b) := by
  have hready : ∀ {t : Ty}, t.Over vs → (T.deep t).UnionFree → T.Ready vs 1 ∅ t := fun ht hf =>
    ⟨ht, hf, Finset.empty_subset _, fun x hx => absurd hx (Finset.notMem_empty x)⟩
  refine decides_unifyWithin _ a b T 1 1 ∅ ∅ hT (hready ha hfa) (hready hb hfb)
    (fun _ => one_pos) (fun _ => one_pos) ?_
  rw [hT.size]
  simp

/-- A substitution that moves unbound flexible variables only. -/
def Moves (T : Table) (σ : TyVar → Ty) : Prop :=
  ∀ v, σ v ≠ .var v → v.rigid = false ∧ T.isBound v.id = false

/-- The substitution makes the resolved types equal, up to attached names and implicit counts. -/
def Unifies (T : Table) (σ : TyVar → Ty) (a b : Ty) : Prop :=
  ((T.resolveDeep a).1.subst σ).erase = ((T.resolveDeep b).1.subst σ).erase

/-- Substitutions that unify are solutions of the table that solve the equation. -/
theorem Moves.solves (hT : T.Inv vs) {σ : TyVar → Ty} (hσ : T.Moves σ) :
    ∃ θ, T.Solves Ty.erase vs θ ∧ FixesRigid vs θ ∧
      (∀ v, T.binding? v.id = none → θ v = (σ v).erase) ∧
      ∀ t : Ty, t.Over vs → t.erase.subst θ = ((T.deep t).subst σ).erase := by
  let θ : TyVar → Ty := fun v => (T.deep (.var v)).erase.subst fun w => (σ w).erase
  have hsol : T.Solves Ty.erase vs θ := solves_subst_deep hT.acyclic Ty.natural_erase vs _
  have hθ : ∀ v, T.binding? v.id = none → θ v = (σ v).erase := fun v hv => by
    show (T.deep (.var v)).erase.subst _ = _
    rw [deep_var_of_unbound hv]
    rfl
  refine ⟨θ, hsol, fun v hv hr => ?_, hθ, fun t ht => ?_⟩
  · rw [hθ v (hT.now.rigid v hv hr)]
    by_cases hm : σ v = .var v
    · rw [hm]
      rfl
    · rw [(hσ v hm).1] at hr
      simp at hr
  · rw [← hsol.deep_eq Ty.natural_erase ht.vars, Ty.erase_subst]
    refine Ty.subst_congr fun w hw => ?_
    rw [Ty.vars_erase] at hw
    exact hθ w (unbound_of_mem_vars_deep hT.acyclic hw)

/-- What a table says, restricted to variables unbound in an older one, is a substitution that moves
flexible variables only. -/
theorem moves_deep (T : Table) (hT' : T'.Inv vs) :
    T.Moves fun v => if v ∈ vs ∧ T.binding? v.id = none then T'.deep (.var v) else .var v := by
  intro v hv
  dsimp only at hv
  split at hv
  · next h =>
    refine ⟨?_, isBound_eq_false.mpr h.2⟩
    rw [← Bool.not_eq_true]
    exact fun hr => hv (deep_var_of_unbound (hT'.now.rigid v h.1 hr))
  · exact absurd rfl hv

/-- **Unification is correct and most general.** In every table reached by the operations, for types
over its variables whose resolved forms are without unions, unification succeeds exactly when some
substitution of unbound flexible variables unifies them. Then their resolved forms are equal
afterwards, up to attached names and implicit counts, and every such substitution factors through the
new bindings: it sends an unbound variable to the same type as what the table now says of it. -/
theorem unify_most_general (hT : Reached vs T) {a b : Ty} (ha : a.Over vs) (hb : b.Over vs)
    (hfa : (T.resolveDeep a).1.UnionFree) (hfb : (T.resolveDeep b).1.UnionFree) :
    ((∃ T', T.unify a b = .ok () T') ↔ ∃ σ, T.Moves σ ∧ T.Unifies σ a b) ∧
    ∀ T', T.unify a b = .ok () T' →
      (T'.resolveDeep a).1.erase = (T'.resolveDeep b).1.erase ∧
      ∀ σ, T.Moves σ → T.Unifies σ a b → ∀ v ∈ vs, T.isBound v.id = false →
        ((T'.resolveDeep (.var v)).1.subst σ).erase = (σ v).erase := by
  have hI := hT.inv
  have hda := (resolveDeep_spec hI ha).1
  have hdb := (resolveDeep_spec hI hb).1
  rw [hda] at hfa
  rw [hdb] at hfb
  have hdec := unify_decides hI ha hb hfa hfb
  have hunifies : ∀ σ, T.Unifies σ a b ↔
      ((T.deep a).subst σ).erase = ((T.deep b).subst σ).erase := fun σ => by
    rw [Unifies, hda, hdb]
  -- what success means
  have hsucc : ∀ T', T.unify a b = .ok () T' → T.Succeeds vs (Equates a b) T' := fun T' hok => by
    rw [hok] at hdec
    exact hdec
  have hequal : ∀ T', T.unify a b = .ok () T' → (T'.deep a).erase = (T'.deep b).erase := by
    intro T' hok
    have hs := hsucc T' hok
    have hsol : T'.Solves Ty.erase vs fun v => (T'.deep (.var v)).erase.subst .var :=
      solves_subst_deep hs.inv.acyclic Ty.natural_erase vs _
    have := ((hs.solves _).mp hsol).2
    rw [deep_eq_subst a, deep_eq_subst b, Ty.erase_subst, Ty.erase_subst]
    simpa only [Equates, Ty.subst_var] using this
  refine ⟨⟨?_, ?_⟩, fun T' hok => ⟨?_, ?_⟩⟩
  · rintro ⟨T', hok⟩
    have hs := hsucc T' hok
    refine ⟨_, moves_deep T hs.inv, (hunifies _).mpr ?_⟩
    have hfactor : ∀ t : Ty, t.Over vs →
        (T.deep t).subst (fun v => if v ∈ vs ∧ T.binding? v.id = none then T'.deep (.var v)
          else .var v) = T'.deep t := fun t ht => by
      rw [← hs.extend.deep_deep hI.acyclic t, deep_eq_subst (T := T')]
      exact Ty.subst_congr fun v hv =>
        if_pos ⟨(hI.over_deep ht).vars v hv, unbound_of_mem_vars_deep hI.acyclic hv⟩
    rw [hfactor a ha, hfactor b hb]
    exact hequal T' hok
  · rintro ⟨σ, hσ, hu⟩
    obtain ⟨θ, hsol, hfix, -, hθ⟩ := hσ.solves hI
    cases hr : T.unify a b with
    | ok _ T' => exact ⟨T', rfl⟩
    | error e T' =>
      rw [hr] at hdec
      refine absurd ?_ (hdec θ hsol hfix)
      rw [Equates, hθ a ha, hθ b hb]
      exact (hunifies σ).mp hu
  · have hs := hsucc T' hok
    rw [(resolveDeep_spec hs.inv ha).1, (resolveDeep_spec hs.inv hb).1]
    exact hequal T' hok
  · intro σ hσ hu v hv hub
    have hs := hsucc T' hok
    obtain ⟨θ, hsol, -, hunb, hθ⟩ := hσ.solves hI
    have hE : Equates a b θ := by
      rw [Equates, hθ a ha, hθ b hb]
      exact (hunifies σ).mp hu
    have hsol' := (hs.solves θ).mpr ⟨hsol, hE⟩
    rw [(resolveDeep_spec hs.inv (.var hv)).1]
    calc ((T'.deep (.var v)).subst σ).erase
        = (T'.deep (.var v)).erase.subst fun w => (σ w).erase := Ty.erase_subst _ _
      _ = (T'.deep (.var v)).erase.subst θ := Ty.subst_congr fun w hw => by
          rw [Ty.vars_erase] at hw
          exact (hunb w (hs.extend.unbound _ (unbound_of_mem_vars_deep hs.inv.acyclic hw))).symm
      _ = θ v := (hsol' v hv).symm
      _ = (σ v).erase := hunb v (isBound_eq_false.mp hub)

/-- A function from `a` to `b` and one from arrays of `b` to numbers: `a` is bound first, to a type in
which `b` remains. -/
theorem unify_most_general_functions :
    let a : TyVar := ⟨0, "a", false, false⟩
    let b : TyVar := ⟨1, "b", false, false⟩
    let T := ((Table.empty.newVar "a" false false 0).2.newVar "b" false false 0).2
    ∃ T', T.unify (.fn [.var a] (.var b) 0) (.fn [.array (.var b)] .number 1) = .ok () T' := by
  intro a b T
  have hT : Reached [a, b] T := .newVar "b" false false 0 (.newVar "a" false false 0 .empty)
  have ha : (.fn [.var a] (.var b) 0 : Ty).Over [a, b] :=
    ⟨by simp [Ty.vars], by simp [Ty.Tidy]⟩
  have hb : (.fn [.array (.var b)] .number 1 : Ty).Over [a, b] :=
    ⟨by simp [Ty.vars, Ty.number], by simp [Ty.Tidy, Ty.number]⟩
  refine (unify_most_general hT ha hb ⟨⟨trivial, trivial⟩, trivial⟩ ⟨⟨trivial, trivial⟩, trivial⟩).1.mpr
    ⟨fun v => if v = a then .array .number else if v = b then .number else .var v, fun v hv => ?_, ?_⟩
  · by_cases h1 : v = a
    · rw [h1]
      exact ⟨rfl, rfl⟩
    · by_cases h2 : v = b
      · rw [h2]
        exact ⟨rfl, rfl⟩
      · simp [h1, h2] at hv
  · rfl

end Table

end Reified
