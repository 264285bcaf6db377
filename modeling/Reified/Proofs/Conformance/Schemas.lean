import Reified.Proofs.Conformance.Values
import Reified.Proofs.Table.Reflexive

/-!
# Types and what is found for their zero values

A type over unknown variables has a zero value, too: it is the unit value where there is a variable, and an array
without items where there is an array type. What is found for such a value has a variable of its own for each empty
array, and the name of the type of the unit value for each variable.

The type and what is found for its zero value unify. One and the same variable of the type may stand in several
places, so that it has been bound when it is met again. But it can have been bound in two ways only: to the type of
the unit value, or to a variable that was found for an empty array and is not going to be met any more. In both cases
it can still become the type of the unit value, and the variable of an empty array can be bound to whatever
the item type has become.

## Main definitions

* `Ty.Schema` — types over variables
* `Ty.ZeroTy` — what is found for the zero value of a type
* `Table.Loose` — what the variables of the type stand for on the way

## Main results

* `Table.Loose.unify` — **a type unifies with what is found for its zero value**
-/

namespace Reified

namespace Ty

/-- The type is made of the names that every program knows and of variables of a sort, with arrays, tuples, records,
unions and attached names. -/
inductive Schema (P : TyVar → Prop) : Ty → Prop
  | var {v : TyVar} (h : P v) : Schema P (.var v)
  | name {n : String} (h : isWellKnown n = true) : Schema P (.name n)
  | array {t : Ty} (h : Schema P t) : Schema P (.array t)
  | tuple {ts : List Ty} (h : ∀ t ∈ ts, Schema P t) : Schema P (.tuple ts)
  | record {fs : List (String × Ty)} (hs : Fields.Sorted fs) (h : ∀ f ∈ fs, Schema P f.2) : Schema P (.record fs)
  | union {l r : Ty} (hl : Schema P l) (hr : Schema P r) : Schema P (.union l r)
  | binding (n : String) {t : Ty} (h : Schema P t) : Schema P (.binding n t)

/-- What is found for the zero value of the first type is the second one. Of an empty array nothing is known, and of a
union it is the left member that has a zero value. -/
inductive ZeroTy : Ty → Ty → Prop
  | var (v : TyVar) : ZeroTy (.var v) .void
  | name (n : String) : ZeroTy (.name n) (.name n)
  | array (t : Ty) (w : TyVar) : ZeroTy (.array t) (.array (.var w))
  | tuple {ts us : List Ty} (hlength : ts.length = us.length) (h : ∀ p ∈ ts.zip us, ZeroTy p.1 p.2) :
      ZeroTy (.tuple ts) (.tuple us)
  | record {fs gs : List (String × Ty)} (hnames : Fields.names gs = Fields.names fs)
      (h : ∀ p ∈ fs.zip gs, ZeroTy p.1.2 p.2.2) : ZeroTy (.record fs) (.record gs)
  | left {l u : Ty} (r : Ty) (h : ZeroTy l u) : ZeroTy (.union l r) u
  | binding (n : String) {t u : Ty} (h : ZeroTy t u) : ZeroTy (.binding n t) u

variable {P : TyVar → Prop} {t u : Ty}

theorem Schema.of_mem_vars (h : t.Schema P) {v : TyVar} (hv : v ∈ t.vars) : P v := by
  induction h with
  | var h =>
    rw [vars, List.mem_singleton] at hv
    exact hv ▸ h
  | name _ => exact absurd hv List.not_mem_nil
  | array _ ih => exact ih hv
  | tuple _ ih =>
    rw [vars, varsList_eq, List.mem_flatMap] at hv
    obtain ⟨t, ht, hv⟩ := hv
    exact ih t ht hv
  | record _ _ ih =>
    rw [vars, varsFields_eq, List.mem_flatMap] at hv
    obtain ⟨f, hf, hv⟩ := hv
    exact ih f hf hv
  | union _ _ ihl ihr =>
    rw [vars, List.mem_append] at hv
    exact hv.elim ihl ihr
  | binding n _ ih => exact ih hv

/-- What is found for a value is neither a variable nor a union, and has no name attached to it. -/
theorem ZeroTy.union_meet (h : t.ZeroTy u) (l r : Ty) :
    u.IsForm ∧ (Ty.union l r).meet u = .either (l, u) (r, u) := by
  induction h with
  | left _ _ ih => exact ih
  | binding _ _ ih => exact ih
  | _ => exact ⟨trivial, rfl⟩

end Ty

/-! ## Records of the same fields -/

theorem Fields.length_eq_of_names_eq {α β : Type} {fs : Fields α} {gs : Fields β} (hnames : names gs = names fs) :
    gs.length = fs.length := by
  simpa only [names, List.length_map] using congrArg List.length hnames

section records

variable {fs gs : List (String × Ty)}

/-- Records of the same names are unified field by field. -/
theorem pairFields_of_names_eq (hs : Fields.Sorted gs) (hnames : Fields.names gs = Fields.names fs) :
    pairFields gs fs = ((fs.zip gs).map fun p => (p.1.2, p.2.2), none) := by
  -- by induction on the fields that are left, with all of the others to look them up in
  suffices key : ∀ es ds : List (String × Ty), Fields.names ds = Fields.names es → ds ⊆ gs →
      pairFields gs es = ((es.zip ds).map fun p => (p.1.2, p.2.2), none) from key fs gs hnames (List.Subset.refl gs)
  intro es
  induction es with
  | nil => exact fun ds _ _ => rfl
  | cons e es ih =>
    intro ds hnames hds
    cases ds with
    | nil => cases hnames
    | cons d ds =>
      obtain ⟨name, t⟩ := e
      obtain ⟨other, u⟩ := d
      obtain ⟨rfl, hrest⟩ := List.cons.inj hnames
      obtain ⟨hd, hds⟩ := List.cons_subset.mp hds
      rw [pairFields, Fields.get?_of_mem hs hd]
      dsimp only
      rw [ih ds hrest hds]
      rfl

theorem find?_missing_of_names_eq (hnames : Fields.names gs = Fields.names fs) :
    (gs.find? fun g => !Fields.has g.1 fs) = none := by
  rw [List.find?_eq_none]
  rintro ⟨name, u⟩ hg
  rw [← Fields.has_congr hnames]
  have hne : Fields.get? name gs ≠ none := fun hnone => Fields.get?_eq_none_iff.mp hnone _ hg rfl
  simp [Fields.has, Option.isSome_iff_ne_none.mpr hne]

end records

namespace Table

variable {P : TyVar → Prop} {T S : Table} {vs ws : List TyVar} {t u : Ty} {f v w : TyVar}

/-! ## Binding a variable -/

/-- A variable that does not remain in the type is bound to it, and this substitutes it. -/
theorem bind_substitutes (hT : T.Acyclic) (hv : T.binding? v.id = none) (hid : v.id < T.size)
    (ht : ¬ T.Reaches t v.id) : ∃ S, T.bind v t = .ok () S ∧ S.Acyclic ∧ S.size = T.size ∧
      (∀ u, S.deep u = (T.deep u).subst fun w => if w.id = v.id then T.deep t else .var w) ∧
      ∀ id, id ≠ v.id → (S.binding? id = none ↔ T.binding? id = none) := by
  obtain ⟨hiff, hsteady⟩ := checks_occurs hT v.id (T.level v.id) t
  unfold bind
  generalize T.occurs v.id (T.level v.id) t = r at hiff hsteady ⊢
  obtain ⟨b, S⟩ := r
  obtain rfl : b = false := by
    rw [← Bool.not_eq_true]
    exact fun hb => ht (hiff.mp hb)
  have hsame : T.Same S := hsteady.same
  have hS := hsteady.acyclic hT
  have hid' : v.id < S.size := hsame.size.symm ▸ hid
  have hv' := hsame.unbound_iff.mpr hv
  have ht' : ¬ S.Reaches t v.id := by rwa [Reaches, hsame.deep]
  refine ⟨_, rfl, hS.setBinding hid' hv' ht', (size_setBinding v.id t).trans hsame.size, fun u => ?_, fun id hne => ?_⟩
  · rw [deep_setBinding hS hid' hv' ht', hsame.deep, hsame.deep]
  · rw [binding?_setBinding hid', if_neg hne]
    exact hsame.unbound_iff

/-! ## What variables stand for -/

/-- The type is the one of the unit value, or a flexible variable that is not among the given ones. -/
def Ends (T : Table) (vs : List TyVar) (t : Ty) : Prop :=
  t = .void ∨ ∃ w : TyVar, t = .var w ∧ w.rigid = false ∧ w.id < T.size ∧ w.id ∉ vs.map (·.id)

/-- Of the given variables nothing is known, and those of the sort stand for the type of the unit value or for
variables that are not given. -/
structure Loose (P : TyVar → Prop) (vs : List TyVar) (T : Table) : Prop where
  acyclic : T.Acyclic
  unknown : T.Unknown vs
  known : ∀ v ∈ vs, v.id < T.size
  ends : ∀ v, P v → T.Ends vs (T.deep (.var v))

end Table

/-- The unification succeeds, and nothing is known about the given variables then. -/
def Unified.Loosens (P : TyVar → Prop) (vs : List TyVar) (r : Unified) : Prop :=
  ∃ S : Table, r = .ok () S ∧ S.Loose P vs

namespace Table

variable {P : TyVar → Prop} {T S : Table} {vs ws : List TyVar} {t u : Ty} {f v w : TyVar}

theorem Ends.sublist (h : T.Ends ws t) (hvs : vs.Sublist ws) (hsize : S.size = T.size) : S.Ends vs t := by
  rcases h with rfl | ⟨w, rfl, hflexible, hlt, hw⟩
  · exact .inl rfl
  · exact .inr ⟨w, rfl, hflexible, hsize.symm ▸ hlt, fun hmem => hw ((hvs.map _).subset hmem)⟩

namespace Loose

/-- Tables that say the same are loose alike. -/
theorem alike (h : T.Loose P vs) (halike : T.Alike S) : S.Loose P vs where
  acyclic := halike.acyclic'
  unknown := ⟨h.unknown.nodup, h.unknown.flexible, fun v hv => halike.unbound_iff.mpr (h.unknown.unbound v hv)⟩
  known v hv := halike.size.symm ▸ h.known v hv
  ends v hv := halike.deep _ ▸ (h.ends v hv).sublist (.refl vs) halike.size

/-- A variable is bound. All that has stood for it stands for the other type from then on. -/
theorem bind (h : T.Loose P vs) (hws : ws.Sublist vs) (hv : T.binding? v.id = none) (hid : v.id < T.size)
    (hv' : v.id ∉ ws.map (·.id)) (ht : ¬ T.Reaches t v.id)
    (hends : ∀ x, P x → (∃ w, T.deep (.var x) = .var w ∧ w.id = v.id) → T.Ends ws (T.deep t)) :
    (T.bind v t).Loosens P ws := by
  obtain ⟨S, hS, hacyclic, hsize, hdeep, hunbound⟩ := bind_substitutes h.acyclic hv hid ht
  refine ⟨S, hS, hacyclic, ⟨(h.unknown.sublist hws).nodup, (h.unknown.sublist hws).flexible, fun w hw => ?_⟩,
    fun w hw => hsize.symm ▸ h.known w (hws.subset hw), fun x hx => ?_⟩
  · have hne : w.id ≠ v.id := fun heq => hv' (heq ▸ List.mem_map_of_mem hw)
    exact (hunbound w.id hne).mpr (h.unknown.unbound w (hws.subset hw))
  · rw [hdeep]
    rcases h.ends x hx with hvoid | ⟨w, hw, hrest⟩
    · rw [hvoid]
      exact .inl rfl
    · rw [hw, Ty.subst]
      by_cases heq : w.id = v.id
      · rw [if_pos heq]
        exact (hends x hx ⟨w, hw, heq⟩).sublist (.refl ws) hsize
      · rw [if_neg heq]
        exact Ends.sublist (.inr ⟨w, rfl, hrest⟩) hws hsize

/-- A variable that something stands for is unbound. -/
theorem unbound (h : T.Loose P vs) (hw : T.deep (.var v) = .var w) : T.binding? w.id = none :=
  unbound_of_mem_vars_deep h.acyclic (t := .var v) (by rw [hw]; exact List.mem_singleton_self w)

/-- A given variable does not remain in a type of the sort. -/
theorem not_reaches (h : T.Loose P vs) (ht : t.Schema P) (hf : f ∈ vs) : ¬ T.Reaches t f.id := by
  rintro hreaches
  obtain ⟨v, hv, x, hx, hid⟩ := reaches_iff.mp hreaches
  rcases h.ends v (ht.of_mem_vars hv) with hvoid | ⟨w, hw, -, -, hnot⟩
  · rw [hvoid] at hx
    exact absurd hx List.not_mem_nil
  · rw [hw, Ty.vars, List.mem_singleton] at hx
    exact hnot (hx ▸ hid ▸ List.mem_map_of_mem hf)

/-- What is given first is not given again. -/
theorem head_notMem (h : T.Loose P (f :: vs)) : f.id ∉ vs.map (·.id) :=
  (List.nodup_cons.mp h.unknown.nodup).1

theorem binds_head (h : T.Loose P (f :: vs)) : T.binds (.var f) = false :=
  isBound_eq_false.mpr (h.unknown.unbound f List.mem_cons_self)

end Loose

end Table

/-- Results that agree leave the variables alike. -/
theorem Unified.Agrees.loosens {P : TyVar → Prop} {vs : List TyVar} {r r' : Unified} (h : r.Agrees r')
    (hr : r.Loosens P vs) : r'.Loosens P vs := by
  obtain ⟨S, rfl, hS⟩ := hr
  rcases h.cases with ⟨_, R, heq, rfl, halike⟩ | ⟨e, _, e', R, heq, rfl⟩
  · cases heq
    exact ⟨R, rfl, hS.alike halike⟩
  · cases heq

namespace Table

variable {P : TyVar → Prop} {T : Table} {vs : List TyVar} {t u : Ty} {f v w : TyVar}

/-! ## Unification -/

namespace Loose

/-- The variable of an empty array is bound to a type that is not a variable. -/
theorem bind_head (h : T.Loose P (f :: vs)) (ht : t.Schema P) (hmeet : t.meet (.var f) = .bind f t)
    (hbinds : T.binds t = false) : (T.unify t (.var f)).Loosens P vs := by
  rw [unify_of_binds_eq_false h.acyclic hbinds h.binds_head, hmeet, eval_bind]
  refine h.bind (List.sublist_cons_self f vs) (h.unknown.unbound f List.mem_cons_self)
    (h.known f List.mem_cons_self) h.head_notMem (h.not_reaches ht List.mem_cons_self) fun x hx ⟨w, hw, hid⟩ => ?_
  -- what stands for something is none of the given variables
  rcases h.ends x hx with hvoid | ⟨y, hy, -, -, hnot⟩
  · rw [hvoid] at hw
    cases hw
  · rw [hy] at hw
    cases hw
    exact absurd (hid ▸ List.mem_cons_self) hnot

/-- A variable that stands for something is bound to the variable of an empty array. -/
theorem bind_to_head (h : T.Loose P (f :: vs)) (hw : T.deep (.var v) = .var w) (hflexible : w.rigid = false)
    (hlt : w.id < T.size) (hnot : w.id ∉ (f :: vs).map (·.id)) : (T.unify (.var w) (.var f)).Loosens P vs := by
  have hunbound := h.unbound hw
  have hbinds : T.binds (.var w) = false := isBound_eq_false.mpr hunbound
  have hf := h.unknown.unbound f List.mem_cons_self
  have hne : w.id ≠ f.id := fun heq => hnot (heq ▸ List.mem_cons_self)
  have hmeet : (Ty.var w).meet (.var f) = .bind w (.var f) := by
    rw [Ty.meet, if_neg hne, hflexible]
    rfl
  rw [unify_of_binds_eq_false h.acyclic hbinds h.binds_head, hmeet, eval_bind]
  refine h.bind (List.sublist_cons_self f vs) hunbound hlt (fun hmem => hnot (List.mem_cons_of_mem _ hmem))
    (fun hreaches => hne.symm ((reaches_var_of_unbound hf).mp hreaches)) fun _ _ _ => .inr ⟨f, ?_⟩
  exact ⟨deep_var_of_unbound hf, h.unknown.flexible f List.mem_cons_self, h.known f List.mem_cons_self, h.head_notMem⟩

/-- **The variable of an empty array** unifies with the item type. -/
theorem unify_head (h : T.Loose P (f :: vs)) (ht : t.Schema P) : (T.unify t (.var f)).Loosens P vs := by
  have hflexible : f.rigid = false := h.unknown.flexible f List.mem_cons_self
  induction ht with
  | @var v hv =>
    have hagrees : (T.unify (T.deep (.var v)) (.var f)).Agrees (T.unify (.var v) (.var f)) :=
      unify_agrees (.refl h.acyclic) (deep_deep h.acyclic _).symm rfl
    refine hagrees.loosens ?_
    rcases h.ends v hv with hvoid | ⟨w, hw, hrest, hlt, hnot⟩
    · rw [hvoid]
      exact h.bind_head (.name rfl) (by simp [Ty.void, Ty.meet, hflexible]) rfl
    · rw [hw]
      exact h.bind_to_head hw hrest hlt hnot
  | binding n _ ih => exact (agrees_expected_binding h.acyclic n _ _).loosens ih
  | name hn => exact h.bind_head (.name hn) (by simp [Ty.meet, hflexible]) rfl
  | array ht _ => exact h.bind_head (.array ht) (by simp [Ty.meet, hflexible]) rfl
  | tuple hts _ => exact h.bind_head (.tuple hts) (by simp [Ty.meet, hflexible]) rfl
  | record hs hfs _ => exact h.bind_head (.record hs hfs) (by simp [Ty.meet, hflexible]) rfl
  | union hl hr _ _ => exact h.bind_head (.union hl hr) (by simp [Ty.meet, hflexible]) rfl

/-- A variable unifies with the type of the unit value. -/
theorem unify_void (h : T.Loose P vs) (hv : P v) : (T.unify (.var v) .void).Loosens P vs := by
  have hagrees : (T.unify (T.deep (.var v)) .void).Agrees (T.unify (.var v) .void) :=
    unify_agrees (.refl h.acyclic) (deep_deep h.acyclic _).symm rfl
  refine hagrees.loosens ?_
  rcases h.ends v hv with hvoid | ⟨w, hw, hflexible, hlt, hnot⟩
  · rw [hvoid, unify_of_binds_eq_false h.acyclic rfl rfl]
    exact ⟨T, rfl, h⟩
  · have hunbound := h.unbound hw
    have hbinds : T.binds (.var w) = false := isBound_eq_false.mpr hunbound
    have hmeet : (Ty.var w).meet .void = .bind w .void := by simp [Ty.void, Ty.meet, hflexible]
    rw [hw, unify_of_binds_eq_false h.acyclic hbinds rfl, hmeet, eval_bind]
    exact h.bind (.refl vs) hunbound hlt hnot (by rintro ⟨x, hx, -⟩; cases hx) fun _ _ _ => .inl rfl

/-- One pair after the other. -/
theorem unifyAll {ps : List (Ty × Ty)} (h : T.Loose P (ps.flatMap (·.2.vars) ++ vs))
    (hps : ∀ p ∈ ps, ∀ (ws : List TyVar) (S : Table), S.Loose P (p.2.vars ++ ws) → (S.unify p.1 p.2).Loosens P ws) :
    ((Table.unifyAll none ps T).eval unifies).Loosens P vs := by
  induction ps generalizing T with
  | nil => exact ⟨T, rfl, h⟩
  | cons p ps ih =>
    obtain ⟨hp, hps⟩ := List.forall_mem_cons.mp hps
    rw [List.flatMap_cons, List.append_assoc] at h
    obtain ⟨S, hS, hloose⟩ := hp _ T h
    rw [eval_cons, unifies, hS]
    exact ih hloose hps

/-- **A type unifies with what is found for its zero value.** -/
theorem unify (h : T.Loose P (u.vars ++ vs)) (ht : t.Schema P) (hu : t.ZeroTy u) : (T.unify t u).Loosens P vs := by
  induction ht generalizing u vs T with
  | var hv =>
    cases hu
    exact h.unify_void hv
  | name hn =>
    cases hu
    rw [unify_of_binds_eq_false h.acyclic rfl rfl, Ty.meet, if_pos rfl]
    exact ⟨T, rfl, h⟩
  | array ht _ =>
    cases hu
    rw [unify_of_binds_eq_false h.acyclic rfl rfl, Ty.meet, eval_one]
    exact h.unify_head ht
  | @tuple ts _ ih =>
    cases hu with
    | @tuple _ us hlength hus =>
      have hvars : (Ty.tuple us).vars = (ts.zip us).flatMap (·.2.vars) := by
        rw [Ty.vars, Ty.varsList_eq, ← List.flatMap_map Prod.snd Ty.vars, List.map_snd_zip hlength.ge]
      rw [hvars] at h
      rw [unify_of_binds_eq_false h.acyclic rfl rfl, Ty.meet, if_pos hlength]
      exact h.unifyAll fun p hp ws S hS => ih p.1 (List.of_mem_zip hp).1 hS (hus p hp)
  | @record fs hs _ ih =>
    cases hu with
    | @record _ gs hnames hgs =>
      have hlength := Fields.length_eq_of_names_eq hnames
      have hvars : (Ty.record gs).vars = ((fs.zip gs).map fun p => (p.1.2, p.2.2)).flatMap (·.2.vars) := by
        rw [List.flatMap_map, Ty.vars, Ty.varsFields_eq]
        conv_lhs => rw [← List.map_snd_zip hlength.le, List.flatMap_map]
      rw [hvars] at h
      rw [unify_of_binds_eq_false h.acyclic rfl rfl, Ty.meet, pairFields_of_names_eq (hs.of_names hnames) hnames,
        find?_missing_of_names_eq hnames]
      refine h.unifyAll fun p hp ws S hS => ?_
      obtain ⟨q, hq, rfl⟩ := List.mem_map.mp hp
      exact ih q.1 (List.of_mem_zip hq).1 hS (hgs q hq)
  | @union l r _ _ ihl _ =>
    cases hu with
    | left _ hu =>
      obtain ⟨hform, hmeet⟩ := hu.union_meet l r
      have hbinds : T.binds u = false := by
        cases u with
        | var v => exact hform.elim
        | _ => rfl
      have hsnapshot : T.Alike T.snapshot.2 := .of_entries_eq h.acyclic rfl
      obtain ⟨S, hS, hloose⟩ := ihl (h.alike hsnapshot) hu
      rw [unify_of_binds_eq_false h.acyclic rfl hbinds, hmeet, eval_either]
      dsimp only [unifies]
      rw [hS]
      exact ⟨S.commit, rfl, hloose.alike (Alike.refl hloose.acyclic).commit⟩
  | binding n _ ih =>
    cases hu with
    | binding _ hu => exact (agrees_expected_binding h.acyclic n _ _).loosens (ih h hu)

end Loose

end Table

end Reified
