import Reified.Proofs.Table.Resolve

/-!
# Unification keeps the invariant

The occurs check decides whether a variable remains in a resolved type and otherwise only lowers
levels, so a binding that passed it makes no cycle. Unification makes bindings in no other way: it
keeps the invariant of the table, whether it succeeds or not, and so does every operation.

## Main definitions

* `Unified.table` — the table that a unification leaves
* `Table.Outcomes` — relations that each step of a unification makes true, by whether it succeeds
* `Table.Stable` — a relation that each step of a unification makes true
* `Table.Reached` — the tables reached by the operations

## Main results

* `Table.occurs_spec`, `Table.bind_of_reaches`, `Table.bind_of_not_reaches` — the occurs check
* `Table.Outcomes.unify`, `Table.Stable.unify` — unification makes such relations true
* `Table.Inv.unify` — unification keeps the invariant
* `Table.Reached.inv` — every table that is reached has the invariant
-/

namespace Reified

/-- The table that a unification leaves, successful or not. -/
def Unified.table : Unified → Table
  | .ok _ T => T
  | .error _ T => T

@[simp] theorem Unified.table_ok (T : Table) : Unified.table (.ok () T) = T := rfl

@[simp] theorem Unified.table_error (e : TyError) (T : Table) : Unified.table (.error e T) = T := rfl

/-- What holds of the table that a unification leaves, by whether it succeeds. -/
def Unified.Leaves (ok fails : Table → Prop) : Unified → Prop
  | .ok _ T => ok T
  | .error _ T => fails T

theorem Unified.Leaves.imp {ok ok' fails fails' : Table → Prop} {r : Unified}
    (h : r.Leaves ok fails) (hok : ∀ {T}, ok T → ok' T) (hfails : ∀ {T}, fails T → fails' T) :
    r.Leaves ok' fails' := by
  cases r with
  | ok _ T => exact hok h
  | error e T => exact hfails h

theorem Unified.Leaves.and {ok fails P : Table → Prop} {r : Unified} (h : r.Leaves ok fails)
    (hP : P r.table) : r.Leaves (fun T => ok T ∧ P T) fun T => fails T ∧ P T := by
  cases r with
  | ok _ T => exact ⟨h, hP⟩
  | error e T => exact ⟨h, hP⟩

theorem Unified.leaves_self {P : Table → Prop} {r : Unified} : r.Leaves P P ↔ P r.table := by
  cases r <;> rfl

namespace Table

variable {vs : List TyVar} {T T' : Table}

/-! ## The occurs check -/

section occurs

variable {id level : Nat}

theorem lowerUntil_inv {within : Ty → Table → Bool × Table}
    (hwithin : ∀ t S, t.Over vs → S.Inv vs → (within t S).2.Inv vs) {ws : List TyVar}
    (hws : ∀ w ∈ ws, w ∈ vs) (hT : T.Inv vs) : (lowerUntil id level within ws T).2.Inv vs := by
  induction ws generalizing T with
  | nil => exact hT
  | cons v ws ih =>
    obtain ⟨hv, hws⟩ := List.forall_mem_cons.mp hws
    have hvr := represents_resolve hT hv
    rw [lowerUntil]
    generalize T.resolve (.var v) = r at hvr ⊢
    obtain ⟨u, S⟩ := r
    split
    · next w S heq =>
      obtain ⟨rfl, rfl⟩ := Prod.mk.inj heq
      have hw : w.id < S.size := hvr.inv.lt_size (hvr.written.vars w (by simp [Ty.vars]))
      split
      · exact hvr.inv
      · split
        · exact ih hws (hvr.inv.setLevel hw level)
        · exact ih hws hvr.inv
    · next t S hnot heq =>
      obtain ⟨rfl, rfl⟩ := Prod.mk.inj heq
      have hin := hwithin u S hvr.written hvr.inv
      split
      · next heq =>
        rw [heq] at hin
        exact hin
      · next heq =>
        rw [heq] at hin
        exact ih hws hin

theorem occursWithin_inv {n : Nat} {t : Ty} (ht : t.Over vs) (hT : T.Inv vs) :
    (occursWithin id level n t T).2.Inv vs := by
  induction n generalizing t T with
  | zero => exact hT
  | succ n ih => exact lowerUntil_inv (fun t S ht hS => ih ht hS) ht.vars hT

/-- The occurs check keeps the invariant. -/
theorem occurs_spec (hT : T.Inv vs) (id level : Nat) {t : Ty} (ht : t.Over vs) :
    ((T.occurs id level t).1 = true ↔ T.Reaches t id) ∧ T.Agrees vs (T.occurs id level t).2 := by
  obtain ⟨hiff, hsteady⟩ := checks_occurs hT.acyclic id level t
  exact ⟨hiff, occursWithin_inv ht hT, hsteady.same⟩

end occurs

/-! ## Binding a variable -/

/-- A failure leaves a table that agrees with the one before. -/
theorem mismatch_spec (hT : T.Inv vs) {a b : Ty} (ha : a.Over vs) (hb : b.Over vs) :
    ∃ e T', T.mismatch a b = .error e T' ∧ T.Agrees vs T' := by
  have h1 := (resolveDeep_spec hT ha).2
  have h2 := (resolveDeep_spec h1.inv hb).2
  exact ⟨_, _, rfl, h1.trans h2⟩

theorem missingField_spec (hT : T.Inv vs) (field : String) {a : Ty} (ha : a.Over vs) :
    ∃ e T', T.missingField field a = .error e T' ∧ T.Agrees vs T' :=
  ⟨_, _, rfl, (resolveDeep_spec hT ha).2⟩

theorem bind_of_reaches (hT : T.Inv vs) {v : TyVar} {t : Ty} (ht : t.Over vs)
    (h : T.Reaches t v.id) : ∃ e T', T.bind v t = .error e T' ∧ T.Agrees vs T' := by
  obtain ⟨h1, h2⟩ := occurs_spec hT v.id (T.level v.id) ht
  unfold bind
  generalize T.occurs v.id (T.level v.id) t = r at h1 h2 ⊢
  obtain ⟨b, S⟩ := r
  obtain rfl : b = true := h1.mpr h
  exact ⟨_, _, rfl, h2.trans (resolveDeep_spec h2.inv ht).2⟩

/-- A flexible variable that does not remain in the type is bound to it, in a table that agrees with
the one before. -/
theorem bind_of_not_reaches (hT : T.Inv vs) {v : TyVar} {t : Ty} (ht : t.Over vs)
    (h : ¬ T.Reaches t v.id) : ∃ S, T.bind v t = .ok () (S.setBinding v.id t) ∧ T.Agrees vs S := by
  obtain ⟨h1, h2⟩ := occurs_spec hT v.id (T.level v.id) ht
  unfold bind
  generalize T.occurs v.id (T.level v.id) t = r at h1 h2 ⊢
  obtain ⟨b, S⟩ := r
  obtain rfl : b = false := by
    rw [← Bool.not_eq_true]
    exact fun hb => h (h1.mp hb)
  exact ⟨S, rfl, h2⟩

/-- The invariant after a new binding. -/
theorem Agrees.inv_setBinding (h : T.Agrees vs T') {v : TyVar} (hv : v ∈ vs)
    (hr : v.rigid = false) (hu : T.binding? v.id = none) {t : Ty} (ht : t.Over vs)
    (hreach : ¬ T.Reaches t v.id) : (T'.setBinding v.id t).Inv vs := by
  have hid := h.inv.lt_size hv
  refine h.inv.setBinding hid ⟨fun w u hw => ?_, fun w hw hwr => ?_, ?_⟩
  · rw [binding?_setBinding hid] at hw
    by_cases hwv : w = v.id
    · rw [if_pos hwv, Option.some.injEq] at hw
      exact hw ▸ ht
    · exact h.inv.now.written w u (by simpa [hwv] using hw)
  · rw [binding?_setBinding hid, if_neg fun hid => ?_]
    · exact h.inv.now.rigid w hw hwr
    · rw [h.inv.eq_of_id hw hv hid] at hwr
      simp [hr] at hwr
  · refine h.inv.acyclic.setBinding hid (h.same.unbound_iff.mpr hu) ?_
    rw [Reaches, h.same.deep]
    exact hreach

theorem Inv.bind (hT : T.Inv vs) {v : TyVar} (hv : v ∈ vs) (hr : v.rigid = false)
    (hu : T.binding? v.id = none) {t : Ty} (ht : t.Over vs) : (T.bind v t).table.Inv vs := by
  by_cases h : T.Reaches t v.id
  · obtain ⟨e, S, he, hS⟩ := bind_of_reaches hT ht h
    rw [he]
    exact hS.inv
  · obtain ⟨S, hok, hS⟩ := bind_of_not_reaches hT ht h
    rw [hok]
    exact hS.inv_setBinding hv hr hu ht h

/-! ## Unification -/

theorem Inv.mismatch (hT : T.Inv vs) {a b : Ty} (ha : a.Over vs) (hb : b.Over vs) :
    (T.mismatch a b).table.Inv vs := by
  obtain ⟨e, S, he, hS⟩ := mismatch_spec hT ha hb
  rw [he]
  exact hS.inv

theorem Inv.missingField (hT : T.Inv vs) (field : String) {a : Ty} (ha : a.Over vs) :
    (T.missingField field a).table.Inv vs := by
  obtain ⟨e, S, he, hS⟩ := missingField_spec hT field ha
  rw [he]
  exact hS.inv

/-- Relations between tables that every step of a unification makes true of the table before and the
table after it, `ok` if it succeeds and `fails` if it fails, as long as the tables satisfy a predicate, and
given types of a kind that passes to parts; `final` is what is known of representatives. What a member of
a union did before it failed is undone, so the table that the other one starts from is as after a
success. -/
structure Outcomes (keep : Table → Prop) (ok fails : Table → Table → Prop) (kind : Ty → Prop)
    (final : Table → Ty → Prop) : Prop where
  part : ∀ {c t}, c.Part t → kind t → kind c
  keeps : ∀ {T T'}, keep T → fails T T' → keep T'
  weaken : ∀ {T T'}, ok T T' → fails T T'
  refl : ∀ {T}, keep T → ok T T
  trans : ∀ {T₁ T₂ T₃}, ok T₁ T₂ → ok T₂ T₃ → ok T₁ T₃
  trans_fails : ∀ {T₁ T₂ T₃}, fails T₁ T₂ → fails T₂ T₃ → fails T₁ T₃
  snapshot : ∀ {T}, keep T → keep T.snapshot.2
  rollback : ∀ {T T'}, keep T → fails T.snapshot.2 T' → ok T (T'.rollback T.snapshot.1)
  commit : ∀ {T T'}, keep T → ok T.snapshot.2 T' → ok T T'.commit
  unbound : ∀ {T t}, T.binds t = false → final T t
  resolve : ∀ {T a}, keep T → kind a → kind (T.resolve a).1 ∧ ok T (T.resolve a).2
  resolve_final : ∀ {T a b}, keep T → kind a → kind b →
    final ((T.resolve a).2.resolve b).2 (T.resolve a).1 ∧
      final ((T.resolve a).2.resolve b).2 ((T.resolve a).2.resolve b).1
  mismatch : ∀ {T a b}, keep T → kind a → kind b → fails T (T.mismatch a b).table
  missingField : ∀ {T a} (field : String), keep T → kind a → fails T (T.missingField field a).table
  bind : ∀ {T v t}, keep T → kind (.var v) → final T (.var v) → v.rigid = false → kind t →
    (T.bind v t).Leaves (ok T) (fails T)

namespace Outcomes

variable {keep : Table → Prop} {ok fails : Table → Table → Prop} {kind : Ty → Prop}
  {final : Table → Ty → Prop} {n : Nat} {a b : Ty} {r : Unified}

/-- Unifying the two types makes the relations true, through at most `n` bindings on each path. -/
def Keeps (keep : Table → Prop) (ok fails : Table → Table → Prop) (kind : Ty → Prop) (n : Nat)
    (a b : Ty) : Prop :=
  ∀ T : Table, keep T → kind a → kind b → (unifyWithin n a b T).Leaves (ok T) (fails T)

/-- A success followed by a further unification. -/
theorem after (hk : Outcomes keep ok fails kind final) (h : ok T T')
    (hr : r.Leaves (ok T') (fails T')) : r.Leaves (ok T) (fails T) :=
  hr.imp (hk.trans h) (hk.trans_fails (hk.weaken h))

theorem unifyLists (hk : Outcomes keep ok fails kind final) {as bs : List Ty}
    (h : ∀ a ∈ as, ∀ b ∈ bs, Keeps keep ok fails kind n a b) (ha : ∀ a ∈ as, kind a)
    (hb : ∀ b ∈ bs, kind b) (hT : keep T) : (unifyLists n as bs T).Leaves (ok T) (fails T) := by
  induction as generalizing bs T with
  | nil => rw [unifyLists.eq_def]; exact hk.refl hT
  | cons a as ih =>
    cases bs with
    | nil => rw [unifyLists.eq_def]; exact hk.refl hT
    | cons b bs =>
      obtain ⟨ha, has⟩ := List.forall_mem_cons.mp ha
      obtain ⟨hb, hbs⟩ := List.forall_mem_cons.mp hb
      have h1 := h a (by simp) b (by simp) T hT ha hb
      rw [Table.unifyLists]
      split
      · next heq =>
        rw [heq] at h1
        exact hk.after h1 (ih (fun a ha b hb => h a (by simp [ha]) b (by simp [hb])) has hbs
          (hk.keeps hT (hk.weaken h1)))
      · next heq => rwa [heq] at h1

theorem unifyFields (hk : Outcomes keep ok fails kind final) {fs gs : List (String × Ty)}
    (h : ∀ f ∈ fs, ∀ g ∈ gs, Keeps keep ok fails kind n f.2 g.2) (hf : ∀ f ∈ fs, kind f.2)
    (hg : kind (.record gs)) (hT : keep T) : (unifyFields n fs gs T).Leaves (ok T) (fails T) := by
  induction fs generalizing T with
  | nil => rw [Table.unifyFields]; exact hk.refl hT
  | cons f fs ih =>
    obtain ⟨name, t⟩ := f
    obtain ⟨ht, hf⟩ := List.forall_mem_cons.mp hf
    rw [Table.unifyFields]
    split
    · exact hk.missingField name hT hg
    · next u hu =>
      have hmem := Fields.mem_of_get?_eq_some hu
      have h1 := h (name, t) (by simp) (name, u) hmem T hT ht (hk.part (.record hmem) hg)
      dsimp only at h1 ⊢
      split
      · next heq =>
        rw [heq] at h1
        exact hk.after h1 (ih (fun f hf => h f (by simp [hf])) hf (hk.keeps hT (hk.weaken h1)))
      · next heq => rwa [heq] at h1

theorem unifyExpectedUnion (hk : Outcomes keep ok fails kind final) {l r : Ty}
    (hl : Keeps keep ok fails kind n l b) (hr : Keeps keep ok fails kind n r b)
    (ha : kind (.union l r)) (hb : kind b) (hT : keep T) :
    (unifyExpectedUnion n l r b T).Leaves (ok T) (fails T) := by
  rw [Table.unifyExpectedUnion]
  have h1 := hl _ (hk.snapshot hT) (hk.part .left ha) hb
  dsimp only
  split
  · next heq =>
    rw [heq] at h1
    exact hk.commit hT h1
  · next heq =>
    rw [heq] at h1
    have hback := hk.rollback hT h1
    have hkeep := hk.keeps hT (hk.weaken hback)
    have h2 := hk.after hback (hr _ hkeep (hk.part .right ha) hb)
    split
    · next heq => rwa [heq] at h2
    · next heq =>
      rw [heq] at h2
      exact hk.trans_fails h2 (hk.mismatch (hk.keeps hT h2) ha hb)

theorem unifyFoundUnion (hk : Outcomes keep ok fails kind final) {l r : Ty}
    (hl : Keeps keep ok fails kind n a l) (hr : Keeps keep ok fails kind n a r) (ha : kind a)
    (hb : kind (.union l r)) (hT : keep T) :
    (unifyFoundUnion n a l r T).Leaves (ok T) (fails T) := by
  rw [Table.unifyFoundUnion]
  have h1 := hl _ (hk.snapshot hT) ha (hk.part .left hb)
  dsimp only
  split
  · next heq =>
    rw [heq] at h1
    exact hk.commit hT h1
  · next heq =>
    rw [heq] at h1
    have hback := hk.rollback hT h1
    have hkeep := hk.keeps hT (hk.weaken hback)
    have h2 := hk.after hback (hr _ hkeep ha (hk.part .right hb))
    split
    · next heq => rwa [heq] at h2
    · next heq =>
      rw [heq] at h2
      exact hk.trans_fails h2 (hk.mismatch (hk.keeps hT h2) ha hb)

/-- Two representatives, if smaller pairs of types can be trusted. -/
theorem unifyForms (hk : Outcomes keep ok fails kind final)
    (h : ∀ a' b', sizeOf a' + sizeOf b' < sizeOf a + sizeOf b → Keeps keep ok fails kind n a' b')
    (hT : keep T) (ha : kind a) (hb : kind b) (hfa : final T a) (hfb : final T b) :
    (unifyForms n a b T).Leaves (ok T) (fails T) := by
  have hparts : ∀ {c d}, c.Part a → d.Part b → Keeps keep ok fails kind n c d := fun hc hd =>
    h _ _ (Nat.add_lt_add hc.sizeOf_lt hd.sizeOf_lt)
  have hleft : ∀ {c}, c.Part a → Keeps keep ok fails kind n c b := fun hc =>
    h _ _ (Nat.add_lt_add_right hc.sizeOf_lt _)
  have hright : ∀ {d}, d.Part b → Keeps keep ok fails kind n a d := fun hd =>
    h _ _ (Nat.add_lt_add_left hd.sizeOf_lt _)
  have hbind : ∀ {v t}, kind (.var v) → final T (.var v) → kind t → (!v.rigid) = true →
      (T.bind v t).Leaves (ok T) (fails T) := fun hv hf ht hr =>
    hk.bind hT hv hf (by simpa using hr) ht
  have hstop := hk.weaken (hk.refl hT)
  rw [Table.unifyForms.eq_def]
  split
  · exact hleft .inner T hT (hk.part .inner ha) hb
  · exact hright .inner T hT ha (hk.part .inner hb)
  · split
    · exact hk.refl hT
    · split
      · next hr => exact hbind ha hfa hb hr
      · split
        · next hr => exact hbind hb hfb ha hr
        · exact hk.mismatch hT ha hb
  · split
    · next hr => exact hbind ha hfa hb hr
    · exact hk.unifyFoundUnion (hright .left) (hright .right) ha hb hT
  · split
    · next hr => exact hbind ha hfa hb hr
    · exact hk.mismatch hT ha hb
  · split
    · next hr => exact hbind hb hfb ha hr
    · exact hk.unifyExpectedUnion (hleft .left) (hleft .right) ha hb hT
  · split
    · next hr => exact hbind hb hfb ha hr
    · exact hk.mismatch hT ha hb
  · exact hk.unifyExpectedUnion (hleft .left) (hleft .right) ha hb hT
  · exact hk.unifyFoundUnion (hright .left) (hright .right) ha hb hT
  · split
    · exact hk.refl hT
    · exact hk.mismatch hT ha hb
  · exact hparts .array .array T hT (hk.part .array ha) (hk.part .array hb)
  · split
    · exact hk.unifyLists (fun _ hc _ hd => hparts (.tuple hc) (.tuple hd))
        (fun _ hc => hk.part (.tuple hc) ha) (fun _ hd => hk.part (.tuple hd) hb) hT
    · exact hstop
  · have h1 := hk.unifyFields (fun _ hf _ hg => hparts (.record hf) (.record hg))
      (fun _ hf => hk.part (.record hf) ha) hb hT
    split
    · next heq => rwa [heq] at h1
    · next heq =>
      rw [heq] at h1
      split
      · next g _ =>
        have hkeep := hk.keeps hT (hk.weaken h1)
        exact hk.trans_fails (hk.weaken h1) (hk.missingField g.1 hkeep ha)
      · exact h1
  · split
    · have h1 := hk.unifyLists (fun _ hc _ hd => hparts (.param hc) (.param hd))
        (fun _ hc => hk.part (.param hc) ha) (fun _ hd => hk.part (.param hd) hb) hT
      split
      · next heq => rwa [heq] at h1
      · next heq =>
        rw [heq] at h1
        exact hk.after h1 (hparts .result .result _ (hk.keeps hT (hk.weaken h1)) (hk.part .result ha)
          (hk.part .result hb))
    · exact hstop
  · exact hk.mismatch hT ha hb

theorem unifyWithin (hk : Outcomes keep ok fails kind final) (n : Nat) (a b : Ty) :
    Keeps keep ok fails kind n a b := by
  intro T hT ha hb
  rw [Table.unifyWithin.eq_def]
  split
  · match n with
    | 0 => exact hk.mismatch hT ha hb
    | n + 1 =>
      obtain ⟨ha', h₁⟩ := hk.resolve hT ha
      obtain ⟨hb', h₂⟩ := hk.resolve (hk.keeps hT (hk.weaken h₁)) hb
      obtain ⟨hfa, hfb⟩ := hk.resolve_final hT ha hb
      have h₁₂ := hk.trans h₁ h₂
      exact hk.after h₁₂ (hk.unifyForms (fun a' b' _ => hk.unifyWithin n a' b')
        (hk.keeps hT (hk.weaken h₁₂)) ha' hb' hfa hfb)
  · next h =>
    rw [Bool.or_eq_true, not_or, Bool.not_eq_true, Bool.not_eq_true] at h
    exact hk.unifyForms (fun a' b' _ => hk.unifyWithin n a' b') hT ha hb (hk.unbound h.1)
      (hk.unbound h.2)
termination_by (n, sizeOf a + sizeOf b)

/-- **Unification makes true what each of its steps makes true**, by whether it succeeds. -/
theorem unify (hk : Outcomes keep ok fails kind final) (hT : keep T) (ha : kind a) (hb : kind b) :
    (T.unify a b).Leaves (ok T) (fails T) :=
  hk.unifyWithin _ _ _ T hT ha hb

end Outcomes

/-- A relation between tables that every step of a unification makes true, whether it succeeds or
not. -/
structure Stable (keep : Table → Prop) (step : Table → Table → Prop) (kind : Ty → Prop)
    (final : Table → Ty → Prop) : Prop where
  part : ∀ {c t}, c.Part t → kind t → kind c
  keeps : ∀ {T T'}, keep T → step T T' → keep T'
  refl : ∀ {T}, keep T → step T T
  trans : ∀ {T₁ T₂ T₃}, step T₁ T₂ → step T₂ T₃ → step T₁ T₃
  snapshot : ∀ {T}, keep T → keep T.snapshot.2
  rollback : ∀ {T T'}, keep T → step T.snapshot.2 T' → step T (T'.rollback T.snapshot.1)
  commit : ∀ {T T'}, keep T → step T.snapshot.2 T' → step T T'.commit
  unbound : ∀ {T t}, T.binds t = false → final T t
  resolve : ∀ {T a}, keep T → kind a → kind (T.resolve a).1 ∧ step T (T.resolve a).2
  resolve_final : ∀ {T a b}, keep T → kind a → kind b →
    final ((T.resolve a).2.resolve b).2 (T.resolve a).1 ∧
      final ((T.resolve a).2.resolve b).2 ((T.resolve a).2.resolve b).1
  mismatch : ∀ {T a b}, keep T → kind a → kind b → step T (T.mismatch a b).table
  missingField : ∀ {T a} (field : String), keep T → kind a → step T (T.missingField field a).table
  bind : ∀ {T v t}, keep T → kind (.var v) → final T (.var v) → v.rigid = false → kind t →
    step T (T.bind v t).table

namespace Stable

variable {keep : Table → Prop} {step : Table → Table → Prop} {kind : Ty → Prop}
  {final : Table → Ty → Prop} {a b : Ty}

theorem outcomes (hk : Stable keep step kind final) : Outcomes keep step step kind final where
  part := hk.part
  keeps := hk.keeps
  weaken h := h
  refl := hk.refl
  trans := hk.trans
  trans_fails := hk.trans
  snapshot := hk.snapshot
  rollback := hk.rollback
  commit := hk.commit
  unbound := hk.unbound
  resolve := hk.resolve
  resolve_final := hk.resolve_final
  mismatch := hk.mismatch
  missingField := hk.missingField
  bind hT hv hf hr ht := Unified.leaves_self.mpr (hk.bind hT hv hf hr ht)

/-- **Unification makes true what each of its steps makes true**, whether it succeeds or not. -/
theorem unify (hk : Stable keep step kind final) (hT : keep T) (ha : kind a) (hb : kind b) :
    step T (T.unify a b).table :=
  Unified.leaves_self.mp (hk.outcomes.unify hT ha hb)

end Stable

theorem stable_inv (vs : List TyVar) :
    Stable (·.Inv vs) (fun _ T => T.Inv vs) (·.Over vs) fun T t => T.binds t = false where
  part hc ht := ht.part hc
  keeps _ h := h
  refl h := h
  trans _ h := h
  snapshot h := h.snapshot
  rollback _ h := h.rollback _
  commit _ h := h.commit
  unbound h := h
  resolve hT ha := ⟨(resolve_spec hT ha).2.1, (resolve_spec hT ha).1.inv⟩
  resolve_final hT ha hb := by
    obtain ⟨h₁, -, -, hf₁⟩ := resolve_spec hT ha
    obtain ⟨h₂, -, -, hf₂⟩ := resolve_spec h₁.inv hb
    exact ⟨(h₂.same.binds _).trans hf₁, hf₂⟩
  mismatch hT ha hb := hT.mismatch ha hb
  missingField field hT ha := hT.missingField field ha
  bind hT hv hf hr ht := hT.bind (hv.vars _ (by simp [Ty.vars])) hr (isBound_eq_false.mp hf) ht

/-- **Unification keeps the invariant**, whether it succeeds or not. -/
theorem Inv.unify (hT : T.Inv vs) {a b : Ty} (ha : a.Over vs) (hb : b.Over vs) :
    (T.unify a b).table.Inv vs :=
  (stable_inv vs).unify hT ha hb

/-! ## Reached tables -/

/-- The tables that the operations reach, each with the variables created on the way. Types are over
the variables that exist when they are used; a snapshot to go back to may be any. -/
inductive Reached : List TyVar → Table → Prop where
  | empty : Reached [] .empty
  | newVar {vs : List TyVar} {T : Table} (name : String) (inferred rigid : Bool) (level : Nat) : Reached vs T →
    Reached (vs ++ [(T.newVar name inferred rigid level).1]) (T.newVar name inferred rigid level).2
  | generalize {vs : List TyVar} {T : Table} (id : Nat) : Reached vs T → Reached vs (T.generalize id)
  | snapshot {vs : List TyVar} {T : Table} : Reached vs T → Reached vs T.snapshot.2
  | rollback {vs : List TyVar} {T : Table} (s : Snapshot) : Reached vs T → Reached vs (T.rollback s)
  | commit {vs : List TyVar} {T : Table} : Reached vs T → Reached vs T.commit
  | resolve {vs : List TyVar} {T : Table} {t : Ty} : Reached vs T → t.Over vs → Reached vs (T.resolve t).2
  | resolveDeep {vs : List TyVar} {T : Table} {t : Ty} : Reached vs T → t.Over vs → Reached vs (T.resolveDeep t).2
  | instantiate {vs : List TyVar} {T : Table} {t : Ty} (level : Nat) : Reached vs T → t.Over vs →
    Reached (vs ++ (T.instantiate t level).2.1) (T.instantiate t level).2.2
  | substitute {vs : List TyVar} {T : Table} {t : Ty} (image : List (Nat × Ty)) : Reached vs T → t.Over vs →
    Reached vs (T.substitute t image).2
  | unify {vs : List TyVar} {T : Table} {a b : Ty} : Reached vs T → a.Over vs → b.Over vs →
    Reached vs (T.unify a b).table

theorem Inv.empty : Table.empty.Inv [] where
  size := rfl
  id i h := absurd h (Nat.not_lt_zero _)
  quiet _ := rfl
  trail u hu := by simp [Table.empty] at hu
  sound n := by
    rw [undoLast_of_empty rfl]
    have hnone : ∀ id, Table.empty.binding? id = none := fun id =>
      binding?_of_size_le (Nat.zero_le id)
    refine ⟨fun id t ht => ?_, fun v hv => by simp at hv, fun _ => 0, fun v t ht => ?_⟩
    · rw [hnone] at ht
      simp at ht
    · rw [hnone] at ht
      simp at ht

/-- **Every table that is reached has the invariant.** -/
theorem Reached.inv (h : Reached vs T) : T.Inv vs := by
  induction h with
  | empty => exact .empty
  | newVar name inferred rigid level _ ih => exact ih.newVar name inferred rigid level
  | generalize id _ ih => exact ih.generalize id
  | snapshot _ ih => exact ih.snapshot
  | rollback s _ ih => exact ih.rollback s
  | commit _ ih => exact ih.commit
  | resolve _ ht ih => exact (resolve_spec ih ht).1.inv
  | resolveDeep _ ht ih => exact (resolveDeep_spec ih ht).2.inv
  | instantiate level _ ht ih => exact ih.instantiate ht level
  | substitute image _ ht ih => exact ih.substitute ht image
  | unify _ ha hb ih => exact ih.unify ha hb

end Table

end Reified
