import Reified.Proofs.Table.Recursion

/-!
# A union is tried left first

Trying the members of a union leaves no trace but in the trail and in shortcuts. Tables that differ in nothing
else say the same of all types and know the same levels, and nothing that a unification does depends on more:
types that stand for the same are unified alike in such tables. So an attempt that follows another one that
failed goes as if it were made at once.

## Main definitions

* `Table.Alike` — two tables that say the same and know the same levels
* `Meeting.map` — what is to be done with other types
* `Unified.Agrees` — two results: both are failures, or they leave such tables
* `Unified.orElse`, `Unified.Chooses` — the result of a first attempt, or else of a second one

## Main results

* `Ty.meet_deep` — what representatives stand for meets as they do
* `Table.unify_agrees` — **types that stand for the same are unified alike**
* `Table.union_tried_left_first` — the members of a union
-/

namespace Reified

namespace Table

variable {T S : Table}

/-! ## Tables that say the same -/

/-- Two tables that say the same of every type and know the same levels. -/
structure Alike (T S : Table) : Prop where
  acyclic : T.Acyclic
  acyclic' : S.Acyclic
  size : S.size = T.size
  isBound : ∀ id, S.isBound id = T.isBound id
  deep : ∀ t, S.deep t = T.deep t
  level : ∀ id, S.level id = T.level id

namespace Alike

theorem refl (hT : T.Acyclic) : T.Alike T :=
  ⟨hT, hT, rfl, fun _ => rfl, fun _ => rfl, fun _ => rfl⟩

theorem symm (h : T.Alike S) : S.Alike T :=
  ⟨h.acyclic', h.acyclic, h.size.symm, fun id => (h.isBound id).symm, fun t => (h.deep t).symm,
    fun id => (h.level id).symm⟩

theorem trans {R : Table} (h : T.Alike S) (h' : S.Alike R) : T.Alike R :=
  ⟨h.acyclic, h'.acyclic', h'.size.trans h.size, fun id => (h'.isBound id).trans (h.isBound id),
    fun t => (h'.deep t).trans (h.deep t), fun id => (h'.level id).trans (h.level id)⟩

theorem of_same (hT : T.Acyclic) (h : T.Same S) (hlevel : ∀ id, S.level id = T.level id) : T.Alike S :=
  ⟨hT, h.acyclic hT, h.size, h.isBound, h.deep, hlevel⟩

/-- The trail and the number of open snapshots do not matter. -/
theorem of_entries_eq (hT : T.Acyclic) (h : S.entries = T.entries) : T.Alike S := by
  obtain ⟨entries, trail, snapshots⟩ := S
  subst h
  exact of_same hT (same_of_binding?_eq hT rfl fun _ => rfl) fun _ => rfl

theorem resolve (hT : T.Acyclic) (t : Ty) : T.Alike (T.resolve t).2 :=
  of_same hT (steady_resolve hT t).1.same fun id => (level_resolve hT t id).1

theorem unbound_iff (h : T.Alike S) {id : Nat} : S.binding? id = none ↔ T.binding? id = none := by
  rw [← isBound_eq_false, ← isBound_eq_false, h.isBound]

theorem commit (h : T.Alike S) : T.Alike S.commit := by
  refine h.trans (of_entries_eq h.acyclic' ?_)
  unfold Table.commit close
  split <;> rfl

theorem snapshot (h : T.Alike S) : T.snapshot.2.Alike S.snapshot.2 := by
  have hT : T.Alike T.snapshot.2 := of_entries_eq h.acyclic rfl
  exact (hT.symm.trans h).trans (of_entries_eq h.acyclic' rfl)

/-- After a rollback the entries are as they were. -/
theorem rollback (hT : T.Acyclic) (h : T.snapshot.2.Continues S) : T.Alike (S.rollback T.snapshot.1) := by
  have hback := (h.since (Nat.succ_pos _)).rollback_eq
  rw [close_snapshot_grow, grow_nil] at hback
  rw [hback]
  exact of_entries_eq hT rfl

end Alike

end Table

/-- Two results of unifications that agree: both are failures, or both leave tables that say the same. -/
def Unified.Agrees : Unified → Unified → Prop
  | .ok _ T, .ok _ S => T.Alike S
  | .error _ _, .error _ _ => True
  | _, _ => False

theorem Unified.Agrees.cases {r r' : Unified} (h : r.Agrees r') :
    (∃ T S, r = .ok () T ∧ r' = .ok () S ∧ T.Alike S) ∨ ∃ e T e' S, r = .error e T ∧ r' = .error e' S := by
  cases r with
  | ok _ T => cases r' with
    | ok _ S => exact .inl ⟨T, S, rfl, rfl, h⟩
    | error e' S => exact h.elim
  | error e T => cases r' with
    | ok _ S => exact h.elim
    | error e' S => exact .inr ⟨e, T, e', S, rfl, rfl⟩

namespace Table

variable {T S : Table}

/-! ## Binding a variable -/

theorem Alike.setBinding (h : T.Alike S) {id : Nat} (hu : T.binding? id = none) {t u : Ty}
    (hd : T.deep u = T.deep t) (ht : ¬ T.Reaches t id) : (T.setBinding id t).Alike (S.setBinding id u) := by
  by_cases hid : id < T.size
  · have hid' : id < S.size := h.size.symm ▸ hid
    have hu' := h.unbound_iff.mpr hu
    have hdeep : S.deep u = T.deep t := (h.deep u).trans hd
    have hu'' : ¬ S.Reaches u id := by rwa [Reaches, hdeep]
    refine ⟨h.acyclic.setBinding hid hu ht, h.acyclic'.setBinding hid' hu' hu'', ?_, fun v => ?_,
      fun w => ?_, fun v => ?_⟩
    · rw [size_setBinding, size_setBinding, h.size]
    · have hv := h.isBound v
      unfold Table.isBound at hv ⊢
      rw [binding?_setBinding hid', binding?_setBinding hid]
      split
      · rfl
      · exact hv
    · rw [deep_setBinding h.acyclic' hid' hu' hu'', deep_setBinding h.acyclic hid hu ht, hdeep, h.deep]
    · simpa using h.level v
  · rw [Table.setBinding, if_neg hid, Table.setBinding, if_neg (h.size.symm ▸ hid)]
    exact h

/-- A successful occurs check gives the same levels. -/
theorem level_occurs (h : T.Alike S) {id level : Nat} {t u : Ty} (hd : T.deep u = T.deep t)
    (hT : (T.occurs id level t).1 = false) (hS : (S.occurs id level u).1 = false) (w : Nat) :
    (S.occurs id level u).2.level w = (T.occurs id level t).2.level w := by
  have hsinks := sinks_occurs h.acyclic id level t
  have hsinks' := sinks_occurs h.acyclic' id level u
  have hreaches : S.Reaches u w ↔ T.Reaches t w := by rw [Reaches, h.deep, hd]; rfl
  have hlevel := h.level w
  by_cases hw : T.Reaches t w
  · have h1 := hsinks.all hT w hw
    have h2 := hsinks'.all hS w (hreaches.mpr hw)
    have h3 := hsinks.lowers w
    have h4 := hsinks'.lowers w
    omega
  · rw [hsinks.lowers.eq_of_not hw, hsinks'.lowers.eq_of_not fun hw' => hw (hreaches.mp hw'), hlevel]

/-- Binding an unbound variable to types that stand for the same. -/
theorem agrees_bind (h : T.Alike S) {v : TyVar} (hv : T.binding? v.id = none) {t u : Ty}
    (hd : T.deep u = T.deep t) : (T.bind v t).Agrees (S.bind v u) := by
  obtain ⟨hfound, hsteady⟩ := checks_occurs h.acyclic v.id (T.level v.id) t
  obtain ⟨hfound', hsteady'⟩ := checks_occurs h.acyclic' v.id (T.level v.id) u
  have hreaches : S.Reaches u v.id ↔ T.Reaches t v.id := by rw [Reaches, h.deep, hd]; rfl
  have hlevel (hT : (T.occurs v.id (T.level v.id) t).1 = false)
      (hS : (S.occurs v.id (T.level v.id) u).1 = false) := level_occurs h hd hT hS
  rw [bind, bind, h.level]
  rw [hreaches, ← hfound] at hfound'
  generalize T.occurs v.id (T.level v.id) t = p at *
  generalize S.occurs v.id (T.level v.id) u = q at *
  obtain ⟨b, T'⟩ := p
  obtain ⟨b', S'⟩ := q
  obtain rfl : b' = b := Bool.eq_iff_iff.mpr hfound'
  cases b' with
  | true => trivial
  | false =>
    have hsame := hsteady.same
    have hsame' := hsteady'.same
    have halike : T'.Alike S' := by
      refine ⟨hsteady.acyclic h.acyclic, hsteady'.acyclic h.acyclic', ?_, fun id => ?_, fun w => ?_,
        hlevel rfl rfl⟩
      · exact (hsame'.size.trans h.size).trans hsame.size.symm
      · exact ((hsame'.isBound id).trans (h.isBound id)).trans (hsame.isBound id).symm
      · exact ((hsame'.deep w).trans (h.deep w)).trans (hsame.deep w).symm
    refine halike.setBinding (hsame.unbound_iff.mpr hv) ?_ fun hreaches => ?_
    · rw [hsame.deep, hsame.deep, hd]
    · rw [Reaches, hsame.deep] at hreaches
      exact Bool.false_ne_true (hfound.mpr hreaches)

end Table

/-! ## Meetings of other types -/

/-- What is to be done if other types are in the places of the parts. -/
def Meeting.map (f : Ty → Ty) : Meeting → Meeting
  | .bind v t => .bind v (f t)
  | .all pairs missing =>
    .all (pairs.map (Prod.map f f)) (missing.map fun m => (m.1, f m.2))
  | .either p q => .either (p.map f f) (q.map f f)
  | .arity m n => .arity m n
  | .clash => .clash

namespace Meeting

variable (f : Ty → Ty)

theorem map_ite {p : Prop} [Decidable p] {x y : Meeting} :
    (if p then x else y).map f = if p then x.map f else y.map f := by
  split <;> rfl

@[simp] theorem map_bind (v : TyVar) (t : Ty) : (bind v t).map f = bind v (f t) := rfl

@[simp] theorem map_all (pairs : List (Ty × Ty)) (missing : Option (String × Ty)) :
    (all pairs missing).map f =
      all (pairs.map (Prod.map f f)) (missing.map fun m => (m.1, f m.2)) := rfl

@[simp] theorem map_either (p q : Ty × Ty) :
    (either p q).map f = either (p.map f f) (q.map f f) := rfl

@[simp] theorem map_arity (m n : Nat) : (arity m n).map f = arity m n := rfl

@[simp] theorem map_clash : clash.map f = clash := rfl

end Meeting

theorem pairFields_map (f : Ty → Ty) (fs gs : List (String × Ty)) :
    pairFields (gs.map fun g => (g.1, f g.2)) (fs.map fun g => (g.1, f g.2)) =
      ((pairFields gs fs).1.map (Prod.map f f), (pairFields gs fs).2) := by
  induction fs with
  | nil => rfl
  | cons g fs ih =>
    obtain ⟨name, t⟩ := g
    rw [List.map_cons, pairFields, pairFields, Fields.get?_map, ih]
    cases Fields.get? name gs <;> rfl

theorem find?_missing_map (f : Ty → Ty) (fs gs : List (String × Ty)) :
    ((gs.map fun g => (g.1, f g.2)).find? fun g => !Fields.has g.1 (fs.map fun g => (g.1, f g.2))) =
      (gs.find? fun g => !Fields.has g.1 fs).map fun g => (g.1, f g.2) := by
  have hhas (name : String) : Fields.has name (fs.map fun g => (g.1, f g.2)) = Fields.has name fs := by
    rw [Fields.has, Fields.get?_map, Option.isSome_map, Fields.has]
  rw [List.find?_map]
  simp only [Function.comp_def, hhas]

/-- What two representatives stand for meets as they do. -/
theorem Ty.meet_deep {T : Table} {a b : Ty} (ha : T.binds a = false) (hb : T.binds b = false) :
    (T.deep a).meet (T.deep b) = (a.meet b).map T.deep := by
  have hvar {v : TyVar} (hv : T.binds (.var v) = false) : T.deep (.var v) = .var v :=
    Table.deep_var_of_unbound (Table.isBound_eq_false.mp hv)
  cases a <;> cases b <;>
    simp only [Ty.meet, Meeting.map_ite, Meeting.map_bind, Meeting.map_all, Meeting.map_either,
      Meeting.map_arity, Meeting.map_clash, Table.deep_name, Table.deep_array, Table.deep_tuple,
      Table.deep_record, Table.deep_fn, Table.deep_union, Table.deep_binding, hvar, ha, hb, List.map_nil,
      List.map_cons, Option.map_none, Prod.map]
  case tuple.tuple ts us => rw [List.length_map, List.length_map, List.zip_map]
  case fn.fn ps r j qs t k =>
    have hmap (ps : List Ty) (r : Ty) : ps.map T.deep ++ [T.deep r] = (ps ++ [r]).map T.deep := by
      rw [List.map_append, List.map_singleton]
    rw [List.length_map, List.length_map, hmap, hmap, List.zip_map]
  case record.record fs gs =>
    rw [pairFields_map, find?_missing_map]
    cases (pairFields gs fs).2 with
    | some field => simp only [Option.map_some, Table.deep_record]
    | none => simp only [Option.map_map, Function.comp_def, Table.deep_record]

namespace Table

variable {T S : Table}

/-! ## Unification -/

/-- The pairs stand for the same. -/
def SamePair (T : Table) (p q : Ty × Ty) : Prop := T.deep q.1 = T.deep p.1 ∧ T.deep q.2 = T.deep p.2

/-- What stands for the same does so when more is known. -/
theorem Knows.deep_congr (h : T.Knows S) {t u : Ty} (hd : T.deep u = T.deep t) : S.deep u = S.deep t := by
  rw [← h.deep u, hd, h.deep]

theorem Knows.samePair (h : T.Knows S) {p q : Ty × Ty} (hp : T.SamePair p q) : S.SamePair p q :=
  ⟨h.deep_congr hp.1, h.deep_congr hp.2⟩

theorem agrees_unifyAll {ps qs : List (Ty × Ty)} {missing missing' : Option (String × Ty)} (h : T.Alike S)
    (hpairs : List.Forall₂ T.SamePair ps qs) (hmissing : missing'.isSome = missing.isSome)
    (hagrees : ∀ p ∈ ps, ∀ q R R', T.Knows R → R.Alike R' → R.SamePair p q →
      (R.unify p.1 p.2).Agrees (R'.unify q.1 q.2)) :
    ((unifyAll missing ps T).eval unifies).Agrees ((unifyAll missing' qs S).eval unifies) := by
  induction ps generalizing qs T S with
  | nil =>
    cases hpairs
    cases missing with
    | none =>
      obtain rfl := Option.isSome_eq_false_iff.mp hmissing |> Option.isNone_iff_eq_none.mp
      exact h
    | some m =>
      obtain ⟨m', rfl⟩ := Option.isSome_iff_exists.mp hmissing
      trivial
  | cons p ps ih =>
    cases hpairs with
    | @cons _ q _ qs hpq hpairs =>
    have hfirst := hagrees p (by simp) q T S (.refl h.acyclic) h hpq
    have hknows : T.Knows (T.unify p.1 p.2).table := (continues_unify (p.1, p.2, T) h.acyclic).toKnows
    rw [eval_cons, eval_cons, unifies, unifies]
    dsimp only
    rcases hfirst.cases with ⟨R, R', hr, hr', hR⟩ | ⟨e, R, e', R', hr, hr'⟩
    · rw [hr] at hknows
      rw [hr, hr']
      exact ih hR (hpairs.imp fun _ _ => hknows.samePair) fun p hp q R₂ R₂' hR =>
        hagrees p (List.mem_cons_of_mem _ hp) q R₂ R₂' (hknows.trans hR)
    · rw [hr, hr']
      trivial

/-- Only representatives are bound. -/
theorem eq_var_of_meet_eq_bind {a b t : Ty} {v : TyVar} (h : a.meet b = .bind v t) :
    a = .var v ∧ t = b ∨ b = .var v ∧ t = a := by
  rw [Ty.meet.eq_def] at h
  split at h <;> (try split_ifs at h) <;> cases h
  all_goals simp

theorem agrees_handle {a b a' b' : Ty} {m m' : Meeting} (h : T.Alike S)
    (hm : m'.map T.deep = m.map T.deep) (hbind : ∀ v t, m = .bind v t → T.binding? v.id = none)
    (hagrees : ∀ p q R R', m.Poses p → T.Knows R → R.Alike R' → R.SamePair p q →
      (R.unify p.1 p.2).Agrees (R'.unify q.1 q.2)) :
    ((handle a b T m).eval unifies).Agrees ((handle a' b' S m').eval unifies) := by
  cases m <;> cases m' <;> simp only [Meeting.map_bind, Meeting.map_all, Meeting.map_either,
    Meeting.map_arity, Meeting.map_clash, Meeting.bind.injEq, Meeting.all.injEq, Meeting.either.injEq,
    reduceCtorEq] at hm
  case bind.bind v t w u =>
    obtain ⟨rfl, hd⟩ := hm
    exact agrees_bind h (hbind _ _ rfl) hd
  case all.all ps missing qs missing' =>
    have himages : List.Forall₂ (· = ·) (ps.map (Prod.map T.deep T.deep))
        (qs.map (Prod.map T.deep T.deep)) := by
      rw [List.forall₂_eq_eq_eq]
      exact hm.1.symm
    have hpairs := List.forall₂_map_right_iff.mp (List.forall₂_map_left_iff.mp himages)
    refine agrees_unifyAll h (hpairs.imp fun p q hpq => ?_) ?_ fun p hp q R R' => hagrees p q R R' hp
    · exact ⟨(congrArg Prod.fst hpq).symm, (congrArg Prod.snd hpq).symm⟩
    · simpa using congrArg Option.isSome hm.2
  case either.either p q p' q' =>
    have hsame {p p' : Ty × Ty} (hp : p'.map T.deep T.deep = p.map T.deep T.deep) : T.SamePair p p' :=
      ⟨congrArg Prod.fst hp, congrArg Prod.snd hp⟩
    have hsnap : T.Knows T.snapshot.2 := .of_binding?_eq h.acyclic rfl fun _ => rfl
    have hsnaps : T.snapshot.2.Alike S.snapshot.2 := h.snapshot
    have hfirst := hagrees p p' _ _ (.inl rfl) hsnap hsnaps (hsnap.samePair (hsame hm.1))
    have hleft := continues_unify (p.1, p.2, T.snapshot.2) hsnap.acyclic
    have hleft' := continues_unify (p'.1, p'.2, S.snapshot.2) hsnaps.acyclic'
    rw [eval_either, eval_either, unifies, unifies]
    dsimp only [unifies] at hleft hleft' ⊢
    rcases hfirst.cases with ⟨R, R', hr, hr', hR⟩ | ⟨e, R, e', R', hr, hr'⟩
    · rw [hr, hr']
      exact (hR.commit.symm.commit).symm
    · rw [hr] at hleft
      rw [hr'] at hleft'
      rw [hr, hr']
      dsimp only [Unified.table] at hleft hleft' ⊢
      have hback := (Alike.rollback h.acyclic hleft).symm.trans (h.trans (.rollback h.acyclic' hleft'))
      have hknows := (Continues.rollback h.acyclic hleft).toKnows
      have hsecond := hagrees q q' _ _ (.inr rfl) hknows hback (hknows.samePair (hsame hm.2))
      rcases hsecond.cases with ⟨R, R', hr, hr', hR⟩ | ⟨e, R, e', R', hr, hr'⟩
      · rw [hr, hr']
        exact hR
      · rw [hr, hr']
        trivial
  case arity.arity => trivial
  case clash.clash => trivial

theorem alike_lookedUp (hT : T.Acyclic) (a b : Ty) : T.Alike (T.lookedUp a b) :=
  have h := Alike.resolve hT a
  h.trans (.resolve h.acyclic' b)

/-- **Types that stand for the same are unified alike** in tables that say the same. -/
theorem unify_agrees (h : T.Alike S) {a b a' b' : Ty} (ha : T.deep a' = T.deep a)
    (hb : T.deep b' = T.deep b) : (T.unify a b).Agrees (S.unify a' b') := by
  refine unify_induction (motive := fun a b T => ∀ (S : Table) (a' b' : Ty), T.Alike S →
    T.deep a' = T.deep a → T.deep b' = T.deep b → (T.unify a b).Agrees (S.unify a' b'))
    (fun a b T hT ih S a' b' h ha hb => ?_) a b T h.acyclic S a' b' h ha hb
  rw [unify_eq hT, unify_eq h.acyclic', unifyBody_eq, unifyBody_eq]
  have hlooked := alike_lookedUp hT a b
  have hlooked' := hlooked.symm.trans (h.trans (alike_lookedUp h.acyclic' a' b'))
  obtain ⟨hfa, hfb⟩ := binds_heads hT a b
  obtain ⟨hfa', hfb'⟩ := binds_heads h.acyclic' a' b'
  obtain ⟨hda, hdb⟩ := deep_heads hT a b
  obtain ⟨hda', hdb'⟩ := deep_heads h.acyclic' a' b'
  refine agrees_handle hlooked' ?_ (fun v t hv => ?_) fun p q R R' hp hknows hR hpq => ?_
  · have hdeep : (T.lookedUp a b).deep = T.deep := funext hlooked.deep
    have hdeep' : S.deep = T.deep := funext h.deep
    have hmeet := Ty.meet_deep hfa' hfb'
    rw [hda', hdb', hdeep', ha, hb] at hmeet
    rw [hdeep, ← hmeet, ← Ty.meet_deep hfa hfb, hda, hdb]
  · rw [hlooked.unbound_iff]
    rcases eq_var_of_meet_eq_bind hv with ⟨hv, -⟩ | ⟨hv, -⟩
    · rw [hv] at hfa
      exact isBound_eq_false.mp hfa
    · rw [hv] at hfb
      exact isBound_eq_false.mp hfb
  · exact ih p R hp hknows R' q.1 q.2 hR hpq.1 hpq.2

end Table

/-! ## One result, or else another one -/

namespace Unified

/-- The unification succeeded. -/
def isOk : Unified → Bool
  | .ok _ _ => true
  | .error _ _ => false

/-- The first result if it is a success, and the second one otherwise. -/
def orElse : Unified → Unified → Unified
  | .ok _ T, _ => .ok () T
  | .error _ _, r => r

namespace Agrees

variable {r r' x y : Unified}

theorem symm (h : r.Agrees r') : r'.Agrees r := by
  rcases h.cases with ⟨T, S, rfl, rfl, halike⟩ | ⟨e, T, e', S, rfl, rfl⟩
  · exact halike.symm
  · trivial

theorem trans (h : x.Agrees r) (h' : r.Agrees r') : x.Agrees r' := by
  rcases h.cases with ⟨T, S, rfl, rfl, halike⟩ | ⟨e, T, e', S, rfl, rfl⟩
  · rcases h'.cases with ⟨R, S', hr, rfl, halike'⟩ | ⟨e, R, e', S', hr, rfl⟩
    · cases hr
      exact halike.trans halike'
    · cases hr
  · rcases h'.cases with ⟨R, S', hr, rfl, halike'⟩ | ⟨e, R, e', S', hr, rfl⟩
    · cases hr
    · trivial

theorem isOk_eq (h : r.Agrees r') : r'.isOk = r.isOk := by
  rcases h.cases with ⟨T, S, rfl, rfl, -⟩ | ⟨e, T, e', S, rfl, rfl⟩
  · rfl
  · rfl

end Agrees

end Unified

namespace Table

/-- Nobody can tell the tables apart by resolving types and asking for levels. -/
def Indistinct (T S : Table) : Prop :=
  (∀ t, (S.resolveDeep t).1 = (T.resolveDeep t).1) ∧ ∀ id, S.level id = T.level id

theorem Alike.indistinct {T S : Table} (h : T.Alike S) : T.Indistinct S :=
  ⟨fun t => by rw [(steady_resolveDeep h.acyclic' t).1, (steady_resolveDeep h.acyclic t).1, h.deep], h.level⟩

end Table

/-- The result is a success if one of the two others is, and nobody can tell what it leaves from what is left
by the first of them that is. -/
structure Unified.Chooses (r x y : Unified) : Prop where
  succeeds : r.isOk = (x.isOk || y.isOk)
  first : x.isOk = true → x.table.Indistinct r.table
  second : x.isOk = false → y.isOk = true → y.table.Indistinct r.table

theorem Unified.Agrees.chooses {r x y : Unified} (h : (x.orElse y).Agrees r) : r.Chooses x y := by
  cases x with
  | ok _ S =>
    rcases h.cases with ⟨T, R, hT, rfl, halike⟩ | ⟨e, T, e', R, hT, rfl⟩
    · cases hT
      exact ⟨rfl, fun _ => halike.indistinct, nofun⟩
    · cases hT
  | error e S =>
    rcases h.cases with ⟨T, R, hT, rfl, halike⟩ | ⟨e, T, e', R, hT, rfl⟩
    · obtain rfl : y = .ok () T := hT
      exact ⟨rfl, nofun, fun _ _ => halike.indistinct⟩
    · obtain rfl : y = .error e T := hT
      exact ⟨rfl, nofun, nofun⟩

namespace Table

variable {T S : Table}

/-! ## The members of a union -/

/-- Two attempts, the second one after the first has failed and been undone. -/
theorem agrees_either (h : T.Alike S) {a b : Ty} {p q p' q' : Ty × Ty} (hp : T.SamePair p p')
    (hq : T.SamePair q q') : ((T.unify p.1 p.2).orElse (T.unify q.1 q.2)).Agrees
      ((handle a b S (.either p' q')).eval unifies) := by
  have hsnap : S.Alike S.snapshot.2 := .of_entries_eq h.acyclic' rfl
  have hfirst := unify_agrees (h.trans hsnap) hp.1 hp.2
  have hleft := continues_unify (p'.1, p'.2, S.snapshot.2) hsnap.acyclic'
  rw [eval_either]
  dsimp only [unifies] at hleft ⊢
  rcases hfirst.cases with ⟨R, R', hr, hr', hR⟩ | ⟨e, R, e', R', hr, hr'⟩
  · rw [hr, hr']
    exact hR.commit
  · rw [hr'] at hleft
    rw [hr, hr']
    dsimp only [Unified.table, Unified.orElse] at hleft ⊢
    have hsecond := unify_agrees (h.trans (.rollback h.acyclic' hleft)) hq.1 hq.2
    rcases hsecond.cases with ⟨R, R', hr, hr', hR⟩ | ⟨e, R, e', R', hr, hr'⟩
    · rw [hr, hr']
      exact hR
    · rw [hr, hr']
      trivial

section members

variable {u l r o : Ty}

theorem deep_of_resolve (hT : T.Acyclic) {t u : Ty} (h : (T.resolve t).1 = u) : T.deep t = T.deep u := by
  rw [← h, (steady_resolve hT t).2.1]

theorem resolve_union (S : Table) (l r : Ty) : S.resolve (.union l r) = (.union l r, S) :=
  resolve_of_not_var (by rintro v ⟨⟩)

/-- A union that is expected. -/
theorem agrees_expected_union (hT : T.Acyclic) (hu : (T.resolve u).1 = .union l r)
    (hbinding : ∀ n t, (T.resolve o).1 ≠ .binding n t)
    (hflexible : ∀ v, (T.resolve o).1 = .var v → v.rigid = true) :
    ((T.unify l o).orElse (T.unify r o)).Agrees (T.unify u o) := by
  have hmeet : (Ty.union l r).meet (T.resolve o).1 = .either (l, (T.resolve o).1) (r, (T.resolve o).1) := by
    cases hres : (T.resolve o).1 with
    | binding n t => exact absurd hres (hbinding n t)
    | var w => simp [Ty.meet, hflexible w hres]
    | _ => rfl
  have ho := (steady_resolve hT o).2.1
  have hl : T.SamePair (l, o) (l, (T.resolve o).1) := ⟨rfl, ho⟩
  have hr : T.SamePair (r, o) (r, (T.resolve o).1) := ⟨rfl, ho⟩
  have hattempts := agrees_either (.resolve hT o) (a := .union l r) (b := (T.resolve o).1) hl hr
  -- the union itself, and not what is bound to it
  refine Unified.Agrees.trans ?_ (unify_agrees (.refl hT) (deep_of_resolve hT hu) rfl)
  rw [unify_eq hT (.union l r), unifyBody, resolve_union]
  dsimp only
  rw [hmeet]
  exact hattempts

/-- A union that is found. -/
theorem agrees_found_union (hT : T.Acyclic) (hu : (T.resolve u).1 = .union l r)
    (hbinding : ∀ n t, (T.resolve o).1 ≠ .binding n t)
    (hflexible : ∀ v, (T.resolve o).1 = .var v → v.rigid = true)
    (hunion : ∀ c d, (T.resolve o).1 ≠ .union c d) :
    ((T.unify o l).orElse (T.unify o r)).Agrees (T.unify o u) := by
  have hmeet : (T.resolve o).1.meet (.union l r) = .either ((T.resolve o).1, l) ((T.resolve o).1, r) := by
    cases hres : (T.resolve o).1 with
    | binding n t => exact absurd hres (hbinding n t)
    | union c d => exact absurd hres (hunion c d)
    | var w => simp [Ty.meet, hflexible w hres]
    | _ => rfl
  have ho := (steady_resolve hT o).2.1
  have hl : T.SamePair (o, l) ((T.resolve o).1, l) := ⟨ho, rfl⟩
  have hr : T.SamePair (o, r) ((T.resolve o).1, r) := ⟨ho, rfl⟩
  have hattempts := agrees_either (.resolve hT o) (a := (T.resolve o).1) (b := .union l r) hl hr
  refine Unified.Agrees.trans ?_ (unify_agrees (.refl hT) rfl (deep_of_resolve hT hu))
  rw [unify_eq hT o (.union l r), unifyBody]
  dsimp only
  rw [resolve_union]
  dsimp only
  rw [hmeet]
  exact hattempts

/-- **A union is tried left first, and a failed attempt is invisible.** -/
theorem union_tried_left_first (hT : T.Acyclic) (hu : (T.resolve u).1 = .union l r)
    (hbinding : ∀ n t, (T.resolve o).1 ≠ .binding n t)
    (hflexible : ∀ v, (T.resolve o).1 = .var v → v.rigid = true) :
    (T.unify u o).Chooses (T.unify l o) (T.unify r o) ∧
    ((∀ c d, (T.resolve o).1 ≠ .union c d) → (T.unify o u).Chooses (T.unify o l) (T.unify o r)) ∧
    ∀ a b, (T.unify a b).table.snapshots = T.snapshots :=
  ⟨(agrees_expected_union hT hu hbinding hflexible).chooses,
    fun hunion => (agrees_found_union hT hu hbinding hflexible hunion).chooses,
    fun a b => (continues_unify (a, b, T) hT).snapshots⟩

end members

/-- The first member binds the variable to the truth values before it fails, and this is not what keeps the
second member from being unified. -/
theorem union_tried_left_first_undoes :
    let a : Ty := .var ⟨0, "a", false, false⟩
    let T : Table := ⟨#[⟨1, none, false⟩], #[], 0⟩
    let l : Ty := .tuple [a, .bool, .number]
    let r : Ty := .tuple [a, a, .string]
    let o : Ty := .tuple [.bool, .bool, .string]
    T.Acyclic ∧ (T.unify (.union l r) o).Chooses (T.unify l o) (T.unify r o) ∧
      (T.unify o (.union l r)).Chooses (T.unify o l) (T.unify o r) := by
  have hT : Table.Acyclic ⟨#[⟨1, none, false⟩], #[], 0⟩ := by
    refine ⟨fun _ => 0, fun v t hv => ?_⟩
    match v with
    | 0 => cases hv
    | n + 1 => simp [binding?] at hv
  have h := union_tried_left_first hT (u := .union (.tuple [.var ⟨0, "a", false, false⟩, .bool, .number])
    (.tuple [.var ⟨0, "a", false, false⟩, .var ⟨0, "a", false, false⟩, .string]))
    (o := .tuple [.bool, .bool, .string]) rfl nofun nofun
  exact ⟨hT, h.1, h.2.1 nofun⟩

end Table

end Reified
