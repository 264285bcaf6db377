import Reified.Proofs.Frames.Placed
import Reified.Proofs.Table.Live

/-!
# Instances of schemes

An instance has copies in place of what is generalized, so of a scheme it is a live type. The copies wait
for the innermost frame.

## Main definitions

* `Ty.Yields` — what a traversal does to the state, and which variables its answer has

## Main results

* `Ty.yields_replaceVarsM` — it is enough to look at one variable
* `Table.live_instantiate` — an instance of a scheme is live
* `Frames.Placed.instantiate`, `Frames.Placed.drawn_instantiate` — its copies wait where they should
-/

namespace Reified

namespace Ty

/-! ## Traversals -/

section replace

variable {S : Type} {rule : TyVar → StateM S Ty} {keep : S → Prop} {good : S → TyVar → Prop}
  {s s' s₁ : S} {vs ws : List TyVar}

/-- The later state is one of those that are kept, what was good still is, and so are the variables. -/
structure Yields (keep : S → Prop) (good : S → TyVar → Prop) (s : S) (vs : List TyVar) (s' : S) :
    Prop where
  keep : keep s'
  mono : ∀ w, good s w → good s' w
  vars : ∀ w ∈ vs, good s' w

namespace Yields

theorem refl (hs : keep s) : Yields keep good s [] s := ⟨hs, fun _ h => h, nofun⟩

theorem append (h : Yields keep good s vs s') (h' : Yields keep good s' ws s₁) :
    Yields keep good s (vs ++ ws) s₁ :=
  ⟨h'.keep, fun w hw => h'.mono w (h.mono w hw), fun w hw =>
    (List.mem_append.mp hw).elim (fun hw => h'.mono w (h.vars w hw)) (h'.vars w)⟩

end Yields

mutual

/-- **The variables of an answer are good in the last state**, if those that the rule gives for one
variable are, and goodness lasts. -/
theorem yields_replaceVarsM : (t : Ty) →
    (∀ v ∈ t.vars, ∀ s, keep s → Yields keep good s (rule v s).1.vars (rule v s).2) →
    ∀ s, keep s → Yields keep good s (t.replaceVarsM rule s).1.vars (t.replaceVarsM rule s).2
  | .var v, h, s, hs => h v (by simp [vars]) s hs
  | .name n, _, s, hs => .refl hs
  | .array t, h, s, hs => yields_replaceVarsM t h s hs
  | .tuple ts, h, s, hs => yields_replaceListM ts h s hs
  | .record fs, h, s, hs => yields_replaceFieldsM fs h s hs
  | .fn ps r k, h, s, hs => by
    have h1 := yields_replaceListM ps (fun v hv => h v (List.mem_append_left _ hv)) s hs
    have h2 := yields_replaceVarsM r (fun v hv => h v (List.mem_append_right _ hv)) _ h1.keep
    exact h1.append h2
  | .union a b, h, s, hs => by
    have h1 := yields_replaceVarsM a (fun v hv => h v (List.mem_append_left _ hv)) s hs
    have h2 := yields_replaceVarsM b (fun v hv => h v (List.mem_append_right _ hv)) _ h1.keep
    exact h1.append h2
  | .binding n t, h, s, hs => yields_replaceVarsM t h s hs

theorem yields_replaceListM : (ts : List Ty) →
    (∀ v ∈ varsList ts, ∀ s, keep s → Yields keep good s (rule v s).1.vars (rule v s).2) →
    ∀ s, keep s →
      Yields keep good s (varsList (replaceListM rule ts s).1) (replaceListM rule ts s).2
  | [], _, s, hs => .refl hs
  | t :: ts, h, s, hs => by
    have h1 := yields_replaceVarsM t (fun v hv => h v (List.mem_append_left _ hv)) s hs
    have h2 := yields_replaceListM ts (fun v hv => h v (List.mem_append_right _ hv)) _ h1.keep
    exact h1.append h2

theorem yields_replaceFieldsM : (fs : List (String × Ty)) →
    (∀ v ∈ varsFields fs, ∀ s, keep s → Yields keep good s (rule v s).1.vars (rule v s).2) →
    ∀ s, keep s →
      Yields keep good s (varsFields (replaceFieldsM rule fs s).1) (replaceFieldsM rule fs s).2
  | [], _, s, hs => .refl hs
  | (n, t) :: fs, h, s, hs => by
    have h1 := yields_replaceVarsM t (fun v hv => h v (List.mem_append_left _ hv)) s hs
    have h2 := yields_replaceFieldsM fs (fun v hv => h v (List.mem_append_right _ hv)) _ h1.keep
    exact h1.append h2

end

end replace

end Ty

namespace Table

variable {T : Table} {X : Nat → Prop} {depth : Nat} {t : Ty} {rank : Nat → Nat}

/-! ## Copies -/

/-- The state of an instantiation whose copies are live. -/
structure Copying (X : Nat → Prop) (depth : Nat) (rank : Nat → Nat) (S : Instance) : Prop where
  healthy : S.table.Healthy
  apart : ∀ w, X w → w < S.table.size
  ranks : S.table.Ranks rank
  copies : ∀ c ∈ S.copies, S.table.Live X depth (.var c.2)

/-- What is live in a table is live when a copy has been made. -/
theorem Copying.copy {S : Instance} (hS : Copying X depth rank S) (w : TyVar) :
    S.table.Evolves X depth (Instance.copy depth w S).2.table ∧
      Copying X depth rank (Instance.copy depth w S).2 ∧
      (Instance.copy depth w S).2.table.Live X depth (Instance.copy depth w S).1 := by
  obtain ⟨T, copies⟩ := S
  obtain ⟨hhealthy, happart, hranks, hcopies⟩ := hS
  dsimp only at *
  unfold Instance.copy
  dsimp only
  cases hlookup : copies.lookup w.id with
  | some v =>
    obtain ⟨before, after, rfl, -⟩ := List.lookup_eq_some_iff.mp hlookup
    exact ⟨.refl hhealthy.tame, ⟨hhealthy, happart, hranks, hcopies⟩, hcopies (w.id, v) (by simp)⟩
  | none =>
    have hevolves : T.Evolves X depth _ := evolves_newVar hhealthy w.name w.inferred false depth
    have hlive := live_newVar happart w.name w.inferred false depth
    have hb := binding?_newVar (T := T) w.name w.inferred false depth
    refine ⟨hevolves, ⟨hhealthy.newVar w.name w.inferred false depth, fun x hx => (happart x hx).trans_le hevolves.size,
      ⟨fun id ht => hranks.unbound id (hb id ▸ ht), fun id t ht => hranks.bound id t (hb id ▸ ht),
        fun id => (hranks.le_size id).trans hevolves.size, fun id t ht => hranks.lt id t (hb id ▸ ht)⟩,
      ?_⟩, hlive⟩
    exact List.forall_mem_cons.mpr ⟨hlive, fun c hc => hevolves.live _ le_rfl _ (hcopies c hc)⟩

theorem Copying.resolve {S : Instance} (hS : Copying X depth rank S) {v : TyVar}
    (hv : S.table.Scheme X depth (.var v)) :
    S.table.Evolves X depth (S.table.resolve (.var v)).2 ∧
      Copying X depth rank ⟨(S.table.resolve (.var v)).2, S.copies⟩ ∧
      (S.table.resolve (.var v)).2.Scheme X depth (S.table.resolve (.var v)).1 := by
  obtain ⟨hunchanged, hbelow, hdeep⟩ := unchanged_resolve hS.healthy hv.below
  have hevolves : S.table.Evolves X depth _ := hunchanged.evolves hS.healthy
  refine ⟨hevolves, ⟨hunchanged.healthy, fun x hx => hunchanged.size.symm ▸ hS.apart x hx, ?_,
    fun c hc => hevolves.live _ le_rfl _ (hS.copies c hc)⟩, ?_⟩
  · exact (finds_resolve hS.healthy.tame.acyclic v).steady.same.ranks rank hS.ranks
  · refine (hevolves.scheme _ le_rfl _ hv).congr (hunchanged.size.symm ▸ hbelow) ?_
    rw [hunchanged.deep, hunchanged.deep, hdeep]

theorem yields_instantiateWithin {n : Nat} {S : Instance} (hn : ∀ w ∈ t.vars, rank w.id < n)
    (ht : S.table.Scheme X depth t) (hS : Copying X depth rank S) :
    Ty.Yields (fun S' : Instance => S.table.Evolves X depth S'.table ∧ Copying X depth rank S')
      (fun S' w => S'.table.Live X depth (.var w)) S (instantiateWithin depth n t S).1.vars
      (instantiateWithin depth n t S).2 := by
  induction n generalizing t S with
  | zero =>
    exact ⟨⟨.refl hS.healthy.tame, hS⟩, fun _ h => h, fun w hw => absurd (hn w hw) (Nat.not_lt_zero _)⟩
  | succ n ih =>
    rw [instantiateWithin]
    refine Ty.yields_replaceVarsM t (fun v hv S' hS' => ?_) S ⟨.refl hS.healthy.tame, hS⟩
    obtain ⟨hev, hS'⟩ := hS'
    have hvr := finds_resolve hS'.healthy.tame.acyclic v
    have hscheme := hev.scheme _ le_rfl _ (Remains.iff_vars.mp ht v hv)
    obtain ⟨hev', hS'', hu⟩ := hS'.resolve hscheme
    rw [Instance.resolveVar_bind]
    generalize S'.table.resolve (.var v) = r at hvr hev' hS'' hu ⊢
    obtain ⟨u, T'⟩ := r
    dsimp only at *
    split
    · next w =>
      have hunbound : T'.binding? w.id = none := isBound_eq_false.mp hvr.final
      obtain ⟨hX, hkept⟩ := hu.unbound hunbound
      rw [Instance.isGeneralized_bind]
      split
      · obtain ⟨hev'', hS₁, hlive⟩ := hS''.copy w
        have h := hev'.trans hev''
        exact ⟨⟨hev.trans h, hS₁⟩, fun x hx => h.live _ le_rfl _ hx, Remains.iff_vars.mp hlive⟩
      · next hg =>
        refine ⟨⟨hev.trans hev', hS''⟩, fun x hx => hev'.live _ le_rfl _ hx, fun x hx => ?_⟩
        obtain rfl := List.eq_of_mem_singleton hx
        exact .of_unbound (hu.below x (List.mem_singleton_self x)) hunbound
          ⟨hX, Bool.not_eq_true _ ▸ hg, hkept.resolve_left hg⟩
    · next hnot =>
      obtain ⟨s, hs⟩ := hvr.bound hnot
      have hlt : ∀ w ∈ u.vars, rank w.id < n := fun w hw =>
        (hvr.lt s hs rank hS'.ranks w hw).trans_le (Nat.le_of_lt_succ (hn v hv))
      obtain ⟨⟨hev'', hS₁⟩, -, hlive⟩ := ih (S := ⟨T', S'.copies⟩) hlt hu hS''
      have h := hev'.trans hev''
      exact ⟨⟨hev.trans h, hS₁⟩, fun x hx => h.live _ le_rfl _ hx, hlive⟩

/-- **An instance of a scheme is live.** -/
theorem live_instantiate (hT : T.Healthy) (hX : ∀ w, X w → w < T.size) (ht : T.Scheme X depth t) :
    T.Evolves X depth (T.instantiate t depth).2.2 ∧ (T.instantiate t depth).2.2.Healthy ∧
      (T.instantiate t depth).2.2.Live X depth (T.instantiate t depth).1 := by
  obtain ⟨rank, hr⟩ := hT.tame.acyclic.exists_ranks
  obtain ⟨⟨hev, hS⟩, -, hlive⟩ := yields_instantiateWithin (S := ⟨T, []⟩)
    (fun w _ => Nat.lt_succ_of_le (hr.le_size _)) ht ⟨hT, hX, hr, nofun⟩
  exact ⟨hev, hS.healthy, Remains.iff_vars.mpr hlive⟩

end Table

namespace Frames

open Table

variable {F : Frames} {T : Table}

/-! ## Waiting copies -/

theorem creates_placed (F : Frames) (T : Table) :
    Creates (fun vs S => Placed (vs.foldl (fun F v => F.record v.id) F) S ∧
        S.size = T.size + vs.length ∧ T.Drawn F.depth S)
      (fun vs => Below (T.size + vs.length)) F.depth where
  shortcuts vs :=
    { acyclic := fun h => h.1.tame.acyclic
      bound := fun h _ hb => h.2.1 ▸ h.1.known.binding _ _ hb
      var := fun ht hv _ hw => List.eq_of_mem_singleton hw ▸ ht _ hv
      shortcut := fun {S v t} h _ ht hb hdeep hacyclic => by
        obtain ⟨hplaced, hsize, hdrawn⟩ := h
        have hid := lt_size_of_isBound hb
        have hrefines := Refines.of_shortcut hplaced.tame hb hdeep hacyclic
        refine ⟨hplaced.sink hrefines.grows.tame
          (hplaced.known.setBinding hid (hsize ▸ ht) hacyclic) (fun w hw => ?_)
          fun w _ => (level_setBinding v.id t w).le, (size_setBinding v.id t).trans hsize,
          hdrawn.trans (hrefines.drawn (size_setBinding v.id t)) hrefines.grows⟩
        rw [binding?_setBinding hid] at hw
        split at hw
        · simp at hw
        · exact hw }
  mono v ht w hw := (ht w hw).trans_le (by simp)
  newVar {vs S} name inferred h := by
    obtain ⟨hplaced, hsize, hdrawn⟩ := h
    have hnew := hplaced.newVar name inferred false
    have hgrows := hplaced.tame.newVar name inferred false F.depth
    rw [depth_foldl_record] at hnew
    rw [List.foldl_append, List.length_append, List.length_singleton, ← Nat.add_assoc, ← hsize]
    exact ⟨hnew, by simp, hdrawn.trans (.newVar name inferred false le_rfl) hgrows⟩

theorem Placed.creates_instantiate (h : Placed F T) {t : Ty} (ht : Below T.size t) :
    Placed (F.instantiate T t).2.1 (F.instantiate T t).2.2 ∧ T.Drawn F.depth (F.instantiate T t).2.2 := by
  have hstart : Placed (([] : List TyVar).foldl (fun F v => F.record v.id) F) T ∧
      T.size = T.size + ([] : List TyVar).length ∧ T.Drawn F.depth T := ⟨h, rfl, .refl T⟩
  obtain ⟨hplaced, -, hdrawn⟩ := (creates_placed F T).instantiate hstart ht
  exact ⟨hplaced, hdrawn⟩

/-- **The copies of an instance wait for the innermost frame.** -/
theorem Placed.instantiate (h : Placed F T) {t : Ty} (ht : Below T.size t) :
    Placed (F.instantiate T t).2.1 (F.instantiate T t).2.2 :=
  (h.creates_instantiate ht).1

/-- An instance lowers no levels. -/
theorem Placed.drawn_instantiate (h : Placed F T) {t : Ty} (ht : Below T.size t) :
    T.Drawn F.depth (F.instantiate T t).2.2 :=
  (h.creates_instantiate ht).2

end Frames

end Reified
