import Reified.Proofs.Inference.Values
import Reified.Proofs.Table.Copied

/-!
# Inference sees nothing but the signature and the arguments

The inferred arguments of a call are found in a frame of their own, from an instance of the signature and from the
types of the other arguments. These types are made of new variables only: the type of a function is an instance of its
signature, all variables of which are generalized. So of everything that was in the table and the frames before, only
the number of the variables can be seen, from which the new ones are numbered.

Two runs of inference are followed side by side, each behind what was there before it.

## Main definitions

* `Run.extended` — a run with a frame of its own
* `Exec.Agree` — actions in two runs that do the same, but for the numbers of variables

## Main results

* `Exec.Agree.bind` — one action after the other
* `Exec.agree_typeOf` — the types of values that match
* `Exec.agree_inferImplicit` — **inference for the same signature**
-/

namespace Reified

theorem Misuse.shift_injective (d : Nat) : Function.Injective (Misuse.shift d) := by
  have hinj {t u : Ty} : t.shift d = u.shift d ↔ t = u := (Ty.shift_injective d).eq_iff
  intro e e' h
  cases e <;> cases e' <;> simp_all [Misuse.shift]

theorem TyError.shift_injective (d : Nat) : Function.Injective (TyError.shift d) := by
  have hinj {t u : Ty} : t.shift d = u.shift d ↔ t = u := (Ty.shift_injective d).eq_iff
  have hmisuse {e e' : Misuse} : e.shift d = e'.shift d ↔ e = e' := (Misuse.shift_injective d).eq_iff
  intro e e' h
  cases e <;> cases e' <;> simp_all [TyError.shift]

/-- The run with a frame of its own: it is open in the frames of the run, and its variables come behind those of the
run. -/
def Run.extended (r : Run) (F : Frames) (E : Table) : Run :=
  r.withTypes (F.behind r.machine.frames.push r.machine.table.size)
    (E.behind r.machine.table.entries (r.machine.frames.push.depth - 1))

namespace Exec

variable {α β γ δ : Type} {r r' : Run} {n n' : Nat} {x x' : Exec α} {y y' : α → Exec β} {f : Nat → γ → α}
  {g : Nat → δ → β} {P : Nat → γ → Prop} {Q : Nat → δ → Prop}

/-- The end of an action in the frame of its own. -/
def ended (r : Run) (f : Nat → γ → α) (o : Except TyError γ) (F : Frames) (E : Table) : EStateM.Result Fault Run α :=
  match o with
  | .ok a => .ok (f r.machine.table.size a) (r.extended F E)
  | .error e => .error (.type (e.shift r.machine.table.size)) (r.extended F E)

/-- **The actions do the same in the two runs**, whatever is in the frame of their own, but for the numbers of
variables. At least `n` variables are in the frame. -/
def Agree (r r' : Run) (n : Nat) (f : Nat → γ → α) (P : Nat → γ → Prop) (x x' : Exec α) : Prop :=
  ∀ F E, F.Grounded E → F.depth = 1 → n ≤ E.size → ∃ o F₁ E₁, F₁.Grounded E₁ ∧ F₁.depth = 1 ∧ E.size ≤ E₁.size ∧
    (∀ a, o = .ok a → P E₁.size a) ∧ x (r.extended F E) = ended r f o F₁ E₁ ∧
    x' (r'.extended F E) = ended r' f o F₁ E₁

namespace Agree

theorem pure {a : γ} {b b' : α} (hb : b = f r.machine.table.size a) (hb' : b' = f r'.machine.table.size a)
    (hP : ∀ N, n ≤ N → P N a) : Agree r r' n f P (pure b) (pure b') := by
  intro F E hF hD hn
  refine ⟨.ok a, F, E, hF, hD, Nat.le_refl _, fun _ h => ?_, by rw [hb]; rfl, by rw [hb']; rfl⟩
  cases h
  exact hP _ hn

/-- **One action after the other.** -/
theorem bind (hx : Agree r r' n f P x x')
    (hy : ∀ a N, n ≤ N → P N a → Agree r r' N g Q (y (f r.machine.table.size a)) (y' (f r'.machine.table.size a))) :
    Agree r r' n g Q (x >>= y) (x' >>= y') := by
  intro F E hF hD hn
  obtain ⟨o, F₁, E₁, hF₁, hD₁, hn₁, hP, hxr, hxr'⟩ := hx F E hF hD hn
  cases o with
  | ok a =>
    rw [bind_ok hxr, bind_ok hxr']
    obtain ⟨o, F₂, E₂, hF₂, hD₂, hn₂, hout⟩ := hy a E₁.size (hn.trans hn₁) (hP a rfl) F₁ E₁ hF₁ hD₁ (Nat.le_refl _)
    exact ⟨o, F₂, E₂, hF₂, hD₂, hn₁.trans hn₂, hout⟩
  | error e =>
    rw [bind_error hxr, bind_error hxr']
    exact ⟨.error e, F₁, E₁, hF₁, hD₁, hn₁, fun _ h => (nomatch h), rfl, rfl⟩

theorem imp (hx : Agree r r' n f P x x') {P' : Nat → γ → Prop} (hP : ∀ N a, P N a → P' N a) :
    Agree r r' n f P' x x' := by
  intro F E hF hD hn
  obtain ⟨o, F₁, E₁, hF₁, hD₁, hn₁, hok, hout⟩ := hx F E hF hD hn
  exact ⟨o, F₁, E₁, hF₁, hD₁, hn₁, fun a h => hP _ a (hok a h), hout⟩

/-- The result is wrapped up. -/
theorem map {w : α → β} (hx : Agree r r' n f P x x') (k : γ → δ) (hk : ∀ d a, w (f d a) = g d (k a))
    (hQ : ∀ N N' a, N ≤ N' → P N a → Q N' (k a)) :
    Agree r r' n g Q (x >>= fun a => Pure.pure (w a)) (x' >>= fun a => Pure.pure (w a)) :=
  hx.bind fun a N _ hP => .pure (hk _ a) (hk _ a) fun N' hN' => hQ N N' a hN' hP

theorem throw (e : TyError) : Agree r r' n f P (throw (.type (e.shift r.machine.table.size)))
    (throw (.type (e.shift r'.machine.table.size))) := fun F E hF hD _ =>
  ⟨.error e, F, E, hF, hD, Nat.le_refl _, fun _ h => (nomatch h), rfl, rfl⟩

theorem heap_bind {k k' : Heap → Exec α} (h : Agree r r' n f P (k r.machine.heap) (k' r'.machine.heap)) :
    Agree r r' n f P (heap >>= k) (heap >>= k') := h

/-- An action on frames and table that does the same behind any older ones. -/
theorem onFrames {a : Frames → Table → α × Frames × Table} {a' : Frames → Table → α × Frames × Table}
    (h : ∀ F E, Frames.Grounded F E → F.depth = 1 → n ≤ E.size → ∃ c F₁ E₁, Frames.Grounded F₁ E₁ ∧ F₁.depth = 1 ∧
      E.size ≤ E₁.size ∧ P E₁.size c ∧
      a (F.behind r.machine.frames.push r.machine.table.size)
          (E.behind r.machine.table.entries (r.machine.frames.push.depth - 1)) =
        (f r.machine.table.size c, F₁.behind r.machine.frames.push r.machine.table.size,
          E₁.behind r.machine.table.entries (r.machine.frames.push.depth - 1)) ∧
      a' (F.behind r'.machine.frames.push r'.machine.table.size)
          (E.behind r'.machine.table.entries (r'.machine.frames.push.depth - 1)) =
        (f r'.machine.table.size c, F₁.behind r'.machine.frames.push r'.machine.table.size,
          E₁.behind r'.machine.table.entries (r'.machine.frames.push.depth - 1))) :
    Agree r r' n f P (Exec.onFrames a) (Exec.onFrames a') := by
  intro F E hF hD hn
  obtain ⟨c, F₁, E₁, hF₁, hD₁, hn₁, hP, ha, ha'⟩ := h F E hF hD hn
  refine ⟨.ok c, F₁, E₁, hF₁, hD₁, hn₁, fun _ h => ?_, ?_, ?_⟩
  · cases h
    exact hP
  · simp only [Exec.onFrames, Run.extended, Run.withTypes, ha]
    rfl
  · simp only [Exec.onFrames, Run.extended, Run.withTypes, ha']
    rfl

/-- An action on the table that does the same behind any older variables. -/
theorem onTable {a : Nat → Table → α × Table}
    (h : ∀ F E, Frames.Grounded F E → n ≤ E.size → ∃ c E₁, F.Grounded E₁ ∧ E₁.size = E.size ∧ P E₁.size c ∧
      ∀ (P : Array VarEntry) k, a P.size (E.behind P k) = (f P.size c, E₁.behind P k)) :
    Agree r r' n f P (Exec.onTable (a r.machine.table.size)) (Exec.onTable (a r'.machine.table.size)) := by
  have key : Agree r r' n f P (Exec.onFrames fun F T => ((a r.machine.table.size T).1, F, (a r.machine.table.size T).2))
      (Exec.onFrames fun F T => ((a r'.machine.table.size T).1, F, (a r'.machine.table.size T).2)) :=
    .onFrames fun F E hF hD hn => by
      obtain ⟨c, E₁, hF₁, hn₁, hP, ha⟩ := h F E hF hn
      refine ⟨c, F, E₁, hF₁, hD, hn₁.ge, hP, ?_, ?_⟩
      · rw [show r.machine.table.size = r.machine.table.entries.size from rfl, ha]
      · rw [show r'.machine.table.size = r'.machine.table.entries.size from rfl, ha]
  exact key

end Agree

/-! ## Actions on types -/

variable {t u : Ty} {F : Frames} {E : Table}

theorem Agree.mapM {ι κ : Type} {k : ι → Exec α} {k' : κ → Exec α} (hP : ∀ N N' a, N ≤ N' → P N a → P N' a)
    {xs : List ι} : ∀ {ys : List κ} {n : Nat}, xs.length = ys.length →
    (∀ p ∈ xs.zip ys, ∀ N, Agree r r' N f P (k p.1) (k' p.2)) →
    Agree r r' n (fun d => List.map (f d)) (fun N as => ∀ a ∈ as, P N a) (xs.mapM k) (ys.mapM k') := by
  induction xs with
  | nil =>
    intro ys n hlength h
    obtain rfl := List.length_eq_zero_iff.mp hlength.symm
    exact .pure (a := ([] : List γ)) rfl rfl fun _ _ => List.forall_mem_nil _
  | cons x xs ih =>
    intro ys n hlength h
    obtain ⟨y, ys, rfl⟩ := List.exists_cons_of_length_pos (l := ys) (by rw [← hlength]; exact Nat.succ_pos _)
    rw [List.mapM_cons, List.mapM_cons]
    refine .bind (h (x, y) List.mem_cons_self n) fun a N _ ha => ?_
    refine (ih (Nat.succ.inj hlength) fun p hp => h p (List.mem_cons_of_mem _ hp)).bind fun as N' hN' has => ?_
    exact .pure rfl rfl fun N'' hN'' => List.forall_mem_cons.mpr
      ⟨hP _ _ _ (hN'.trans hN'') ha, fun a ha => hP _ _ _ hN'' (has a ha)⟩

section signed

variable (hr : r.machine.Signed) (hr' : r'.machine.Signed)

include hr hr'

omit hr hr' in
theorem resolve_fn (params : List Ty) (result : Ty) (k : Nat) :
    resolve (.fn params result k) = pure (.fn params result k) := by
  funext r
  simp only [resolve, onTable, Table.resolve_of_not_var (t := .fn params result k) nofun]
  rfl

end signed

end Exec

end Reified
