import Reified.Proofs.Eval.Program

/-!
# Steps of a run

How the steps of a run follow an evaluation. An evaluation that ends with a result is followed by
steps that lead to a state in which the result can be found, one that fails by steps up to the
failure, and one that is left unfinished by as many steps as it was given calls and rounds. Therefore
the two end together.

## Main definitions

* `Run.Steps` — so many steps, none of which ends the run
* `Run.Goes`, `Run.Through` — some steps, and some steps at certain positions
* `Simulates` — the steps of a run follow an evaluation

## Main results

* `Run.finish_of_steps`, `Run.finish_eq_none` — steps taken first
* `Simulates.bind`, `Simulates.steps` — one evaluation after the other
-/

namespace Reified

/-! ## Steps -/

/-- So many steps lead from one state of a run to another, and none of them ends the run. -/
def Run.Steps : Nat → Run → Run → Prop
  | 0, r, r' => r = r'
  | n + 1, r, r' => ∃ r₁, Exec.step r = .ok none r₁ ∧ Steps n r₁ r'

namespace Run

variable {r r₁ r' : Run} {m n : Nat}

theorem Steps.trans (h : Steps m r r₁) (h' : Steps n r₁ r') : Steps (m + n) r r' := by
  induction m generalizing r with
  | zero =>
    rw [Nat.zero_add]
    exact h ▸ h'
  | succ m ih =>
    obtain ⟨r₂, hstep, h⟩ := h
    rw [Nat.add_right_comm]
    exact ⟨r₂, hstep, ih h⟩

theorem Steps.one (h : Exec.step r = .ok none r') : Steps 1 r r' :=
  ⟨r', h, rfl⟩

/-- Some steps lead from one state of a run to another, and none of them ends the run. -/
def Goes (r r' : Run) : Prop := ∃ n, Steps n r r'

theorem Goes.refl (r : Run) : Goes r r := ⟨0, rfl⟩

theorem Goes.trans (h : Goes r r₁) (h' : Goes r₁ r') : Goes r r' := by
  obtain ⟨m, h⟩ := h
  obtain ⟨n, h'⟩ := h'
  exact ⟨m + n, h.trans h'⟩

theorem Goes.one (h : Exec.step r = .ok none r') : Goes r r' := ⟨1, .one h⟩

/-- Some steps lead from one state of a run to another, and each of them executes an instruction at one of the
positions `P`. -/
inductive Through (P : Nat → Prop) : Run → Run → Prop
  | refl (r : Run) : Through P r r
  | step {r r₁ r' : Run} (hp : P r.top.position) (h : Exec.step r = .ok none r₁) (hrest : Through P r₁ r') :
      Through P r r'

namespace Through

variable {P Q : Nat → Prop}

theorem one (hp : P r.top.position) (h : Exec.step r = .ok none r') : Through P r r' := .step hp h (.refl r')

theorem trans (h : Through P r r₁) (h' : Through P r₁ r') : Through P r r' := by
  induction h with
  | refl => exact h'
  | step hp hstep _ ih => exact .step hp hstep (ih h')

theorem mono (h : Through P r r') (hPQ : ∀ p, P p → Q p) : Through Q r r' := by
  induction h with
  | refl => exact .refl _
  | step hp hstep _ ih => exact .step (hPQ _ hp) hstep ih

theorem goes (h : Through P r r') : Goes r r' := by
  induction h with
  | refl => exact .refl _
  | step _ hstep _ ih => exact (Goes.one hstep).trans ih

end Through

/-- Steps at any positions. -/
theorem through_true_iff : Through (fun _ => True) r r' ↔ Goes r r' := by
  refine ⟨Through.goes, ?_⟩
  rintro ⟨n, h⟩
  induction n generalizing r with
  | zero =>
    cases h
    exact .refl _
  | succ n ih =>
    obtain ⟨r₁, hstep, h⟩ := h
    exact .step trivial hstep (ih h)

/-- Steps that do not end a run can be taken first. -/
theorem finish_of_steps (h : Steps m r r') (n : Nat) : r.finish (m + n) = r'.finish n := by
  induction m generalizing r with
  | zero =>
    rw [Nat.zero_add]
    exact h ▸ rfl
  | succ m ih =>
    obtain ⟨r₁, hstep, h⟩ := h
    rw [Nat.add_right_comm, finish, hstep]
    exact ih h

/-- A run that goes on for `m` steps has not ended after fewer. -/
theorem finish_eq_none (h : Steps m r r') (hn : n ≤ m) : r.finish n = none := by
  induction n generalizing m r with
  | zero => rfl
  | succ n ih =>
    cases m with
    | zero => omega
    | succ m =>
      obtain ⟨r₁, hstep, h⟩ := h
      rw [finish, hstep]
      exact ih h (Nat.le_of_succ_le_succ hn)

/-- A run that has ended remains as it is. -/
theorem finish_add {x : Except Fault Value × Machine} (h : r.finish m = some x) (n : Nat) :
    r.finish (m + n) = some x := by
  induction m generalizing r with
  | zero => cases h
  | succ m ih =>
    rw [Nat.add_right_comm, finish]
    rw [finish] at h
    match hstep : Exec.step r with
    | .ok none r₁ =>
      rw [hstep] at h
      exact ih h
    | .ok (some v) r₁ =>
      rw [hstep] at h
      exact h
    | .error e r₁ =>
      rw [hstep] at h
      exact h

/-- A run ends in one way only. -/
theorem finish_unique {x y : Except Fault Value × Machine} (hx : r.finish m = some x)
    (hy : r.finish n = some y) : x = y := by
  have hx' := finish_add hx n
  have hy' := finish_add hy m
  rw [Nat.add_comm, hx'] at hy'
  exact Option.some.inj hy'

end Run

/-! ## Following an evaluation -/

/-- The steps of a run follow an evaluation of which `out` is the outcome and which was given `n` as a
bound: they lead to a state that has the result, or fail in the same way, or go on for as long as
`n` steps. -/
def Simulates {α : Type} (n : Nat) (out : EStateM.Result Stop Store α) (r : Run)
    (post : α → Store → Run → Prop) : Prop :=
  match out with
  | .ok a s => ∃ k r', Run.Steps k r r' ∧ post a s r'
  | .error (.fault e) _ => ∃ k r' r'', Run.Steps k r r' ∧ Exec.step r' = .error e r''
  | .error .unfinished _ => ∃ k r', n ≤ k ∧ Run.Steps k r r'

namespace Simulates

variable {α β : Type} {n k : Nat} {out : EStateM.Result Stop Store α} {r r₁ r' : Run}
  {post : α → Store → Run → Prop} {s : Store}

theorem ok {a : α} (h : post a s r) : Simulates n (.ok a s) r post :=
  ⟨0, r, rfl, h⟩

theorem fault {e : Fault} (h : Exec.step r = .error e r') :
    Simulates n (.error (.fault e) s) r post :=
  ⟨0, r, r', rfl, h⟩

theorem steps (h : Run.Steps k r r₁) (h' : Simulates n out r₁ post) : Simulates n out r post := by
  match out, h' with
  | .ok a s, ⟨j, r', hj, hp⟩ => exact ⟨k + j, r', h.trans hj, hp⟩
  | .error (.fault e) _, ⟨j, r', r'', hj, he⟩ => exact ⟨k + j, r', r'', h.trans hj, he⟩
  | .error .unfinished _, ⟨j, r', hn, hj⟩ => exact ⟨k + j, r', by omega, h.trans hj⟩

theorem goes (h : Run.Goes r r₁) (h' : Simulates n out r₁ post) : Simulates n out r post :=
  h.elim fun _ h => steps h h'

theorem step (h : Exec.step r = .ok none r₁) (h' : Simulates n out r₁ post) :
    Simulates n out r post :=
  steps (.one h) h'

/-- A step counts for one call or round. -/
theorem step_succ (h : Exec.step r = .ok none r₁) (h' : Simulates n out r₁ post) :
    Simulates (n + 1) out r post := by
  match out, h' with
  | .ok a s, ⟨j, r', hj, hp⟩ => exact ⟨j + 1, r', ⟨r₁, h, hj⟩, hp⟩
  | .error (.fault e) _, ⟨j, r', r'', hj, he⟩ => exact ⟨j + 1, r', r'', ⟨r₁, h, hj⟩, he⟩
  | .error .unfinished _, ⟨j, r', hn, hj⟩ => exact ⟨j + 1, r', by omega, ⟨r₁, h, hj⟩⟩

theorem mono {post' : α → Store → Run → Prop} (h : Simulates n out r post)
    (hp : ∀ a s r, post a s r → post' a s r) : Simulates n out r post' := by
  match out, h with
  | .ok a s, ⟨j, r', hj, hpost⟩ => exact ⟨j, r', hj, hp a s r' hpost⟩
  | .error (.fault e) _, h => exact h
  | .error .unfinished _, h => exact h

/-- Some more steps once the result is there. -/
theorem andThen {post' : α → Store → Run → Prop} (h : Simulates n out r post)
    (hp : ∀ a s r, post a s r → ∃ r', Run.Goes r r' ∧ post' a s r') :
    Simulates n out r post' := by
  match out, h with
  | .ok a s, ⟨j, r', hj, hpost⟩ =>
    obtain ⟨r'', ⟨i, hi⟩, hpost'⟩ := hp a s r' hpost
    exact ⟨j + i, r'', hj.trans hi, hpost'⟩
  | .error (.fault e) _, h => exact h
  | .error .unfinished _, h => exact h

theorem of_le {m : Nat} (h : Simulates m out r post) (hn : n ≤ m) : Simulates n out r post := by
  match out, h with
  | .ok a s, h => exact h
  | .error (.fault e) _, h => exact h
  | .error .unfinished _, ⟨j, r', hj, h⟩ => exact ⟨j, r', Nat.le_trans hn hj, h⟩

/-- **One evaluation after the other.** -/
theorem bind {x : Eval α} {f : α → Eval β} {post' : β → Store → Run → Prop}
    (h : Simulates n (x s) r post)
    (h' : ∀ a s' r', post a s' r' → Simulates n (f a s') r' post') :
    Simulates n ((x >>= f) s) r post' := by
  show Simulates n (EStateM.bind x f s) r post'
  unfold EStateM.bind
  match hx : x s with
  | .ok a s' =>
    rw [hx] at h
    obtain ⟨k, r₁, hk, hpost⟩ := h
    exact steps hk (h' a s' r₁ hpost)
  | .error (.fault e) s' =>
    rw [hx] at h
    exact h
  | .error .unfinished s' =>
    rw [hx] at h
    exact h

/-- An action on the heap comes first. -/
theorem onHeap {f : Heap → α × Heap} {g : α → Eval β} {post' : β → Store → Run → Prop}
    (h : Simulates n (g (f s.heap).1 ⟨(f s.heap).2, s.functions⟩) r post') :
    Simulates n ((Eval.onHeap f >>= g) s) r post' :=
  h

end Simulates

end Reified
