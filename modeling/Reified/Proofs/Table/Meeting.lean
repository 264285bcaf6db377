import Mathlib.Data.Prod.Lex
import Mathlib.Tactic.SplitIfs
import Reified.Proofs.Ty.Subst
import Reified.Ty.Unify

/-!
# Unification as a recursion

`Table.unify` allows itself a number of steps through bindings, so that it can be defined at all. This
module states the recursion that it stands for, in which no bound occurs: a computation that calls itself,
is given the answer, and goes on. Such a computation may or may not return; whether it does is said by a
relation that executes calls within calls.

Once the two types have been replaced by their representatives, what is to be done depends on nothing but
their outermost forms. This is the `Meeting` of two types: bind a variable, unify pairs of parts one after
the other, try one pair and then another, or fail.

## Main definitions

* `Calling` — computations that call a function
* `Calling.eval`, `Calling.Returns` — the answer, given the answers of a function, or by executing all calls
* `Ty.meet`, `Table.handle` — what is to be done with two representatives, and doing it
* `Table.unifyBody` — the recursion

## Main results

* `Calling.Returns.unique` — there is at most one answer
* `Calling.terminates` — solutions of the recursion equation are what it computes where calls get smaller
* `Table.unifyForms_eq` — the bounded unification of two representatives follows the recursion
-/

namespace Reified

/-! ## Computations that call a function -/

/-- A computation that calls a function: an answer, or a call and what is done with the answer to it. -/
inductive Calling (α β : Type) where
  | ret (y : β)
  | call (x : α) (next : β → Calling α β)

namespace Calling

variable {α β : Type} {f g : α → β} {P Q : α → Prop} {body : α → Calling α β} {c : Calling α β}

/-- The answer of the computation if a given function answers its calls. -/
def eval (f : α → β) : Calling α β → β
  | ret y => y
  | call x next => (next (f x)).eval f

/-- All calls that are made have a property, if a given function answers them. -/
def Asks (f : α → β) (P : α → Prop) : Calling α β → Prop
  | ret _ => True
  | call x next => P x ∧ (next (f x)).Asks f P

/-- The computation returns an answer after `n` calls altogether. Each call is executed by `body`, which
calls in turn. -/
inductive Returns (body : α → Calling α β) : Calling α β → Nat → β → Prop where
  | ret (y : β) : Returns body (ret y) 0 y
  | call {x : α} {next : β → Calling α β} {m n : Nat} {z y : β} : Returns body (body x) m z →
    Returns body (next z) n y → Returns body (call x next) (m + n + 1) y

theorem Asks.mono (h : c.Asks f P) (hPQ : ∀ x, P x → Q x) : c.Asks f Q := by
  induction c with
  | ret y => trivial
  | call x next ih => exact ⟨hPQ x h.1, ih _ h.2⟩

/-- Only the answers to the calls that are made matter. -/
theorem eval_congr (h : c.Asks f fun x => f x = g x) : c.eval f = c.eval g := by
  induction c with
  | ret y => rfl
  | call x next ih =>
    rw [eval, eval, ← h.1]
    exact ih _ h.2

theorem returns_eval (hP : ∀ x, P x → ∃ n, Returns body (body x) n (f x)) (h : c.Asks f P) :
    ∃ n, Returns body c n (c.eval f) := by
  induction c with
  | ret y => exact ⟨0, .ret y⟩
  | call x next ih =>
    obtain ⟨m, hm⟩ := hP x h.1
    obtain ⟨n, hn⟩ := ih _ h.2
    exact ⟨_, .call hm hn⟩

/-- There is at most one answer, and one number of calls. -/
theorem Returns.unique {m n : Nat} {y z : β} (h : Returns body c m y) (h' : Returns body c n z) :
    m = n ∧ y = z := by
  induction h generalizing n z with
  | ret y =>
    cases h'
    exact ⟨rfl, rfl⟩
  | call _ _ ih ih' =>
    cases h' with
    | call h₁ h₂ =>
      obtain ⟨rfl, rfl⟩ := ih h₁
      obtain ⟨rfl, rfl⟩ := ih' h₂
      exact ⟨rfl, rfl⟩

/-- **A solution of the recursion equation is what the recursion computes** on problems for which every call
is about a smaller one. -/
theorem terminates {μ : α → Nat × Nat} (heval : ∀ x, P x → (body x).eval f = f x)
    (hasks : ∀ x, P x → (body x).Asks f fun y => P y ∧ Prod.Lex (· < ·) (· < ·) (μ y) (μ x)) (x : α)
    (hx : P x) : ∃ n, Returns body (body x) n (f x) := by
  induction h : μ x using (Prod.lex Nat.lt_wfRel Nat.lt_wfRel).wf.induction generalizing x with
  | _ m ih =>
    subst h
    rw [← heval x hx]
    exact returns_eval (fun y hy => ih _ hy.2 y hy.1 rfl) (hasks x hx)

end Calling

/-! ## Two representatives -/

/-- What is to be done when two representatives meet. -/
inductive Meeting where
  | bind (v : TyVar) (t : Ty)
  /-- All of the pairs are to be unified. After that a field is missing, or all is done. -/
  | all (pairs : List (Ty × Ty)) (missing : Option (String × Ty))
  /-- The second pair is to be unified if the first one cannot be. -/
  | either (first second : Ty × Ty)
  | arity (expected found : Nat)
  | clash

/-- The types of each field of a record and of the field with its name in another record, up to the first
field that the other one does not have. -/
def pairFields (gs : List (String × Ty)) : List (String × Ty) → List (Ty × Ty) × Option String
  | [] => ([], none)
  | (name, t) :: fs =>
    match Fields.get? name gs with
    | none => ([], some name)
    | some u => ((t, u) :: (pairFields gs fs).1, (pairFields gs fs).2)

/-- What is to be done is decided by the outermost forms of the two types. -/
def Ty.meet : Ty → Ty → Meeting
  | .binding _ t, b => .all [(t, b)] none
  | a, .binding _ t => .all [(a, t)] none
  | .var v, .var w =>
    if v.id = w.id then .all [] none
    else if !v.rigid then .bind v (.var w)
    else if !w.rigid then .bind w (.var v)
    else .clash
  | .var v, .union l r => if !v.rigid then .bind v (.union l r) else .either (.var v, l) (.var v, r)
  | .var v, b => if !v.rigid then .bind v b else .clash
  | .union l r, .var w => if !w.rigid then .bind w (.union l r) else .either (l, .var w) (r, .var w)
  | a, .var w => if !w.rigid then .bind w a else .clash
  | .union l r, b => .either (l, b) (r, b)
  | a, .union l r => .either (a, l) (a, r)
  | .name m, .name k => if m = k then .all [] none else .clash
  | .array t, .array u => .all [(t, u)] none
  | .tuple ts, .tuple us =>
    if ts.length = us.length then .all (ts.zip us) none else .arity ts.length us.length
  | .record fs, .record gs =>
    .all (pairFields gs fs).1 (match (pairFields gs fs).2 with
      | some field => some (field, .record gs)
      | none => (gs.find? fun g => !Fields.has g.1 fs).map fun g => (g.1, .record fs))
  | .fn ps r _, .fn qs s _ =>
    if ps.length = qs.length then .all ((ps ++ [r]).zip (qs ++ [s])) none
    else .arity ps.length qs.length
  | _, _ => .clash

/-- The pairs of types that may have to be unified. -/
def Meeting.Poses : Meeting → Ty × Ty → Prop
  | .all pairs _, p => p ∈ pairs
  | .either first second, p => p = first ∨ p = second
  | _, _ => False

theorem mem_pairFields {fs gs : List (String × Ty)} {p : Ty × Ty} (h : p ∈ (pairFields gs fs).1) :
    (∃ f ∈ fs, f.2 = p.1) ∧ ∃ g ∈ gs, g.2 = p.2 := by
  induction fs with
  | nil => simp [pairFields] at h
  | cons f fs ih =>
    obtain ⟨name, t⟩ := f
    rw [pairFields] at h
    split at h
    · simp at h
    · next u hu =>
      rcases List.mem_cons.mp h with rfl | h
      · exact ⟨⟨(name, t), by simp, rfl⟩, _, Fields.mem_of_get?_eq_some hu, rfl⟩
      · obtain ⟨⟨f, hf, hft⟩, hg⟩ := ih h
        exact ⟨⟨f, List.mem_cons_of_mem _ hf, hft⟩, hg⟩

/-- The pair has a part of one of the two types, and beside it a part of the other one or all of it. -/
inductive Ty.Descends (a b : Ty) : Ty × Ty → Prop where
  | left {c : Ty} : c.Part a → Descends a b (c, b)
  | right {d : Ty} : d.Part b → Descends a b (a, d)
  | both {c d : Ty} : c.Part a → d.Part b → Descends a b (c, d)

/-- Only parts are compared. -/
theorem Ty.descends_of_poses {a b : Ty} {p : Ty × Ty} (h : (a.meet b).Poses p) : a.Descends b p := by
  rw [Ty.meet.eq_def] at h
  split at h <;> (try split_ifs at h) <;>
    simp only [Meeting.Poses, List.mem_singleton, List.not_mem_nil] at h
  · exact h ▸ .left .inner
  · exact h ▸ .right .inner
  · rcases h with rfl | rfl
    · exact .right .left
    · exact .right .right
  · rcases h with rfl | rfl
    · exact .left .left
    · exact .left .right
  · rcases h with rfl | rfl
    · exact .left .left
    · exact .left .right
  · rcases h with rfl | rfl
    · exact .right .left
    · exact .right .right
  · exact h ▸ .both .array .array
  · obtain ⟨hc, hd⟩ := List.of_mem_zip h
    exact .both (.tuple hc) (.tuple hd)
  · obtain ⟨⟨f, hf, hft⟩, g, hg, hgt⟩ := mem_pairFields h
    obtain rfl : p = (f.2, g.2) := Prod.ext hft.symm hgt.symm
    exact .both (.record hf) (.record hg)
  · next hlen =>
    rw [List.zip_append hlen, List.mem_append] at h
    rcases h with h | h
    · obtain ⟨hc, hd⟩ := List.of_mem_zip h
      exact .both (.param hc) (.param hd)
    · obtain rfl : p = _ := by simpa using h
      exact .both .result .result

theorem Ty.Descends.sizeOf_lt {a b : Ty} {p : Ty × Ty} (h : a.Descends b p) :
    sizeOf p.1 + sizeOf p.2 < sizeOf a + sizeOf b := by
  cases h with
  | left hc => have := hc.sizeOf_lt; dsimp only; omega
  | right hd => have := hd.sizeOf_lt; dsimp only; omega
  | both hc hd => have := hc.sizeOf_lt; have := hd.sizeOf_lt; dsimp only; omega

namespace Table

/-- Unify the pairs one after the other, up to the first failure. -/
def unifyAll (missing : Option (String × Ty)) :
    List (Ty × Ty) → Table → Calling (Ty × Ty × Table) Unified
  | [], T =>
    .ret (match missing with
      | none => .ok () T
      | some (field, record) => T.missingField field record)
  | (a, b) :: pairs, T => .call (a, b, T) fun
    | .ok _ T => unifyAll missing pairs T
    | .error e T => .ret (.error e T)

/-- Do what is to be done when the representatives `a` and `b` meet. -/
def handle (a b : Ty) (T : Table) : Meeting → Calling (Ty × Ty × Table) Unified
  | .bind v t => .ret (T.bind v t)
  | .all pairs missing => unifyAll missing pairs T
  | .either p q => .call (p.1, p.2, T.snapshot.2) fun
    | .ok _ S => .ret (.ok () S.commit)
    | .error _ S => .call (q.1, q.2, S.rollback T.snapshot.1) fun
      | .ok _ S => .ret (.ok () S)
      | .error _ S => .ret (S.mismatch a b)
  | .arity m n => .ret (.error (.arity m n) T)
  | .clash => .ret (T.mismatch a b)

/-- **Unification as a recursion** on two types and a table. -/
def unifyBody : Ty × Ty × Table → Calling (Ty × Ty × Table) Unified
  | (a, b, T) =>
    let (a, T) := T.resolve a
    let (b, T) := T.resolve b
    handle a b T (a.meet b)

/-! ## The bounded recursion -/

variable {T : Table} {n : Nat} {a b : Ty} {f : Ty × Ty × Table → Unified}

/-- Unification through at most `n` bindings on each path, as a function of the problem. -/
def within (n : Nat) (p : Ty × Ty × Table) : Unified := unifyWithin n p.1 p.2.1 p.2.2

theorem eval_ite {p : Prop} [Decidable p] {x y : Meeting} : (handle a b T (if p then x else y)).eval f =
    if p then (handle a b T x).eval f else (handle a b T y).eval f := by
  split <;> rfl

@[simp] theorem eval_bind (v : TyVar) (t : Ty) : (handle a b T (.bind v t)).eval f = T.bind v t := rfl

@[simp] theorem eval_clash : (handle a b T .clash).eval f = T.mismatch a b := rfl

@[simp] theorem eval_arity (j k : Nat) :
    (handle a b T (.arity j k)).eval f = .error (.arity j k) T := rfl

@[simp] theorem eval_none : (handle a b T (.all [] none)).eval f = .ok () T := rfl

@[simp] theorem eval_one (c d : Ty) : (handle a b T (.all [(c, d)] none)).eval f = f (c, d, T) := by
  simp only [handle, unifyAll, Calling.eval]
  split
  · next h => exact h.symm
  · next h => exact h.symm

theorem eval_cons (missing : Option (String × Ty)) (p : Ty × Ty) (ps : List (Ty × Ty)) :
    (unifyAll missing (p :: ps) T).eval f =
      match f (p.1, p.2, T) with
      | .ok _ T => (unifyAll missing ps T).eval f
      | .error e T => .error e T := by
  rw [unifyAll, Calling.eval]
  cases f (p.1, p.2, T) <;> rfl

theorem eval_append (missing : Option (String × Ty)) (ps qs : List (Ty × Ty)) :
    (unifyAll missing (ps ++ qs) T).eval f =
      match (unifyAll none ps T).eval f with
      | .ok _ T => (unifyAll missing qs T).eval f
      | .error e T => .error e T := by
  induction ps generalizing T with
  | nil => rfl
  | cons p ps ih =>
    rw [List.cons_append, eval_cons, eval_cons]
    cases f (p.1, p.2, T) with
    | ok _ S => exact ih
    | error e S => rfl

theorem eval_either (p q : Ty × Ty) : (handle a b T (.either p q)).eval f =
    match f (p.1, p.2, T.snapshot.2) with
    | .ok _ S => .ok () S.commit
    | .error _ S =>
      match f (q.1, q.2, S.rollback T.snapshot.1) with
      | .ok _ S => .ok () S
      | .error _ S => S.mismatch a b := by
  rw [handle, Calling.eval]
  cases f (p.1, p.2, T.snapshot.2) with
  | ok _ S => rfl
  | error e S =>
    dsimp only
    rw [Calling.eval]
    cases f (q.1, q.2, S.rollback T.snapshot.1) <;> rfl

theorem unifyLists_eq {ts us : List Ty} (h : ts.length = us.length) :
    unifyLists n ts us T = (unifyAll none (ts.zip us) T).eval (within n) := by
  induction ts generalizing us T with
  | nil =>
    rw [unifyLists.eq_def]
    rfl
  | cons t ts ih =>
    cases us with
    | nil => simp at h
    | cons u us =>
      rw [unifyLists, List.zip_cons_cons, eval_cons, within]
      cases unifyWithin n t u T with
      | ok _ S => exact ih (by simpa using h)
      | error e S => rfl

theorem unifyFields_of_none {name : String} {t : Ty} {fs gs : List (String × Ty)}
    (h : Fields.get? name gs = none) :
    unifyFields n ((name, t) :: fs) gs T = T.missingField name (.record gs) := by
  rw [unifyFields]
  split
  · rfl
  · next u hu => rw [h] at hu; cases hu

theorem unifyFields_of_some {name : String} {t u : Ty} {fs gs : List (String × Ty)}
    (h : Fields.get? name gs = some u) : unifyFields n ((name, t) :: fs) gs T =
      match unifyWithin n t u T with
      | .ok _ T => unifyFields n fs gs T
      | .error e T => .error e T := by
  rw [unifyFields]
  split
  · next hnone => rw [h] at hnone; cases hnone
  · next w hw =>
    cases h.symm.trans hw
    rfl

theorem unifyFields_eq {fs gs : List (String × Ty)} (missing : Option (String × Ty)) :
    (unifyAll (match (pairFields gs fs).2 with
        | some field => some (field, .record gs)
        | none => missing) (pairFields gs fs).1 T).eval (within n) =
      match unifyFields n fs gs T with
      | .ok _ T => (unifyAll missing [] T).eval (within n)
      | .error e T => .error e T := by
  induction fs generalizing T with
  | nil =>
    rw [unifyFields]
    rfl
  | cons f fs ih =>
    obtain ⟨name, t⟩ := f
    cases h : Fields.get? name gs with
    | none =>
      simp only [unifyFields_of_none h, pairFields, h]
      rfl
    | some u =>
      simp only [unifyFields_of_some h, pairFields, h, eval_cons, within]
      cases unifyWithin n t u T with
      | ok _ S => exact ih
      | error e S => rfl

theorem unifyExpectedUnion_eq (l r : Ty) : unifyExpectedUnion n l r b T =
    (handle (.union l r) b T (.either (l, b) (r, b))).eval (within n) := by
  rw [unifyExpectedUnion, eval_either]
  rfl

theorem unifyFoundUnion_eq (l r : Ty) : unifyFoundUnion n a l r T =
    (handle a (.union l r) T (.either (a, l) (a, r))).eval (within n) := by
  rw [unifyFoundUnion, eval_either]
  rfl

/-- **The bounded unification of two representatives** does what is to be done when they meet, and passes the
bound on. -/
theorem unifyForms_eq (n : Nat) (a b : Ty) (T : Table) :
    unifyForms n a b T = (handle a b T (a.meet b)).eval (within n) := by
  cases a <;> cases b <;>
    simp only [unifyForms.eq_def, Ty.meet, eval_ite, eval_bind, eval_clash, eval_arity, eval_none, eval_one,
      within, unifyExpectedUnion_eq, unifyFoundUnion_eq]
  case tuple.tuple ts us =>
    split
    · next h => exact unifyLists_eq h
    · rfl
  case record.record fs gs =>
    rw [handle, unifyFields_eq]
    cases unifyFields n fs gs T with
    | ok _ S => cases gs.find? fun g => !Fields.has g.1 fs <;> rfl
    | error e S => rfl
  case fn.fn ps r j qs s k =>
    split
    · next h =>
      rw [handle, List.zip_append h, eval_append, ← unifyLists_eq h]
      cases unifyLists n ps qs T with
      | ok _ S =>
        have h1 := eval_one (T := S) (f := within n) (a := r) (b := s) r s
        exact h1.symm
      | error e S => rfl
    · rfl

end Table

end Reified
