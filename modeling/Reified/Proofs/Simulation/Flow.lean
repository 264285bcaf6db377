import Reified.Proofs.Simulation.Expr

/-!
# Where a statement leaves a run

A statement that completes leaves its value in its register. A jump out of a loop leaves the run one
step before a label of the loop, with the scopes closed that were opened inside it; a return leaves it
at an instruction that leaves the block.

## Main definitions

* `Reached` — a position has been reached
* `Surrounded` — the loop around a statement
* `Left` — where a statement leaves a run

## Main results

* `simulates_loop` — rounds of a loop
* `simulates_pattern` — the code for a pattern follows its evaluation
-/

namespace Reified

open Builder Lower

/-! ## Positions -/

/-- The run is at a position of the block, in a given environment of the store, and the registers `P`
are as they were. -/
def Reached (k : Context) (ρ : Nat → Nat) (s : Store) (e q : Nat) (P : Nat → Prop)
    (regs : Array Value) (s' : Store) (r' : Run) : Prop :=
  ∃ ρ' m' regs', r' = k.run m' (ρ' e) q regs' ∧ Shows ρ' s' m'.heap ∧ Moves ρ s ρ' s' ∧
    Keeps P regs regs'

/-- One more step leads to a position of the block. -/
def Jumps (k : Context) (ρ : Nat → Nat) (s : Store) (e q : Nat) (P : Nat → Prop)
    (regs : Array Value) (s' : Store) (r' : Run) : Prop :=
  ∃ r₁, Exec.step r' = .ok none r₁ ∧ Reached k ρ s e q P regs s' r₁

/-- Some more steps lead to a position of the block. -/
def Comes (k : Context) (ρ : Nat → Nat) (s : Store) (e q : Nat) (P : Nat → Prop)
    (regs : Array Value) (s' : Store) (r' : Run) : Prop :=
  ∃ r₁, Run.Goes r' r₁ ∧ Reached k ρ s e q P regs s' r₁

/-- The run is about to leave the block with a value. -/
def Leaves (k : Context) (ρ : Nat → Nat) (s : Store) (v : Value) (s' : Store) (r' : Run) : Prop :=
  ∃ ρ' m' e' q dst regs', r' = k.run m' e' q regs' ∧ k.block.code[q]? = some (.leave dst) ∧
    regs'[dst.index]? = some v ∧ Shows ρ' s' m'.heap ∧ Moves ρ s ρ' s' ∧ s'.Holds v

/-- From an environment, another one is so many environments outward. -/
def Store.Outward (s : Store) : Nat → Nat → Nat → Prop
  | 0, e, o => e = o
  | n + 1, e, o => ∃ e', s.heap.parent? e = some e' ∧ e' < e ∧ s.Outward n e' o

/-- What is known around a statement that is executed in the environment `e`: nothing is checked, no
parameters are inferred, and the innermost loop is executed in the environment `o`. -/
structure Surrounded (F : Builder) (s : Store) (e o : Nat) (place : Place) : Prop where
  checks : place.checks = false
  implicit : place.implicit = []
  loop : ∀ {l : LoopLabels}, place.loop = some l → (∃ p, F.At l.breakLabel p) ∧
    (∃ p, F.At l.continueLabel p) ∧ l.scopeDepth ≤ place.scopeDepth ∧
    s.Outward (place.scopeDepth - l.scopeDepth) e o

/-- Where a statement leaves a run. -/
def Left (F : Builder) (k : Context) (place : Place) (ρ : Nat → Nat) (s : Store) (e o q : Nat)
    (P : Nat → Prop) (regs : Array Value) (dst : Register) (flow : Flow) (s' : Store)
    (r' : Run) : Prop :=
  match flow with
  | .value v => Done k ρ s e q P regs dst v s' r'
  | .breakLoop => ∃ l p, place.loop = some l ∧ F.At l.breakLabel p ∧ Jumps k ρ s o p P regs s' r'
  | .continueLoop =>
    ∃ l p, place.loop = some l ∧ F.At l.continueLabel p ∧ Jumps k ρ s o p P regs s' r'
  | .returned v => Leaves k ρ s v s' r'

section left

variable {F : Builder} {k : Context} {place : Place} {ρ ρ₁ ρ' : Nat → Nat} {s s₁ s' : Store}
  {m : Machine} {e o o' q n : Nat} {P Q : Nat → Prop} {regs regs₁ : Array Value} {dst : Register}
  {v : Value} {flow : Flow} {r' : Run}

theorem Done.reached (h : Done k ρ s e q P regs dst v s' r') : Reached k ρ s e q P regs s' r' := by
  obtain ⟨ρ', m', regs', hr, hs, hm, hkeeps, -⟩ := h
  exact ⟨ρ', m', regs', hr, hs, hm, hkeeps⟩

theorem Reached.refl (hs : Shows ρ s m.heap) :
    Reached k ρ s e q P regs s (k.run m (ρ e) q regs) :=
  ⟨ρ, m, regs, rfl, hs, .refl ρ s, .refl regs⟩

theorem Reached.comes (h : Reached k ρ s e q P regs s' r') : Comes k ρ s e q P regs s' r' :=
  ⟨r', .refl r', h⟩

theorem Jumps.comes (h : Jumps k ρ s e q P regs s' r') : Comes k ρ s e q P regs s' r' := by
  obtain ⟨r₁, hstep, h⟩ := h
  exact ⟨r₁, .one hstep, h⟩

theorem Reached.mono (h : Reached k ρ s e q Q regs s' r') (hPQ : ∀ i, P i → Q i) :
    Reached k ρ s e q P regs s' r' := by
  obtain ⟨ρ', m', regs', hr, hs, hm, hkeeps⟩ := h
  exact ⟨ρ', m', regs', hr, hs, hm, hkeeps.mono hPQ⟩

theorem Reached.after (hm : Moves ρ s ρ₁ s₁) (hkeeps : Keeps P regs regs₁)
    (h : Reached k ρ₁ s₁ e q P regs₁ s' r') : Reached k ρ s e q P regs s' r' := by
  obtain ⟨ρ', m', regs', hr, hs, hm', hkeeps'⟩ := h
  exact ⟨ρ', m', regs', hr, hs, hm.trans hm', hkeeps.trans hkeeps'⟩

theorem Jumps.mono (h : Jumps k ρ s e q Q regs s' r') (hPQ : ∀ i, P i → Q i) :
    Jumps k ρ s e q P regs s' r' := by
  obtain ⟨r₁, hstep, h⟩ := h
  exact ⟨r₁, hstep, h.mono hPQ⟩

theorem Jumps.after (hm : Moves ρ s ρ₁ s₁) (hkeeps : Keeps P regs regs₁)
    (h : Jumps k ρ₁ s₁ e q P regs₁ s' r') : Jumps k ρ s e q P regs s' r' := by
  obtain ⟨r₁, hstep, h⟩ := h
  exact ⟨r₁, hstep, h.after hm hkeeps⟩

theorem Leaves.after (hm : Moves ρ s ρ₁ s₁) (h : Leaves k ρ₁ s₁ v s' r') :
    Leaves k ρ s v s' r' := by
  obtain ⟨ρ', m', e', q, dst, regs', hr, hc, hv, hs, hm', hh⟩ := h
  exact ⟨ρ', m', e', q, dst, regs', hr, hc, hv, hs, hm.trans hm', hh⟩

theorem Left.mono (h : Left F k place ρ s e o q Q regs dst flow s' r') (hPQ : ∀ i, P i → Q i) :
    Left F k place ρ s e o q P regs dst flow s' r' := by
  match flow, h with
  | .value v, h => exact Done.mono h hPQ
  | .breakLoop, ⟨l, p, hl, hp, h⟩ => exact ⟨l, p, hl, hp, h.mono hPQ⟩
  | .continueLoop, ⟨l, p, hl, hp, h⟩ => exact ⟨l, p, hl, hp, h.mono hPQ⟩
  | .returned v, h => exact h

/-- What is done after something else is done altogether. -/
theorem Left.after (hm : Moves ρ s ρ₁ s₁) (hkeeps : Keeps P regs regs₁)
    (h : Left F k place ρ₁ s₁ e o q P regs₁ dst flow s' r') :
    Left F k place ρ s e o q P regs dst flow s' r' := by
  match flow, h with
  | .value v, h => exact Done.after hm hkeeps h
  | .breakLoop, ⟨l, p, hl, hp, h⟩ => exact ⟨l, p, hl, hp, h.after hm hkeeps⟩
  | .continueLoop, ⟨l, p, hl, hp, h⟩ => exact ⟨l, p, hl, hp, h.after hm hkeeps⟩
  | .returned v, h => exact Leaves.after hm h

/-- Some more steps when a statement completes; a jump or a return goes elsewhere. -/
theorem Left.andThen {e' q' : Nat} {place' : Place} (h : Left F k place ρ s e o q P regs dst flow s' r')
    (hloop : place'.loop = place.loop)
    (hdone : ∀ v, Done k ρ s e q P regs dst v s' r' →
      ∃ r₁, Run.Goes r' r₁ ∧ Done k ρ s e' q' P regs dst v s' r₁) :
    ∃ r₁, Run.Goes r' r₁ ∧ Left F k place' ρ s e' o q' P regs dst flow s' r₁ := by
  match flow, h with
  | .value v, h => exact hdone v h
  | .breakLoop, ⟨l, p, hl, hp, h⟩ => exact ⟨r', .refl r', l, p, hloop.trans hl, hp, h⟩
  | .continueLoop, ⟨l, p, hl, hp, h⟩ => exact ⟨r', .refl r', l, p, hloop.trans hl, hp, h⟩
  | .returned v, h => exact ⟨r', .refl r', h⟩

/-! ## Scopes -/

theorem Store.Outward.mono (h : s.Outward n e o) (hm : Moves ρ s ρ' s')
    (he : e < s.heap.environments.size) : s'.Outward n e o := by
  induction n generalizing e with
  | zero => exact h
  | succ n ih =>
    obtain ⟨e', hparent, hlt, h⟩ := h
    exact ⟨e', (hm.parent he).trans hparent, hlt, ih h (Nat.lt_trans hlt he)⟩

theorem Store.Outward.le (h : s.Outward n e o) : o ≤ e := by
  induction n generalizing e with
  | zero => exact Nat.le_of_eq h.symm
  | succ n ih =>
    obtain ⟨e', -, hlt, h⟩ := h
    exact Nat.le_of_lt (Nat.lt_of_le_of_lt (ih h) hlt)

theorem Surrounded.mono (h : Surrounded F s e o place) (hm : Moves ρ s ρ' s')
    (he : e < s.heap.environments.size) : Surrounded F s' e o place := by
  refine ⟨h.checks, h.implicit, fun hl => ?_⟩
  obtain ⟨hbreak, hcontinue, hle, hout⟩ := h.loop hl
  exact ⟨hbreak, hcontinue, hle, hout.mono hm he⟩

/-- One scope further in. -/
theorem Surrounded.deeper (h : Surrounded F s e o place) (he : e < s.heap.environments.size) :
    Surrounded F ⟨(s.heap.newEnvironment (some e)).2, s.functions⟩ s.heap.environments.size o
      place.deeper := by
  refine ⟨h.checks, h.implicit, fun {l} hl => ?_⟩
  obtain ⟨hbreak, hcontinue, hle, hout⟩ := h.loop hl
  refine ⟨hbreak, hcontinue, Nat.le_succ_of_le hle, ?_⟩
  have hdepth : place.deeper.scopeDepth - l.scopeDepth =
      (place.scopeDepth - l.scopeDepth) + 1 := Nat.succ_sub hle
  rw [hdepth]
  refine ⟨e, ?_, he, hout.mono (Shows.moves_child id s 0 e) he⟩
  exact congrArg Environment.parent Heap.environment_newEnvironment_self

/-- The body of a loop. -/
theorem Surrounded.inLoop (h : Surrounded F s e o place) {exit next : Label} {p p' : Nat}
    (hexit : F.At exit p) (hnext : F.At next p') :
    Surrounded F s e e (place.inLoop exit next) := by
  refine ⟨h.checks, h.implicit, fun {l} hl => ?_⟩
  cases hl
  refine ⟨⟨p, hexit⟩, ⟨p', hnext⟩, Nat.le_refl _, ?_⟩
  show Store.Outward s (place.scopeDepth - place.scopeDepth) e e
  rw [Nat.sub_self]
  rfl

theorem At.unique {l : Label} {p p' : Nat} (h : F.At l p) (h' : F.At l p') : p = p' :=
  Option.some.inj (h.1.symm.trans h'.1)

/-- Scopes are closed one after the other. -/
theorem goes_closeScopes (hk : k.block = F.finish) {b b' : Builder}
    (h : closeScopes n b = .ok () b') (hF : b'.Before F) (hs : Shows ρ s m.heap)
    (he : e < s.heap.environments.size) (ho : s.Outward n e o) :
    Run.Goes (k.run m (ρ e) b.items.size regs) (k.run m (ρ o) b'.items.size regs) := by
  induction n generalizing e b with
  | zero =>
    obtain ⟨-, rfl⟩ := pure_eq_ok h
    cases ho
    exact .refl _
  | succ n ih =>
    obtain ⟨_, b₁, h₁, h₂⟩ := bind_eq_ok h
    obtain ⟨e', hparent, hlt, ho⟩ := ho
    have hF₁ := Tame.before (fun _ _ => safe_closeScopes n) h₂ hF
    obtain ⟨-, hcode, hsize, -⟩ := emit_spec h₁ hF₁
    rw [← hk] at hcode
    have hparent' : m.heap.parent? (ρ e) = some (ρ e') := by
      rw [hs.parent he, hparent]
      rfl
    have hstep := Context.step_popScope regs hcode hparent'
    rw [← hsize] at hstep
    exact (Run.Goes.one hstep).trans (ih h₂ (Nat.lt_trans hlt he) ho)

/-- A jump out of a loop closes the scopes that were opened inside it, and is taken. -/
theorem goes_leaveScopes (hk : k.block = F.finish) {choose : LoopLabels → Label} {b b' : Builder}
    (h : leaveScopes place choose b = .ok () b') (hF : b'.Before F) (hs : Shows ρ s m.heap)
    (he : e < s.heap.environments.size) (hplace : Surrounded F s e o place)
    (hat : ∀ {l}, place.loop = some l → ∃ p, F.At (choose l) p) :
    ∃ r₁ l p, Run.Goes (k.run m (ρ e) b.items.size regs) r₁ ∧ place.loop = some l ∧
      F.At (choose l) p ∧ Jumps k ρ s o p P regs s r₁ := by
  unfold leaveScopes at h
  cases hl : place.loop with
  | none =>
    rw [hl] at h
    obtain ⟨_, b₁, -, h⟩ := bind_eq_ok h
    cases h
  | some l =>
    rw [hl] at h
    obtain ⟨_, b₁, h₁, h₂⟩ := bind_eq_ok h
    obtain ⟨p, hp⟩ := hat hl
    obtain ⟨-, -, -, hout⟩ := hplace.loop hl
    obtain ⟨hF₁, ⟨t, ht, hcode⟩, -, -⟩ := jump_spec h₂ hF hp
    rw [← hk] at hcode
    exact ⟨_, l, p, goes_closeScopes hk h₁ hF₁ hs he hout, rfl, hp, _,
      Context.step_jump hcode ht, .refl hs⟩

/-- The environment of a scope is left. -/
theorem Reached.popScope {inner : Nat} (h : Reached k ρ s inner q P regs s' r')
    (hc : k.block.code[q]? = some .popScope) (hparent : s.heap.parent? inner = some e)
    (hinner : inner < s.heap.environments.size) :
    ∃ r₁, Exec.step r' = .ok none r₁ ∧ Reached k ρ s e (q + 1) P regs s' r₁ := by
  obtain ⟨ρ', m', regs', rfl, hs, hm, hkeeps⟩ := h
  have hparent' : m'.heap.parent? (ρ' inner) = some (ρ' e) := by
    rw [hs.parent (Nat.lt_of_lt_of_le hinner hm.size), hm.parent hinner, hparent]
    rfl
  exact ⟨_, Context.step_popScope regs' hc hparent', ρ', m', regs', rfl, hs, hm, hkeeps⟩

/-- A statement in a scope of its own is left. -/
theorem Left.popScope {inner : Nat}
    (h : Left F k place.deeper ρ s inner o q P regs dst flow s' r')
    (hc : k.block.code[q]? = some .popScope) (hparent : s.heap.parent? inner = some e)
    (hinner : inner < s.heap.environments.size) :
    ∃ r₁, Run.Goes r' r₁ ∧ Left F k place ρ s e o (q + 1) P regs dst flow s' r₁ := by
  refine h.andThen rfl fun v hv => ?_
  obtain ⟨ρ', m', regs', rfl, hs, hm, hkeeps, hv, hh⟩ := hv
  have hparent' : m'.heap.parent? (ρ' inner) = some (ρ' e) := by
    rw [hs.parent (Nat.lt_of_lt_of_le hinner hm.size), hm.parent hinner, hparent]
    rfl
  exact ⟨_, .one (Context.step_popScope regs' hc hparent'), ρ', m', regs', rfl, hs, hm, hkeeps,
    hv, hh⟩

/-- What is done in a new scope follows what is done in a new environment. -/
theorem simulates_pushScope {α : Type} {p : Nat} {y : Nat → Eval α} {post : α → Store → Run → Prop}
    (hc : k.block.code[p]? = some .pushScope) (hs : Shows ρ s m.heap)
    (he : e < s.heap.environments.size) (hplace : Surrounded F s e o place)
    (hy : ∀ {ρ₁ : Nat → Nat} {s₁ : Store} {m₁ : Machine} {inner : Nat}, Shows ρ₁ s₁ m₁.heap →
      Moves ρ s ρ₁ s₁ → inner < s₁.heap.environments.size → s₁.heap.parent? inner = some e →
      Surrounded F s₁ inner o place.deeper →
      Simulates n (y inner s₁) (k.run m₁ (ρ₁ inner) (p + 1) regs) post) :
    Simulates n ((Eval.child e >>= y) s) (k.run m (ρ e) p regs) post := by
  have hinner : s.heap.environments.size <
      (s.heap.newEnvironment (some e)).2.environments.size := by
    rw [Heap.size_newEnvironment]
    exact Nat.lt_succ_self _
  have hrest := @hy _ _ (m.withHeap _) _ (hs.child he)
    (Shows.moves_child ρ s m.heap.environments.size e) hinner
    (congrArg Environment.parent Heap.environment_newEnvironment_self) (hplace.deeper he)
  rw [Function.update_self] at hrest
  exact .step (Context.step_pushScope regs hc) (.onHeap hrest)

end left

/-! ## Loops -/

/-- Where the body of a loop leads: to the end of the round, behind the loop, or out of the function. -/
def Turns (after done : Store → Run → Prop) (leaves : Value → Store → Run → Prop) (flow : Flow) (s : Store) (r : Run) :
    Prop :=
  match flow with
  | .value _ | .continueLoop => after s r
  | .breakLoop => done s r
  | .returned v => leaves v s r

/-- **Rounds of a loop.** At the start of each round the run is where `start` says. -/
theorem simulates_loop {n : Nat} {test : Eval Bool} {body : Eval Flow} {next : Eval Unit}
    {start inside after done : Store → Run → Prop} {leaves : Value → Store → Run → Prop}
    (htest : ∀ s r, start s r → Simulates n (test s) r fun c s' r' =>
      if c then inside s' r' else done s' r')
    (hbody : ∀ s r, inside s r → Simulates n (body s) r (Turns after done leaves))
    (hnext : ∀ s r, after s r → Simulates n (next s) r fun _ s' r' =>
      ∃ r₁, Exec.step r' = .ok none r₁ ∧ start s' r₁)
    {j : Nat} (hj : j ≤ n) {s : Store} {r : Run} (hr : start s r) :
    Simulates j (Eval.loop test body next j s) r fun flow s' r' =>
      match flow with
      | .value v => v = .unit ∧ done s' r'
      | .returned v => leaves v s' r'
      | _ => False := by
  induction j generalizing s r with
  | zero => exact ⟨0, r, Nat.le_refl _, rfl⟩
  | succ j ih =>
    rw [Eval.loop]
    refine ((htest s r hr).of_le hj).bind fun c s₁ r₁ hc => ?_
    cases c with
    | false => exact .ok ⟨rfl, hc⟩
    | true =>
      refine ((hbody s₁ r₁ hc).of_le hj).bind fun flow s₂ r₂ hflow => ?_
      have hagain : after s₂ r₂ → Simulates (j + 1) ((do
          next
          Eval.loop test body next j) s₂) r₂ _ := fun hafter =>
        ((hnext s₂ r₂ hafter).of_le hj).bind fun _ s₃ r₃ ⟨r₄, hstep, hstart⟩ =>
          .step_succ hstep (ih (Nat.le_of_succ_le hj) hstart)
      cases flow with
      | value | continueLoop => exact hagain hflow
      | breakLoop => exact .ok ⟨rfl, hflow⟩
      | returned v => exact .ok hflow

/-! ## Patterns -/

section pattern

variable {F : Builder} {k : Context} {n q : Nat} {failed : Label} (hk : k.block = F.finish)
  (hfits : F.finish.Fits) (hfailed : F.At failed q)

include hk hfits hfailed

mutual

/-- The code for a pattern goes on if the value of a register matches, and to a label if it does
not. -/
theorem simulates_pattern : (p : Pattern) → ∀ {ρ : Nat → Nat} {s : Store} {m : Machine} {e : Nat}
    {regs : Array Value} {value : Register} {v : Value} {b b' : Builder},
    pattern value failed p b = .ok () b' → b'.Before F → Room F b value regs →
    regs[value.index]? = some v → s.Holds v → Shows ρ s m.heap → e < s.heap.environments.size →
    Simulates n (Eval.pattern e v p s) (k.run m (ρ e) b.items.size regs) fun c =>
      Reached k ρ s e (if c then b'.items.size else q) (fun i => i < b.next.toNat) regs
  | .ident name _, ρ, s, m, e, regs, value, v, b, b', h, hF, hroom, hv, hh, hs, he => by
    rw [pattern] at h
    obtain ⟨j, b₁, h₁, h₂⟩ := bind_eq_ok h
    obtain ⟨hF₁, hcode, hsize, -⟩ := emit_spec h₂ hF
    obtain ⟨-, hname, hitems₁, -⟩ := identifier_spec h₁ hF₁ hfits
    rw [← hk] at hcode hname
    rw [hitems₁] at hcode hsize
    rw [Eval.pattern, hsize]
    refine .step (Context.step_setLocal hcode hname hv) (.onHeap (.ok ?_))
    rw [if_pos rfl]
    exact ⟨ρ, m.withHeap _, regs, rfl, hs.define he hh name, Shows.moves_define ρ s e name v, .refl regs⟩
  | .any _, ρ, s, m, e, regs, value, v, b, b', h, hF, hroom, hv, hh, hs, he => by
    rw [pattern] at h
    obtain ⟨-, rfl⟩ := pure_eq_ok h
    rw [Eval.pattern]
    exact .ok (.refl hs)
  | .literal l _, ρ, s, m, e, regs, value, v, b, b', h, hF, hroom, hv, hh, hs, he => by
    rw [pattern] at h
    obtain ⟨expected, b₁, h₁, h⟩ := bind_eq_ok h
    obtain ⟨_, b₂, h₂, h⟩ := bind_eq_ok h
    obtain ⟨equal, b₃, h₃, h⟩ := bind_eq_ok h
    obtain ⟨_, b₄, h₄, h₅⟩ := bind_eq_ok h
    obtain ⟨hF₄, ⟨t, ht, hcode₅⟩, hsize₅, -⟩ := jumpIfFalse_spec h₅ hF hfailed
    obtain ⟨hF₃, hcode₄, hsize₄, -⟩ := emit_spec h₄ hF₄
    obtain ⟨hF₂, hindex₃, hnext₃, -, hfile₃, hitems₃⟩ := allocate_spec h₃ hF₃
    obtain ⟨hF₁, ⟨j, hc, hcode₂⟩, hsize₂, hnext₂⟩ := load_spec h₂ hF₂ hfits
    obtain ⟨-, hindex₁, hnext₁, -, hfile₁, hitems₁⟩ := allocate_spec h₁ hF₁
    have hlt := hroom.lt
    have hfile := hroom.file
    rw [← hk] at hc hcode₂ hcode₄ hcode₅
    rw [Eval.pattern, ← hitems₁, hsize₅]
    have hstep₂ := Context.step_loadConstant (m := m) (e := ρ e) hcode₂ hc
      (show expected.index < regs.size by omega)
    rw [← hsize₂, ← hitems₃] at hstep₂
    refine .step hstep₂ ?_
    have hkeeps₂ : Keeps (· ≠ expected.index) regs
        (regs.setIfInBounds expected.index l.constant.value) := .set fun hne => hne rfl
    have hexpected := getElem?_set (v := l.constant.value)
      (show expected.index < regs.size by omega)
    have hv₂ := (hkeeps₂.get (by omega : value.index ≠ expected.index)).trans hv
    generalize regs.setIfInBounds expected.index l.constant.value = regs₂ at *
    have hequal : equal.index < regs₂.size := by
      rw [hkeeps₂.size]
      omega
    have hstep₄ := Context.step_isEqual (m := m) (e := ρ e) hcode₄ hv₂ hexpected hequal
    rw [← hsize₄] at hstep₄
    refine .step hstep₄ ?_
    have hkeeps₄ : Keeps (· ≠ equal.index) regs₂
        (regs₂.setIfInBounds equal.index (.bool (v.same l.constant.value))) :=
      .set fun hne => hne rfl
    have htest := getElem?_set (v := .bool (v.same l.constant.value)) hequal
    have hkeeps : Keeps (fun i => i < b.next.toNat) regs
        (regs₂.setIfInBounds equal.index (.bool (v.same l.constant.value))) :=
      (hkeeps₂.mono fun i hi => by omega).trans (hkeeps₄.mono fun i hi => by omega)
    cases hsame : v.same l.constant.value with
    | true =>
      rw [hsame] at htest hkeeps
      exact .step (Context.step_jumpIfFalse_true hcode₅ htest)
        (.ok ⟨ρ, m, _, rfl, hs, .refl ρ s, hkeeps⟩)
    | false =>
      rw [hsame] at htest hkeeps
      exact .step (Context.step_jumpIfFalse_false hcode₅ htest ht)
        (.ok ⟨ρ, m, _, rfl, hs, .refl ρ s, hkeeps⟩)
  | .object entries _, ρ, s, m, e, regs, value, v, b, b', h, hF, hroom, hv, hh, hs, he => by
    rw [pattern] at h
    obtain ⟨test, b₁, h₁, h⟩ := bind_eq_ok h
    obtain ⟨_, b₂, h₂, h⟩ := bind_eq_ok h
    obtain ⟨_, b₃, h₃, h₄⟩ := bind_eq_ok h
    have hF₃ := Tame.before (fun _ _ => safe_patternEntries entries value failed) h₄ hF
    obtain ⟨hF₂, ⟨t, ht, hcode₃⟩, hsize₃, hnext₃⟩ := jumpIfFalse_spec h₃ hF₃ hfailed
    obtain ⟨hF₁, hcode₂, hsize₂, hnext₂⟩ := emit_spec h₂ hF₂
    obtain ⟨-, hindex₁, hnext₁, -, hfile₁, hitems₁⟩ := allocate_spec h₁ hF₁
    have hlt := hroom.lt
    have hfile := hroom.file
    have hsize := hroom.size
    rw [← hk] at hcode₂ hcode₃
    rw [Eval.pattern, ← hitems₁]
    have htest : test.index < regs.size := by omega
    have hstep₂ := Context.step_isCell (m := m) (e := ρ e) hcode₂ hv htest
    rw [← hsize₂] at hstep₂
    refine .step hstep₂ ?_
    have hkeeps : Keeps (· ≠ test.index) regs
        (regs.setIfInBounds test.index (.bool (decide (v.cellKind? = some .object)))) :=
      .set fun hne => hne rfl
    have hvalue := getElem?_set (v := .bool (decide (v.cellKind? = some .object))) htest
    have hv₂ := (hkeeps.get (by omega : value.index ≠ test.index)).trans hv
    have hsize' := hkeeps.size
    by_cases hcell : v.cellKind? = some .object
    · rw [decide_eq_true hcell] at hvalue hkeeps hv₂ hsize' ⊢
      rw [if_pos hcell]
      refine .step (Context.step_jumpIfFalse_true hcode₃ hvalue) ?_
      rw [← hsize₃]
      refine (simulates_patternEntries entries h₄ hF ⟨by omega, by omega, by omega⟩ hv₂ hh hs
        he).mono fun c s' r' hr => ?_
      exact (hr.mono fun i hi => by omega).after (.refl ρ s) (hkeeps.mono fun i hi => by omega)
    · rw [decide_eq_false hcell] at hvalue hkeeps ⊢
      rw [if_neg hcell]
      exact .step (Context.step_jumpIfFalse_false hcode₃ hvalue ht)
        (.ok ⟨ρ, m, _, rfl, hs, .refl ρ s, hkeeps.mono fun i hi => by omega⟩)

theorem simulates_patternEntries : (entries : List (String × Pattern)) → ∀ {ρ : Nat → Nat}
    {s : Store} {m : Machine} {e : Nat} {regs : Array Value} {value : Register} {v : Value}
    {b b' : Builder}, patternEntries value failed entries b = .ok () b' → b'.Before F →
    Room F b value regs → regs[value.index]? = some v → s.Holds v → Shows ρ s m.heap →
    e < s.heap.environments.size →
    Simulates n (Eval.patternEntries e v entries s) (k.run m (ρ e) b.items.size regs) fun c =>
      Reached k ρ s e (if c then b'.items.size else q) (fun i => i < b.next.toNat) regs
  | [], ρ, s, m, e, regs, value, v, b, b', h, hF, hroom, hv, hh, hs, he => by
    rw [patternEntries] at h
    obtain ⟨-, rfl⟩ := pure_eq_ok h
    rw [Eval.patternEntries]
    exact .ok (.refl hs)
  | (name, p) :: entries, ρ, s, m, e, regs, value, v, b, b', h, hF, hroom, hv, hh, hs, he => by
    rw [patternEntries] at h
    obtain ⟨field, b₁, h₁, h⟩ := bind_eq_ok h
    obtain ⟨j, b₂, h₂, h⟩ := bind_eq_ok h
    obtain ⟨_, b₃, h₃, h⟩ := bind_eq_ok h
    obtain ⟨_, b₄, h₄, h₅⟩ := bind_eq_ok h
    have hx₄ := Tame.extends (fun _ _ => safe_pattern p field failed) h₄
    have hF₄ := Tame.before (fun _ _ => safe_patternEntries entries value failed) h₅ hF
    obtain ⟨hF₂, ⟨t, ht, hcode₃⟩, hsize₃, hnext₃⟩ :=
      emitJump_spec h₃ (hx₄.before.trans hF₄) hfailed
    obtain ⟨hF₁, hname, hitems₂, hnext₂⟩ := identifier_spec h₂ hF₂ hfits
    obtain ⟨-, hindex₁, hnext₁, -, hfile₁, hitems₁⟩ := allocate_spec h₁ hF₁
    have hlt := hroom.lt
    have hfile := hroom.file
    have hsize := hroom.size
    have hnext₄ := hx₄.next
    rw [← hk] at hcode₃ hname
    rw [hitems₂, hitems₁] at hcode₃ hsize₃
    have heval : Eval.patternEntries e v ((name, p) :: entries) s =
        (match Exec.field? s.heap v name with
        | none => pure false
        | some x => do
          if ← Eval.pattern e x p then Eval.patternEntries e v entries
          else pure false : Eval Bool) s := by
      rw [Eval.patternEntries]
      rfl
    rw [heval]
    have hfield := hs.field? v name
    cases hx : Exec.field? s.heap v name with
    | none =>
      rw [hx] at hfield
      exact .step (Context.step_tryGetField_none hcode₃ hname hv hfield ht) (.ok (.refl hs))
    | some x =>
      rw [hx] at hfield
      have hd : field.index < regs.size := by omega
      have hstep := Context.step_tryGetField (m := m) (e := ρ e) hcode₃ hname hv hfield hd
      rw [← hsize₃] at hstep
      refine .step hstep ?_
      have hkeeps : Keeps (· ≠ field.index) regs (regs.setIfInBounds field.index x) :=
        .set fun hne => hne rfl
      have hsize' := hkeeps.size
      refine (simulates_pattern p h₄ hF₄ ⟨by omega, by omega, by omega⟩ (getElem?_set hd)
        (hs.holds_field hx) hs he).bind fun c s₁ r₁ hr => ?_
      obtain ⟨ρ₁, m₁, regs₁, rfl, hs₁, hm₁, hkeeps₁⟩ := hr
      have hsize₁ := hkeeps₁.size
      cases c with
      | true =>
        refine (simulates_patternEntries entries h₅ hF ⟨by omega, by omega, by omega⟩ ?_
          (hm₁.holds hh) hs₁ (Nat.lt_of_lt_of_le he hm₁.size)).mono fun c s' r' hr => ?_
        · rw [hkeeps₁.get (by omega), hkeeps.get (by omega), hv]
        · exact (hr.mono fun i hi => by omega).after hm₁
            ((hkeeps.mono fun i hi => by omega).trans (hkeeps₁.mono fun i hi => by omega))
      | false =>
        exact .ok ⟨ρ₁, m₁, regs₁, rfl, hs₁, hm₁,
          (hkeeps.mono fun i hi => by omega).trans (hkeeps₁.mono fun i hi => by omega)⟩

end

end pattern

end Reified
