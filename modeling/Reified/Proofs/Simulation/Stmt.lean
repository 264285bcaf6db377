import Reified.Proofs.Simulation.Function

/-!
# The code for statements follows their execution

The code for a statement leaves the run where the execution of the statement ends: with a value in
the register, one step before a label of the loop around, or at an instruction that leaves the block.

## Main definitions

* `StmtFollows`, `DeclFollows` — the code follows the execution

## Main results

* `stmtFollows` — for every statement
-/

namespace Reified

open Builder Lower

/-- The code for a statement follows its execution. -/
def StmtFollows (F : Builder) (k : Context) (call : Value → List Value → Eval Value) (n : Nat)
    (x : Stmt) : Prop :=
  ∀ ⦃ρ : Nat → Nat⦄ ⦃s : Store⦄ ⦃m : Machine⦄ ⦃e o : Nat⦄ ⦃place : Place⦄ ⦃dst : Register⦄
    ⦃b b' : Builder⦄ ⦃regs : Array Value⦄, Lower.stmt place x dst b = .ok () b' → b'.Before F →
    Room F b dst regs → Shows ρ s m.heap → e < s.heap.environments.size →
    Surrounded F s e o place →
    Simulates n (Eval.stmt call n e x s) (k.run m (ρ e) b.items.size regs)
      (Left F k place ρ s e o b'.items.size (fun i => i < b.next.toNat ∧ i ≠ dst.index) regs dst)

/-- The code for a declaration follows its execution. -/
def DeclFollows (F : Builder) (k : Context) (call : Value → List Value → Eval Value) (n : Nat)
    (x : Decl) : Prop :=
  ∀ ⦃ρ : Nat → Nat⦄ ⦃s : Store⦄ ⦃m : Machine⦄ ⦃e o : Nat⦄ ⦃place : Place⦄ ⦃dst : Register⦄
    ⦃b b' : Builder⦄ ⦃regs : Array Value⦄, Lower.decl place x dst b = .ok () b' → b'.Before F →
    Room F b dst regs → Shows ρ s m.heap → e < s.heap.environments.size →
    Surrounded F s e o place →
    Simulates n (Eval.decl call n e x s) (k.run m (ρ e) b.items.size regs)
      (Left F k place ρ s e o b'.items.size (fun i => i < b.next.toNat ∧ i ≠ dst.index) regs dst)

/-! ## Statements with an optional part -/

theorem Lower.stmt_cond (place : Place) (c : Expr) (x : Stmt) (y : Option Stmt) (span : Span)
    (dst : Register) :
    stmt place (.cond c x y span) dst = (do
      let r ← allocate
      expr place.implicit c r
      let otherwise ← newLabel
      let done ← newLabel
      jumpIfFalse r otherwise
      stmt place x dst
      jump done
      bind otherwise
      (match y with
        | some y => stmt place y dst
        | none => loadUnit dst)
      bind done) := by
  cases y <;> rw [stmt]

theorem Eval.stmt_cond (call : Value → List Value → Eval Value) (n e : Nat) (c : Expr) (x : Stmt)
    (y : Option Stmt) (span : Span) :
    Eval.stmt call n e (.cond c x y span) = (do
      if ← truth (← expr call e c) then stmt call n e x
      else
        match y with
        | some y => stmt call n e y
        | none => pure (.value .unit)) := by
  cases y <;> rw [Eval.stmt]

theorem Lower.stmt_cases (place : Place) (x : Expr) (cs : List (Pattern × Stmt)) (y : Option Stmt)
    (span : Span) (dst : Register) :
    stmt place (.cases x cs y span) dst = (do
      let r ← allocate
      expr place.implicit x r
      let done ← newLabel
      matchCases place r done cs dst
      (match y with
        | some y => stmt place y dst
        | none => noMatch)
      bind done) := by
  cases y <;> rw [stmt]

theorem Eval.stmt_cases (call : Value → List Value → Eval Value) (n e : Nat) (x : Expr)
    (cs : List (Pattern × Stmt)) (y : Option Stmt) (span : Span) :
    Eval.stmt call n e (.cases x cs y span) = (do
      let v ← expr call e x
      match ← matchCases call n e v cs with
      | some flow => pure flow
      | none =>
        match y with
        | some y => stmt call n e y
        | none => fail (.raised "All patterns failed to match")) := by
  cases y <;> rw [Eval.stmt] <;> rfl

section stmt

variable {F : Builder} {k : Context} {call : Value → List Value → Eval Value} {n : Nat}
  (hk : k.block = F.finish) (hfits : F.finish.Fits)

include hk hfits

/-! ## Simple statements -/

/-- The unit value is loaded. -/
theorem simulates_loadUnit {ρ : Nat → Nat} {s : Store} {m : Machine} {e : Nat} {dst : Register}
    {b b' : Builder} {regs : Array Value} (h : loadUnit dst b = .ok () b') (hF : b'.Before F)
    (hd : dst.index < regs.size) (hs : Shows ρ s m.heap) :
    b.Before F ∧ ∃ r', Run.Goes (k.run m (ρ e) b.items.size regs) r' ∧
      Done k ρ s e b'.items.size (· ≠ dst.index) regs dst .unit s r' := by
  obtain ⟨hb, ⟨j, hc, hcode⟩, hsize, -⟩ := load_spec h hF hfits
  rw [← hk] at hc hcode
  rw [hsize]
  exact ⟨hb, _, .one (Context.step_loadConstant hcode hc hd), .set hs hd trivial⟩

theorem stmtFollows_empty (span : Span) : StmtFollows F k call n (.empty span) := by
  intro ρ s m e o place dst b b' regs h hF hroom hs he hplace
  rw [stmt] at h
  obtain ⟨-, r', hgoes, hdone⟩ := simulates_loadUnit hk hfits (e := e) h hF hroom.size hs
  rw [Eval.stmt]
  exact .goes hgoes (.ok (hdone.mono fun i hi => hi.2))

omit hk hfits in
theorem stmtFollows_expr {x : Expr} (hx : ExprFollows F k call n x) :
    StmtFollows F k call n (.expr x) := by
  intro ρ s m e o place dst b b' regs h hF hroom hs he hplace
  rw [stmt, hplace.implicit] at h
  rw [Eval.stmt]
  exact (hx h hF hroom hs he).bind fun v s' r' hv => .ok hv

omit hfits in
theorem stmtFollows_breakLoop (span : Span) : StmtFollows F k call n (.breakLoop span) := by
  intro ρ s m e o place dst b b' regs h hF hroom hs he hplace
  rw [stmt] at h
  obtain ⟨r₁, l, p, hgoes, hleft⟩ := goes_leaveScopes hk h hF hs he hplace fun hl =>
    (hplace.loop hl).1
  rw [Eval.stmt]
  exact .goes hgoes (.ok ⟨l, p, hleft⟩)

omit hfits in
theorem stmtFollows_continueLoop (span : Span) : StmtFollows F k call n (.continueLoop span) := by
  intro ρ s m e o place dst b b' regs h hF hroom hs he hplace
  rw [stmt] at h
  obtain ⟨r₁, l, p, hgoes, hleft⟩ := goes_leaveScopes hk h hF hs he hplace fun hl =>
    (hplace.loop hl).2.1
  rw [Eval.stmt]
  exact .goes hgoes (.ok ⟨l, p, hleft⟩)

theorem stmtFollows_ret {x : Option Expr} (hx : ∀ y ∈ x, ExprFollows F k call n y) (span : Span) :
    StmtFollows F k call n (.ret x span) := by
  intro ρ s m e o place dst b b' regs h hF hroom hs he hplace
  rw [stmt, hplace.implicit] at h
  obtain ⟨r, b₁, h₁, h⟩ := bind_eq_ok h
  obtain ⟨_, b₂, h₂, h₃⟩ := bind_eq_ok h
  obtain ⟨hF₂, hcode, -, -⟩ := emit_spec h₃ hF
  have hF₁ := Tame.before (fun _ _ => safe_exprOrUnit r x) h₂ hF₂
  obtain ⟨-, hindex₁, hnext₁, -, hfile₁, hitems₁⟩ := allocate_spec h₁ hF₁
  have hfile := hroom.file
  rw [← hk] at hcode
  rw [← hitems₁]
  cases x with
  | none =>
    obtain ⟨-, r', hgoes, hdone⟩ :=
      simulates_loadUnit hk hfits (e := e) h₂ hF₂ (show r.index < regs.size by omega) hs
    obtain ⟨ρ', m', regs', rfl, hs', hm, -, hv, hh⟩ := hdone
    rw [Eval.stmt]
    exact .goes hgoes (.ok ⟨ρ', m', _, _, r, regs', rfl, hcode, hv, hs', hm, hh⟩)
  | some y =>
    rw [Eval.stmt]
    refine (hx y rfl h₂ hF₂ ⟨by omega, by omega, hfile⟩ hs he).bind fun v s' r' hv => .ok ?_
    obtain ⟨ρ', m', regs', rfl, hs', hm, -, hv, hh⟩ := hv
    exact ⟨ρ', m', _, _, r, regs', rfl, hcode, hv, hs', hm, hh⟩

/-- A name is defined as the value of its initializer. -/
theorem simulates_letDecl {d : LetDecl} (hd : ExprFollows F k call n d.init) {ρ : Nat → Nat}
    {s : Store} {m : Machine} {e o : Nat} {place : Place} {dst : Register} {b b' : Builder}
    {regs : Array Value} (h : Lower.letDecl place d dst b = .ok () b') (hF : b'.Before F)
    (hroom : Room F b dst regs) (hs : Shows ρ s m.heap) (he : e < s.heap.environments.size)
    (hplace : Surrounded F s e o place) :
    Simulates n (Eval.letDecl call e d s) (k.run m (ρ e) b.items.size regs) fun _ =>
      Done k ρ s e b'.items.size (fun i => i < b.next.toNat ∧ i ≠ dst.index) regs dst .unit := by
  have hcheck : initCheck place d dst = pure () := by
    unfold initCheck
    rw [hplace.checks]
    cases d.init.ty? <;> rfl
  unfold Lower.letDecl at h
  rw [hplace.implicit, hcheck, pure_bind] at h
  obtain ⟨_, b₁, h₁, h⟩ := bind_eq_ok h
  obtain ⟨j, b₂, h₂, h⟩ := bind_eq_ok h
  obtain ⟨_, b₃, h₃, h₄⟩ := bind_eq_ok h
  have hF₃ := Tame.before (fun _ _ => Safe.loadUnit dst) h₄ hF
  obtain ⟨hF₂, hcode, hsize₃, -⟩ := emit_spec h₃ hF₃
  obtain ⟨hF₁, hname, hitems₂, -⟩ := identifier_spec h₂ hF₂ hfits
  rw [← hk] at hcode hname
  rw [hitems₂] at hcode hsize₃
  unfold Eval.letDecl
  refine (hd h₁ hF₁ hroom hs he).bind fun v s₁ r₁ hv => ?_
  obtain ⟨ρ₁, m₁, regs₁, rfl, hs₁, hm₁, hkeeps₁, hv₁, hh₁⟩ := hv
  have hstep := Context.step_setLocal (m := m₁) (e := ρ₁ e) hcode hname hv₁
  have hs₂ := hs₁.define (Nat.lt_of_lt_of_le he hm₁.size) hh₁ d.name
  have hm₂ := Shows.moves_define ρ₁ s₁ e d.name v
  rw [← hsize₃] at hstep
  obtain ⟨-, r', hgoes, hdone⟩ := simulates_loadUnit hk hfits (e := e) h₄ hF
    (hkeeps₁.size ▸ hroom.size) (m := m₁.withHeap _) hs₂
  exact .step hstep (.goes hgoes (.ok
    ((hdone.mono fun i hi => hi.2).after (hm₁.trans hm₂) hkeeps₁)))

/-! ## Conditions -/

/-- What is executed when a condition is false. -/
theorem simulates_alternate {x : Option Stmt} (hx : ∀ y ∈ x, StmtFollows F k call n y)
    {ρ : Nat → Nat} {s : Store} {m : Machine} {e o : Nat} {place : Place} {dst : Register}
    {b b' : Builder} {regs : Array Value}
    (h : (match x with
      | some y => stmt place y dst
      | none => loadUnit dst) b = .ok () b') (hF : b'.Before F)
    (hroom : Room F b dst regs) (hs : Shows ρ s m.heap) (he : e < s.heap.environments.size)
    (hplace : Surrounded F s e o place) :
    Simulates n ((match x with
        | some y => Eval.stmt call n e y
        | none => pure (.value .unit) : Eval Flow) s) (k.run m (ρ e) b.items.size regs)
      (Left F k place ρ s e o b'.items.size (fun i => i < b.next.toNat ∧ i ≠ dst.index) regs
        dst) := by
  cases x with
  | none =>
    obtain ⟨-, r', hgoes, hdone⟩ := simulates_loadUnit hk hfits (e := e) h hF hroom.size hs
    exact .goes hgoes (.ok (hdone.mono fun i hi => hi.2))
  | some y => exact hx y rfl h hF hroom hs he hplace

theorem stmtFollows_cond {c : Expr} {x : Stmt} {y : Option Stmt} (hc : ExprFollows F k call n c)
    (hx : StmtFollows F k call n x) (hy : ∀ z ∈ y, StmtFollows F k call n z) (span : Span) :
    StmtFollows F k call n (.cond c x y span) := by
  intro ρ s m e o place dst b b' regs h hF hroom hs he hplace
  rw [stmt_cond, hplace.implicit] at h
  obtain ⟨r, b₁, h₁, h⟩ := bind_eq_ok h
  obtain ⟨_, b₂, h₂, h⟩ := bind_eq_ok h
  obtain ⟨otherwise, b₃, h₃, h⟩ := bind_eq_ok h
  obtain ⟨done, b₄, h₄, h⟩ := bind_eq_ok h
  obtain ⟨_, b₅, h₅, h⟩ := bind_eq_ok h
  obtain ⟨_, b₆, h₆, h⟩ := bind_eq_ok h
  obtain ⟨_, b₇, h₇, h⟩ := bind_eq_ok h
  obtain ⟨_, b₈, h₈, h⟩ := bind_eq_ok h
  obtain ⟨_, b₉, h₉, h₁₀⟩ := bind_eq_ok h
  have hx₂ := Tame.extends (fun _ _ => safe_expr c r) h₂
  have hx₄ := newLabel_extends h₄
  have hx₅ := Tame.extends (fun _ _ => Safe.jumpIfFalse r otherwise) h₅
  have hx₆ := Tame.extends (fun _ _ => safe_stmt x place dst) h₆
  have hx₇ := Tame.extends (fun _ _ => Safe.jump done) h₇
  have hx₉ : b₈.Extends b₈.labels.size b₈.next.toNat b₉ := by
    cases y with
    | none => exact Tame.extends (fun _ _ => Safe.loadUnit dst) h₉
    | some z => exact Tame.extends (fun _ _ => safe_stmt z place dst) h₉
  obtain ⟨hotherwise₃, -⟩ := newLabel_unbound h₃
  obtain ⟨hdone₄, hnumber₄⟩ := newLabel_unbound h₄
  have hne : otherwise.number ≠ done.number := by
    have := hotherwise₃.lt
    omega
  have hotherwise := hx₇.unbound (hx₆.unbound (hx₅.unbound (hx₄.unbound hotherwise₃)))
  have hdone := hx₉.unbound
    (bind_unbound h₈ (hx₇.unbound (hx₆.unbound (hx₅.unbound hdone₄))) hne)
  obtain ⟨hF₉, hatDone, hitems₁₀, -⟩ := bind_spec h₁₀ hdone hF hfits
  obtain ⟨hF₇, hat, hitems₈, hnext₈⟩ := bind_spec h₈ hotherwise (hx₉.before.trans hF₉) hfits
  obtain ⟨hF₆, ⟨t', ht', hcode₇⟩, hsize₇, hnext₇⟩ := jump_spec h₇ hF₇ hatDone
  obtain ⟨hF₄, ⟨t, ht, hcode₅⟩, hsize₅, hnext₅⟩ :=
    jumpIfFalse_spec h₅ (hx₆.before.trans hF₆) hat
  obtain ⟨hF₃, hitems₄, hnext₄⟩ := newLabel_spec h₄ hF₄
  obtain ⟨hF₂, hitems₃, hnext₃⟩ := newLabel_spec h₃ hF₃
  obtain ⟨-, hindex₁, hnext₁, -, hfile₁, hitems₁⟩ := allocate_spec h₁ (hx₂.before.trans hF₂)
  have hlt := hroom.lt
  have hfile := hroom.file
  have hsize := hroom.size
  have hnext₂ := hx₂.next
  have hnext₆ := hx₆.next
  rw [← hk] at hcode₅ hcode₇
  rw [hitems₄, hitems₃] at hcode₅ hsize₅
  rw [Eval.stmt_cond, hitems₁₀, ← hitems₁]
  refine (hc h₂ hF₂ ⟨by omega, by omega, hfile⟩ hs he).bind fun v s₁ r₁ hv => ?_
  obtain ⟨ρ₁, m₁, regs₁, rfl, hs₁, hm₁, hkeeps₁, hv₁, hh₁⟩ := hv
  have he₁ := Nat.lt_of_lt_of_le he hm₁.size
  have hsize₁ := hkeeps₁.size
  have hplace₁ := hplace.mono hm₁ he
  refine (simulates_jumpIfFalse hcode₅ hv₁ ht hs₁).bind fun c s₂ r₂ hc => ?_
  obtain ⟨rfl, rfl⟩ := hc
  cases c with
  | true =>
    rw [if_pos rfl, if_pos rfl, ← hsize₅]
    refine (hx h₆ hF₆ ⟨by omega, by omega, by omega⟩ hs₁ he₁ hplace₁).andThen
      fun flow s' r' hflow => ?_
    have hflow' : Left F k place ρ s e o b₆.items.size
        (fun i => i < b.next.toNat ∧ i ≠ dst.index) regs dst flow s' r' :=
      (hflow.mono fun i hi => by omega).after hm₁ (hkeeps₁.mono fun i hi => by omega)
    refine hflow'.andThen rfl fun w hw => ?_
    obtain ⟨ρ', m', regs', rfl, hdone'⟩ := hw
    exact ⟨_, .one (Context.step_jump hcode₇ ht'), ρ', m', regs', rfl, hdone'⟩
  | false =>
    rw [if_neg Bool.false_ne_true, if_neg Bool.false_ne_true, ← hitems₈]
    refine (simulates_alternate hk hfits hy h₉ hF₉ ⟨by omega, by omega, by omega⟩ hs₁ he₁
      hplace₁).mono fun flow s' r' hflow => ?_
    exact (hflow.mono fun i hi => by omega).after hm₁ (hkeeps₁.mono fun i hi => by omega)

/-! ## Blocks -/

omit hk hfits in
/-- Declarations are executed one after the other. -/
theorem simulates_decls {place : Place} {dst : Register} : (ds : List Decl) →
    (∀ d ∈ ds, DeclFollows F k call n d) → ∀ {ρ : Nat → Nat} {s : Store} {m : Machine} {e o : Nat}
    {last : Value} {b b' : Builder} {regs : Array Value}, decls place ds dst b = .ok () b' →
    b'.Before F → Room F b dst regs → Shows ρ s m.heap → e < s.heap.environments.size →
    Surrounded F s e o place → (ds = [] → regs[dst.index]? = some last ∧ s.Holds last) →
    Simulates n (Eval.decls call n e last ds s) (k.run m (ρ e) b.items.size regs)
      (Left F k place ρ s e o b'.items.size (fun i => i < b.next.toNat ∧ i ≠ dst.index) regs dst)
  | [], _, ρ, s, m, e, o, last, b, b', regs, h, hF, hroom, hs, he, hplace, hlast => by
    rw [decls] at h
    obtain ⟨-, rfl⟩ := pure_eq_ok h
    obtain ⟨hv, hh⟩ := hlast rfl
    rw [Eval.decls]
    exact .ok ⟨ρ, m, regs, rfl, hs, .refl ρ s, .refl regs, hv, hh⟩
  | d :: ds, hds, ρ, s, m, e, o, last, b, b', regs, h, hF, hroom, hs, he, hplace, hlast => by
    rw [decls] at h
    obtain ⟨mark, b₀, h₀, h⟩ := bind_eq_ok h
    obtain ⟨_, b₁, h₁, h⟩ := bind_eq_ok h
    obtain ⟨_, b₂, h₂, h₃⟩ := bind_eq_ok h
    obtain ⟨rfl, rfl⟩ := mark_spec h₀
    have hF₂ := Tame.before (fun _ _ => safe_decls ds place dst) h₃ hF
    obtain ⟨hF₁, hitems₂, hnext₂⟩ := release_spec h₂ hF₂
    have hlt := hroom.lt
    rw [Eval.decls]
    refine (hds d List.mem_cons_self h₁ hF₁ hroom hs he hplace).bind fun flow s₁ r₁ hflow => ?_
    match flow, hflow with
    | .value v, hflow =>
      obtain ⟨ρ₁, m₁, regs₁, rfl, hs₁, hm₁, hkeeps₁, hv₁, hh₁⟩ := hflow
      rw [← hitems₂]
      refine (simulates_decls ds (fun d hd => hds d (List.mem_cons_of_mem _ hd)) h₃ hF
        ⟨hnext₂ ▸ hlt, hkeeps₁.size ▸ hroom.size, hkeeps₁.size ▸ hroom.file⟩ hs₁
        (Nat.lt_of_lt_of_le he hm₁.size) (hplace.mono hm₁ he) fun _ => ⟨hv₁, hh₁⟩).mono
        fun flow s' r' hflow => ?_
      rw [hnext₂] at hflow
      exact hflow.after hm₁ hkeeps₁
    | .breakLoop, hflow => exact .ok hflow
    | .continueLoop, hflow => exact .ok hflow
    | .returned v, hflow => exact .ok hflow

/-- First the functions among some declarations are created, then the declarations are executed. -/
theorem simulates_sequence {ds : List Decl} (hplain : Decl.PlainList ds)
    (hds : ∀ d ∈ ds, DeclFollows F k call n d) {ρ : Nat → Nat} {s : Store} {m : Machine}
    {e o : Nat} {place : Place} {dst : Register} {b b' : Builder} {regs : Array Value}
    (h : sequence ds.isEmpty (functions place ds) (decls place ds dst) dst b = .ok () b')
    (hF : b'.Before F) (hroom : Room F b dst regs) (hs : Shows ρ s m.heap)
    (he : e < s.heap.environments.size) (hplace : Surrounded F s e o place) :
    Simulates n ((do
        Eval.functions e ds
        Eval.decls call n e .unit ds) s) (k.run m (ρ e) b.items.size regs)
      (Left F k place ρ s e o b'.items.size (fun i => i < b.next.toNat ∧ i ≠ dst.index) regs
        dst) := by
  obtain ⟨_, b₁, h₁, h₂⟩ := bind_eq_ok h
  have hx₁ := Tame.extends (fun _ _ => safe_functions ds place) h₁
  have hF₁ : b₁.Before F := Tame.before (x := if ds.isEmpty then loadUnit dst else
    decls place ds dst) (fun _ _ => .ite (.loadUnit dst) (safe_decls ds place dst)) h₂ hF
  have hlt := hroom.lt
  have hnext₁ := hx₁.next
  refine (simulates_functions hk hfits ds hplain hplace.checks h₁ hF₁ hroom.file hs he).bind
    fun _ s₁ r₁ hr => ?_
  obtain ⟨ρ₁, m₁, regs₁, rfl, hs₁, hm₁, hkeeps₁⟩ := hr
  have hsize₁ := hkeeps₁.size
  have hsize := hroom.size
  have hfile := hroom.file
  have hrest : Simulates n (Eval.decls call n e .unit ds s₁) (k.run m₁ (ρ₁ e) b₁.items.size regs₁)
      (Left F k place ρ₁ s₁ e o b'.items.size (fun i => i < b₁.next.toNat ∧ i ≠ dst.index) regs₁
        dst) := by
    cases ds with
    | nil =>
      obtain ⟨-, r', hgoes, hdone⟩ := simulates_loadUnit hk hfits (e := e) h₂ hF
        (hsize₁ ▸ hsize) hs₁
      rw [Eval.decls]
      exact .goes hgoes (.ok (hdone.mono fun i hi => hi.2))
    | cons d ds =>
      exact simulates_decls (d :: ds) hds h₂ hF ⟨by omega, by omega, by omega⟩ hs₁
        (Nat.lt_of_lt_of_le he hm₁.size) (hplace.mono hm₁ he) fun h => by cases h
  exact hrest.mono fun flow s' r' hflow =>
    (hflow.mono fun i hi => by omega).after hm₁ (hkeeps₁.mono fun i hi => by omega)

theorem stmtFollows_block {ds : List Decl} (hplain : Decl.PlainList ds)
    (hds : ∀ d ∈ ds, DeclFollows F k call n d) (span : Span) :
    StmtFollows F k call n (.block ds span) := by
  intro ρ s m e o place dst b b' regs h hF hroom hs he hplace
  rw [stmt] at h
  obtain ⟨_, b₁, h₁, h⟩ := bind_eq_ok h
  obtain ⟨_, b₂, h₂, h₃⟩ := bind_eq_ok h
  obtain ⟨hF₂, hcode₃, hsize₃, -⟩ := emit_spec h₃ hF
  have hF₁ := Tame.before (fun _ _ => safe_sequence (safe_functions ds place.deeper)
    (safe_decls ds place.deeper dst) ds.isEmpty dst) h₂ hF₂
  obtain ⟨-, hcode₁, hsize₁, hnext₁⟩ := emit_spec h₁ hF₁
  have hlt := hroom.lt
  rw [← hk] at hcode₁ hcode₃
  rw [Eval.stmt, hsize₃]
  refine simulates_pushScope hcode₁ hs he hplace fun hs₁ hm₁ hinner hparent hplace₁ => ?_
  rw [← hsize₁]
  refine (simulates_sequence hk hfits hplain hds h₂ hF₂ ⟨hnext₁ ▸ hlt, hroom.size, hroom.file⟩ hs₁
    hinner hplace₁).andThen fun flow s' r' hflow => ?_
  rw [hnext₁] at hflow
  obtain ⟨r'', hgoes, hleft⟩ := hflow.popScope hcode₃ hparent hinner
  exact ⟨r'', hgoes, hleft.after hm₁ (.refl regs)⟩

/-! ## Loops -/

omit hfits in
/-- The condition of a loop is evaluated; if it is false, the run goes to the label. -/
theorem simulates_loopTest {c : Option Expr} (hc : ∀ x ∈ c, ExprFollows F k call n x)
    {ρ : Nat → Nat} {s : Store} {m : Machine} {e p : Nat} {r : Register} {exit : Label}
    {b b' : Builder} {regs : Array Value} (h : loopTest [] r exit c b = .ok () b')
    (hF : b'.Before F) (hroom : Room F b r regs) (hs : Shows ρ s m.heap)
    (he : e < s.heap.environments.size) (hexit : F.At exit p) :
    Simulates n (Eval.condition call e c s) (k.run m (ρ e) b.items.size regs) fun c =>
      Reached k ρ s e (if c then b'.items.size else p)
        (fun i => i < b.next.toNat ∧ i ≠ r.index) regs := by
  cases c with
  | none =>
    obtain ⟨-, rfl⟩ := pure_eq_ok h
    exact .ok (.refl hs)
  | some x =>
    obtain ⟨_, b₁, h₁, h₂⟩ := bind_eq_ok h
    obtain ⟨hF₁, ⟨t, ht, hcode⟩, hsize, -⟩ := jumpIfFalse_spec h₂ hF hexit
    rw [← hk] at hcode
    refine (hc x rfl h₁ hF₁ hroom hs he).bind fun v s₁ r₁ hv => ?_
    obtain ⟨ρ₁, m₁, regs₁, rfl, hs₁, hm₁, hkeeps₁, hv₁, -⟩ := hv
    refine (simulates_jumpIfFalse hcode hv₁ ht hs₁).mono fun c s₂ r₂ hc => ?_
    obtain ⟨rfl, rfl⟩ := hc
    rw [hsize]
    exact ⟨ρ₁, m₁, regs₁, rfl, hs₁, hm₁, hkeeps₁⟩

omit hk hfits in
/-- The body of a loop, in which registers are given back at the end. -/
theorem loopBody_spec {body : Register → Lower Unit} {b b' : Builder}
    (hbody : ∀ r, Tame (body r)) (h : loopBody body b = .ok () b') (hF : b'.Before F) :
    ∃ r b₁ b₂, body r b₁ = .ok () b₂ ∧ b₂.Before F ∧ r.index = b.next.toNat ∧
      b₁.next.toNat = b.next.toNat + 1 ∧ b.next.toNat < F.block.registerCount.toNat ∧
      b₁.items = b.items ∧ b'.items = b₂.items := by
  obtain ⟨mark, b₀, h₀, h⟩ := bind_eq_ok h
  obtain ⟨r, b₁, h₁, h⟩ := bind_eq_ok h
  obtain ⟨_, b₂, h₂, h₃⟩ := bind_eq_ok h
  obtain ⟨rfl, rfl⟩ := mark_spec h₀
  obtain ⟨hF₂, hitems₃, -⟩ := release_spec h₃ hF
  obtain ⟨-, hindex₁, hnext₁, -, hfile₁, hitems₁⟩ := allocate_spec h₁ ((hbody r).before h₂ hF₂)
  exact ⟨r, b₁, b₂, h₂, hF₂, hindex₁, hnext₁, hfile₁, hitems₁, hitems₃⟩

omit hk hfits in
/-- The body of a loop is executed, and the run is at its end, or a jump leads to one of the labels
of the loop. -/
theorem simulates_loopBody {x : Stmt} (hx : StmtFollows F k call n x) {ρ : Nat → Nat} {s : Store}
    {m : Machine} {e o : Nat} {place : Place} {exit next : Label} {p p' : Nat} {b b' : Builder}
    {regs : Array Value} {P : Nat → Prop}
    (h : loopBody (fun r => stmt (place.inLoop exit next) x r) b = .ok () b') (hF : b'.Before F)
    (hP : ∀ i, P i → i < b.next.toNat) (hfile : F.block.registerCount.toNat ≤ regs.size)
    (hs : Shows ρ s m.heap) (he : e < s.heap.environments.size)
    (hplace : Surrounded F s e o place) (hexit : F.At exit p) (hnext : F.At next p') :
    Simulates n (Eval.stmt call n e x s) (k.run m (ρ e) b.items.size regs) fun flow s' r' =>
      match flow with
      | .value _ => Reached k ρ s e b'.items.size P regs s' r'
      | .breakLoop => Jumps k ρ s e p P regs s' r'
      | .continueLoop => Jumps k ρ s e p' P regs s' r'
      | .returned v => Leaves k ρ s v s' r' := by
  obtain ⟨r, b₁, b₂, h₂, hF₂, hindex₁, hnext₁, hfile₁, hitems₁, hitems₃⟩ :=
    loopBody_spec (fun r _ _ => safe_stmt x _ r) h hF
  rw [← hitems₁, hitems₃]
  refine (hx h₂ hF₂ ⟨by omega, by omega, hfile⟩ hs he (hplace.inLoop hexit hnext)).mono
    fun flow s' r' hflow => ?_
  have hflow' := hflow.mono (P := P) fun i hi => by
    have := hP i hi
    omega
  match flow, hflow' with
  | .value v, hflow => exact Done.reached hflow
  | .breakLoop, ⟨l, q, hl, hq, hflow⟩ =>
    cases hl
    cases At.unique hexit hq
    exact hflow
  | .continueLoop, ⟨l, q, hl, hq, hflow⟩ =>
    cases hl
    cases At.unique hnext hq
    exact hflow
  | .returned v, hflow => exact hflow

theorem stmtFollows_whileLoop {c : Expr} {x : Stmt} (hc : ExprFollows F k call n c)
    (hx : StmtFollows F k call n x) (span : Span) :
    StmtFollows F k call n (.whileLoop c x span) := by
  intro ρ s m e o place dst b b' regs h hF hroom hs he hplace
  rw [stmt, hplace.implicit] at h
  obtain ⟨start, b₁, h₁, h⟩ := bind_eq_ok h
  obtain ⟨exit, b₂, h₂, h⟩ := bind_eq_ok h
  obtain ⟨_, b₃, h₃, h⟩ := bind_eq_ok h
  obtain ⟨r, b₄, h₄, h⟩ := bind_eq_ok h
  rw [← bind_assoc] at h
  obtain ⟨_, b₅, h₅, h⟩ := bind_eq_ok h
  change loopTest [] r exit (some c) b₄ = .ok () b₅ at h₅
  obtain ⟨_, b₆, h₆, h⟩ := bind_eq_ok h
  obtain ⟨_, b₇, h₇, h⟩ := bind_eq_ok h
  obtain ⟨_, b₈, h₈, h₉⟩ := bind_eq_ok h
  have hx₂ := newLabel_extends h₂
  have hx₄ := Tame.extends (fun _ _ => Safe.allocate) h₄
  have hx₅ := Tame.extends (fun _ _ => safe_loopTest r exit (some c)) h₅
  have hx₆ := Tame.extends (fun _ _ => safe_loopBody fun r => safe_stmt x _ r) h₆
  have hx₇ := Tame.extends (fun _ _ => Safe.jump start) h₇
  obtain ⟨hstart₁, -⟩ := newLabel_unbound h₁
  obtain ⟨hexit₂, hnumber₂⟩ := newLabel_unbound h₂
  have hne : start.number ≠ exit.number := by
    have := hstart₁.lt
    omega
  have hstart := hx₂.unbound hstart₁
  have hexit := hx₇.unbound (hx₆.unbound (hx₅.unbound (hx₄.unbound
    (bind_unbound h₃ hexit₂ hne))))
  have hF₈ := Tame.before (fun _ _ => Safe.loadUnit dst) h₉ hF
  obtain ⟨hF₇, hatExit, hitems₈, -⟩ := bind_spec h₈ hexit hF₈ hfits
  have hF₆ := hx₇.before.trans hF₇
  have hF₅ := hx₆.before.trans hF₆
  obtain ⟨hF₃, hindex₄, hnext₄, -, hfile₄, hitems₄⟩ := allocate_spec h₄ (hx₅.before.trans hF₅)
  obtain ⟨hF₂, hatStart, hitems₃, hnext₃⟩ := bind_spec h₃ hstart hF₃ hfits
  obtain ⟨-, ⟨t, ht, hcode₇⟩, -, -⟩ := jump_spec h₇ hF₇ hatStart
  obtain ⟨hF₁, hitems₂, hnext₂⟩ := newLabel_spec h₂ hF₂
  obtain ⟨-, hitems₁, hnext₁⟩ := newLabel_spec h₁ hF₁
  have hlt := hroom.lt
  have hfile := hroom.file
  have hnext₅ := hx₅.next
  rw [← hk] at hcode₇
  have hposition : b₄.items.size = b₂.items.size := by rw [hitems₄, hitems₃]
  have htest : ∀ s₁ r₁, Reached k ρ s e b₂.items.size (fun i => i < b.next.toNat) regs s₁ r₁ →
      Simulates n (Eval.condition call e (some c) s₁) r₁ fun c s' r' =>
        if c then Reached k ρ s e b₅.items.size (fun i => i < b.next.toNat) regs s' r'
        else Comes k ρ s e b₇.items.size (fun i => i < b.next.toNat) regs s' r' := by
    intro s₁ r₁ hr
    obtain ⟨ρ₁, m₁, regs₁, rfl, hs₁, hm₁, hkeeps₁⟩ := hr
    have hsize₁ := hkeeps₁.size
    rw [← hposition]
    refine (simulates_loopTest hk (c := some c) (by rintro _ ⟨⟩; exact hc) h₅ hF₅
      ⟨by omega, by omega, by omega⟩ hs₁ (Nat.lt_of_lt_of_le he hm₁.size) hatExit).mono
      fun c s' r' hr => ?_
    have hr' := (hr.mono fun i hi => by omega).after hm₁ hkeeps₁
    cases c with
    | true => exact hr'
    | false => exact hr'.comes
  have hbody : ∀ s₁ r₁, Reached k ρ s e b₅.items.size (fun i => i < b.next.toNat) regs s₁ r₁ →
      Simulates n (Eval.stmt call n e x s₁) r₁ (Turns
        (Jumps k ρ s e b₂.items.size (fun i => i < b.next.toNat) regs)
        (Comes k ρ s e b₇.items.size (fun i => i < b.next.toNat) regs) (Leaves k ρ s)) := by
    intro s₁ r₁ hr
    obtain ⟨ρ₁, m₁, regs₁, rfl, hs₁, hm₁, hkeeps₁⟩ := hr
    have hsize₁ := hkeeps₁.size
    refine (simulates_loopBody hx (P := fun i => i < b.next.toNat) h₆ hF₆ (fun i hi => by omega)
      (by omega) hs₁ (Nat.lt_of_lt_of_le he hm₁.size) (hplace.mono hm₁ he) hatExit hatStart).mono
      fun flow s' r' hflow => ?_
    cases flow <;> dsimp only at hflow
    case value v =>
      obtain ⟨ρ', m', regs', rfl, hs', hm', hkeeps'⟩ := hflow.after hm₁ hkeeps₁
      exact ⟨_, Context.step_jump hcode₇ ht, ρ', m', regs', rfl, hs', hm', hkeeps'⟩
    case continueLoop => exact hflow.after hm₁ hkeeps₁
    case breakLoop => exact (hflow.after hm₁ hkeeps₁).comes
    case returned v => exact hflow.after hm₁
  have hnext : ∀ s₁ r₁, Jumps k ρ s e b₂.items.size (fun i => i < b.next.toNat) regs s₁ r₁ →
      Simulates n ((pure () : Eval Unit) s₁) r₁ fun _ =>
        Jumps k ρ s e b₂.items.size (fun i => i < b.next.toNat) regs := fun s₁ r₁ hr => .ok hr
  rw [Eval.stmt, ← hitems₁, ← hitems₂]
  refine (simulates_loop htest hbody hnext (Nat.le_refl n) (.refl hs)).andThen
    fun flow s' r' hflow => ?_
  cases flow with
  | breakLoop | continueLoop => exact hflow.elim
  | value v =>
    obtain ⟨rfl, r₁, hgoes, ρ', m', regs', rfl, hs', hm', hkeeps'⟩ := hflow
    obtain ⟨-, r₂, hgoes', hdone⟩ := simulates_loadUnit hk hfits (e := e) h₉ hF
      (hkeeps'.size ▸ hroom.size) hs'
    rw [hitems₈] at hgoes'
    exact ⟨r₂, hgoes.trans hgoes', (hdone.mono fun i hi => hi.2).after hm'
      (hkeeps'.mono fun i hi => hi.1)⟩
  | returned v => exact ⟨r', .refl r', hflow⟩

/-- What a `for` loop does first. -/
theorem simulates_forInit {init : Option ForInit}
    (hinit : ∀ x ∈ init, match x with
      | .expr y => ExprFollows F k call n y
      | .letDecl d => ExprFollows F k call n d.init)
    {ρ : Nat → Nat} {s : Store} {m : Machine} {e o : Nat} {place : Place} {dst : Register}
    {b b' : Builder} {regs : Array Value} (h : Lower.forInit place dst init b = .ok () b')
    (hF : b'.Before F) (hroom : Room F b dst regs) (hs : Shows ρ s m.heap)
    (he : e < s.heap.environments.size) (hplace : Surrounded F s e o place) :
    Simulates n (Eval.forInit call e init s) (k.run m (ρ e) b.items.size regs) fun _ =>
      Reached k ρ s e b'.items.size (fun i => i < b.next.toNat ∧ i ≠ dst.index) regs := by
  match init, hinit with
  | none, _ =>
    obtain ⟨-, rfl⟩ := pure_eq_ok h
    exact .ok (.refl hs)
  | some (.expr y), hinit =>
    have hy : ExprFollows F k call n y := hinit _ rfl
    rw [Lower.forInit, hplace.implicit] at h
    exact (hy h hF hroom hs he).bind fun v s' r' hv => .ok hv.reached
  | some (.letDecl d), hinit =>
    have hd : ExprFollows F k call n d.init := hinit _ rfl
    exact (simulates_letDecl hk hfits hd h hF hroom hs he hplace).mono fun _ s' r' hv => hv.reached

omit hk hfits in
/-- What a `for` loop does after each round. -/
theorem simulates_forNext {x : Option Expr} (hx : ∀ y ∈ x, ExprFollows F k call n y)
    {ρ : Nat → Nat} {s : Store} {m : Machine} {e : Nat} {r : Register} {b b' : Builder}
    {regs : Array Value} (h : forNext [] r x b = .ok () b') (hF : b'.Before F)
    (hroom : Room F b r regs) (hs : Shows ρ s m.heap) (he : e < s.heap.environments.size) :
    Simulates n (Eval.forNext call e x s) (k.run m (ρ e) b.items.size regs) fun _ =>
      Reached k ρ s e b'.items.size (fun i => i < b.next.toNat ∧ i ≠ r.index) regs := by
  cases x with
  | none =>
    obtain ⟨-, rfl⟩ := pure_eq_ok h
    exact .ok (.refl hs)
  | some y => exact (hx y rfl h hF hroom hs he).bind fun v s' r' hv => .ok hv.reached

theorem stmtFollows_forLoop {init : Option ForInit} {c increment : Option Expr} {x : Stmt}
    (hinit : ∀ y ∈ init, match y with
      | .expr z => ExprFollows F k call n z
      | .letDecl d => ExprFollows F k call n d.init)
    (hc : ∀ y ∈ c, ExprFollows F k call n y) (hincrement : ∀ y ∈ increment, ExprFollows F k call n y)
    (hx : StmtFollows F k call n x) (span : Span) :
    StmtFollows F k call n (.forLoop init c increment x span) := by
  intro ρ s m e o place dst b b' regs h hF hroom hs he hplace
  rw [stmt, hplace.implicit] at h
  obtain ⟨_, b₁, h₁, h⟩ := bind_eq_ok h
  obtain ⟨r, b₂, h₂, h⟩ := bind_eq_ok h
  obtain ⟨_, b₃, h₃, h⟩ := bind_eq_ok h
  obtain ⟨start, b₄, h₄, h⟩ := bind_eq_ok h
  obtain ⟨next, b₅, h₅, h⟩ := bind_eq_ok h
  obtain ⟨exit, b₆, h₆, h⟩ := bind_eq_ok h
  obtain ⟨_, b₇, h₇, h⟩ := bind_eq_ok h
  obtain ⟨_, b₈, h₈, h⟩ := bind_eq_ok h
  obtain ⟨_, b₉, h₉, h⟩ := bind_eq_ok h
  obtain ⟨_, b₁₀, h₁₀, h⟩ := bind_eq_ok h
  obtain ⟨_, b₁₁, h₁₁, h⟩ := bind_eq_ok h
  obtain ⟨_, b₁₂, h₁₂, h⟩ := bind_eq_ok h
  obtain ⟨_, b₁₃, h₁₃, h⟩ := bind_eq_ok h
  obtain ⟨_, b₁₄, h₁₄, h₁₅⟩ := bind_eq_ok h
  have hx₃ := Tame.extends (fun _ _ => safe_forInit place.deeper r init) h₃
  have hx₅ := newLabel_extends h₅
  have hx₆ := newLabel_extends h₆
  have hx₈ := Tame.extends (fun _ _ => safe_loopTest r exit c) h₈
  have hx₉ := Tame.extends (fun _ _ => safe_loopBody fun r => safe_stmt x _ r) h₉
  have hx₁₁ := Tame.extends (fun _ _ => safe_forNext r increment) h₁₁
  have hx₁₂ := Tame.extends (fun _ _ => Safe.jump start) h₁₂
  obtain ⟨hstart₄, hnumber₄⟩ := newLabel_unbound h₄
  obtain ⟨hnext₅, hnumber₅⟩ := newLabel_unbound h₅
  obtain ⟨hexit₆, hnumber₆⟩ := newLabel_unbound h₆
  have hlt₄ := hstart₄.lt
  have hlt₅ := hnext₅.lt
  have hsizes := hx₅.size
  have hstart := hx₆.unbound (hx₅.unbound hstart₄)
  have hnext := hx₉.unbound (hx₈.unbound (bind_unbound h₇ (hx₆.unbound hnext₅) (by omega)))
  have hexit := hx₁₂.unbound (hx₁₁.unbound (bind_unbound h₁₀
    (hx₉.unbound (hx₈.unbound (bind_unbound h₇ hexit₆ (by omega)))) (by omega)))
  have hF₁₄ := Tame.before (fun _ _ => Safe.loadUnit dst) h₁₅ hF
  obtain ⟨hF₁₃, hcode₁₄, hsize₁₄, -⟩ := emit_spec h₁₄ hF₁₄
  obtain ⟨hF₁₂, hatExit, hitems₁₃, -⟩ := bind_spec h₁₃ hexit hF₁₃ hfits
  have hF₁₁ := hx₁₂.before.trans hF₁₂
  obtain ⟨hF₉, hatNext, hitems₁₀, hnext₁₀⟩ :=
    bind_spec h₁₀ hnext (hx₁₁.before.trans hF₁₁) hfits
  have hF₈ := hx₉.before.trans hF₉
  obtain ⟨hF₆, hatStart, hitems₇, hnext₇⟩ := bind_spec h₇ hstart (hx₈.before.trans hF₈) hfits
  obtain ⟨-, ⟨t, ht, hcode₁₂⟩, -, -⟩ := jump_spec h₁₂ hF₁₂ hatStart
  obtain ⟨hF₅, hitems₆, hnext₆⟩ := newLabel_spec h₆ hF₆
  obtain ⟨hF₄, hitems₅, hnext₅'⟩ := newLabel_spec h₅ hF₅
  obtain ⟨hF₃, hitems₄, hnext₄⟩ := newLabel_spec h₄ hF₄
  obtain ⟨hF₁, hindex₂, hnext₂, -, hfile₂, hitems₂⟩ := allocate_spec h₂ (hx₃.before.trans hF₃)
  obtain ⟨-, hcode₁, hsize₁, hnext₁⟩ := emit_spec h₁ hF₁
  have hlt := hroom.lt
  have hfile := hroom.file
  have hnext₃ := hx₃.next
  have hnext₈ := hx₈.next
  have hnext₉ := hx₉.next
  rw [← hk] at hcode₁ hcode₁₂ hcode₁₄
  have hposition : b₇.items.size = b₃.items.size := by rw [hitems₇, hitems₆, hitems₅, hitems₄]
  rw [Eval.stmt]
  refine simulates_pushScope hcode₁ hs he hplace
    fun {ρ₀ s₀ m₀ inner} hs₀ hm₀ hinner hparent hplace₀ => ?_
  rw [← hsize₁, ← hitems₂]
  refine (simulates_forInit hk hfits hinit h₃ hF₃ ⟨by omega, by omega, hfile⟩ hs₀ hinner
    hplace₀).bind fun _ s₁ r₁ hr => ?_
  obtain ⟨ρ₁, m₁, regs₁, rfl, hs₁, hm₁, hkeeps₁⟩ := hr
  have hinner₁ := Nat.lt_of_lt_of_le hinner hm₁.size
  have hplace₁ := hplace₀.mono hm₁ hinner
  have hsize₁' := hkeeps₁.size
  have htest : ∀ s₂ r₂,
      Reached k ρ₁ s₁ inner b₇.items.size (fun i => i < b.next.toNat) regs₁ s₂ r₂ →
      Simulates n (Eval.condition call inner c s₂) r₂ fun c s' r' =>
        if c then Reached k ρ₁ s₁ inner b₈.items.size (fun i => i < b.next.toNat) regs₁ s' r'
        else Comes k ρ₁ s₁ inner b₁₂.items.size (fun i => i < b.next.toNat) regs₁ s' r' := by
    intro s₂ r₂ hr
    obtain ⟨ρ₂, m₂, regs₂, rfl, hs₂, hm₂, hkeeps₂⟩ := hr
    have hsize₂ := hkeeps₂.size
    refine (simulates_loopTest hk hc h₈ hF₈ ⟨by omega, by omega, by omega⟩ hs₂
      (Nat.lt_of_lt_of_le hinner₁ hm₂.size) hatExit).mono fun c s' r' hr => ?_
    have hr' := (hr.mono fun i hi => by omega).after hm₂ hkeeps₂
    cases c with
    | true => exact hr'
    | false => exact hr'.comes
  have hbody : ∀ s₂ r₂,
      Reached k ρ₁ s₁ inner b₈.items.size (fun i => i < b.next.toNat) regs₁ s₂ r₂ →
      Simulates n (Eval.stmt call n inner x s₂) r₂ (Turns
        (Comes k ρ₁ s₁ inner b₉.items.size (fun i => i < b.next.toNat) regs₁)
        (Comes k ρ₁ s₁ inner b₁₂.items.size (fun i => i < b.next.toNat) regs₁) (Leaves k ρ₁ s₁)) := by
    intro s₂ r₂ hr
    obtain ⟨ρ₂, m₂, regs₂, rfl, hs₂, hm₂, hkeeps₂⟩ := hr
    have hsize₂ := hkeeps₂.size
    refine (simulates_loopBody hx (P := fun i => i < b.next.toNat) h₉ hF₉ (fun i hi => by omega)
      (by omega) hs₂ (Nat.lt_of_lt_of_le hinner₁ hm₂.size) (hplace₁.mono hm₂ hinner₁) hatExit
      hatNext).mono fun flow s' r' hflow => ?_
    cases flow <;> dsimp only at hflow
    case returned v => exact hflow.after hm₂
    all_goals exact (hflow.after hm₂ hkeeps₂).comes
  have hnext : ∀ s₂ r₂,
      Comes k ρ₁ s₁ inner b₉.items.size (fun i => i < b.next.toNat) regs₁ s₂ r₂ →
      Simulates n (Eval.forNext call inner increment s₂) r₂ fun _ s' r' =>
        ∃ r₃, Exec.step r' = .ok none r₃ ∧
          Reached k ρ₁ s₁ inner b₇.items.size (fun i => i < b.next.toNat) regs₁ s' r₃ := by
    intro s₂ r₂ hr
    obtain ⟨r₃, hgoes, ρ₂, m₂, regs₂, rfl, hs₂, hm₂, hkeeps₂⟩ := hr
    have hsize₂ := hkeeps₂.size
    rw [← hitems₁₀] at hgoes
    refine .goes hgoes ((simulates_forNext hincrement h₁₁ hF₁₁ ⟨by omega, by omega, by omega⟩ hs₂
      (Nat.lt_of_lt_of_le hinner₁ hm₂.size)).mono fun _ s' r' hr => ?_)
    obtain ⟨ρ', m', regs', rfl, hs', hm', hkeeps'⟩ :=
      (hr.mono fun i hi => by omega).after hm₂ hkeeps₂
    rw [hitems₇]
    exact ⟨_, Context.step_jump hcode₁₂ ht, ρ', m', regs', rfl, hs', hm', hkeeps'⟩
  rw [← hposition]
  refine (simulates_loop htest hbody hnext (Nat.le_refl n) (.refl hs₁)).andThen
    fun flow s' r' hflow => ?_
  cases flow with
  | breakLoop | continueLoop => exact hflow.elim
  | value v =>
    obtain ⟨rfl, r₂, hgoes, hr⟩ := hflow
    rw [← hitems₁₃] at hr
    obtain ⟨r₃, hstep, ρ', m', regs', rfl, hs', hm', hkeeps'⟩ :=
      (hr.after hm₁ (hkeeps₁.mono fun i hi => by omega)).popScope hcode₁₄ hparent hinner
    have hsize' := hkeeps'.size
    obtain ⟨-, r₄, hgoes', hdone⟩ := simulates_loadUnit hk hfits (e := e) h₁₅ hF
      (hsize' ▸ hroom.size) hs'
    rw [hsize₁₄] at hgoes'
    exact ⟨r₄, (hgoes.trans (.one hstep)).trans hgoes', (hdone.mono fun i hi => hi.2).after
      (hm₀.trans hm') (hkeeps'.mono fun i hi => hi.1)⟩
  | returned v =>
    dsimp only at hflow
    exact ⟨r', .refl r', hflow.after (hm₀.trans hm₁)⟩

/-! ## Matches -/

/-- The cases of a match are tried one after the other. -/
theorem simulates_matchCases {place : Place} {scrutinee dst : Register} {done : Label} {q : Nat}
    (hdone : F.At done q) (hne : scrutinee.index ≠ dst.index) : (cs : List (Pattern × Stmt)) →
    (∀ x ∈ cs, StmtFollows F k call n x.2) → ∀ {ρ : Nat → Nat} {s : Store} {m : Machine}
    {e o : Nat} {v : Value} {b b' : Builder} {regs : Array Value},
    matchCases place scrutinee done cs dst b = .ok () b' → b'.Before F → Room F b dst regs →
    scrutinee.index < b.next.toNat → regs[scrutinee.index]? = some v → s.Holds v →
    Shows ρ s m.heap → e < s.heap.environments.size → Surrounded F s e o place →
    Simulates n (Eval.matchCases call n e v cs s) (k.run m (ρ e) b.items.size regs)
      fun flow s' r' =>
        match flow with
        | some flow => Left F k place ρ s e o q (fun i => i < b.next.toNat ∧ i ≠ dst.index) regs dst
            flow s' r'
        | none => Reached k ρ s e b'.items.size (fun i => i < b.next.toNat ∧ i ≠ dst.index) regs
            s' r' ∧ b'.next = b.next
  | [], _, ρ, s, m, e, o, v, b, b', regs, h, hF, hroom, hlt, hv, hh, hs, he, hplace => by
    rw [matchCases] at h
    obtain ⟨-, rfl⟩ := pure_eq_ok h
    rw [Eval.matchCases]
    exact .ok ⟨.refl hs, rfl⟩
  | (pat, x) :: cs, hcs, ρ, s, m, e, o, v, b, b', regs, h, hF, hroom, hlt, hv, hh, hs, he,
      hplace => by
    rw [matchCases] at h
    obtain ⟨mark, b₀, h₀, h⟩ := bind_eq_ok h
    obtain ⟨failed, b₁, h₁, h⟩ := bind_eq_ok h
    obtain ⟨_, b₂, h₂, h⟩ := bind_eq_ok h
    obtain ⟨_, b₃, h₃, h⟩ := bind_eq_ok h
    obtain ⟨_, b₄, h₄, h⟩ := bind_eq_ok h
    obtain ⟨_, b₅, h₅, h⟩ := bind_eq_ok h
    obtain ⟨_, b₆, h₆, h⟩ := bind_eq_ok h
    obtain ⟨_, b₇, h₇, h⟩ := bind_eq_ok h
    obtain ⟨_, b₈, h₈, h⟩ := bind_eq_ok h
    obtain ⟨_, b₉, h₉, h₁₀⟩ := bind_eq_ok h
    obtain ⟨hb₀, rfl⟩ := mark_spec h₀
    subst b₀
    have hx₂ := Tame.extends (fun _ _ => Safe.emit _) h₂
    have hx₃ := Tame.extends (fun _ _ => safe_pattern pat scrutinee failed) h₃
    have hx₄ := Tame.extends (fun _ _ => safe_stmt x place.deeper dst) h₄
    have hx₅ := Tame.extends (fun _ _ => Safe.emit _) h₅
    have hx₆ := Tame.extends (fun _ _ => Safe.jump done) h₆
    obtain ⟨hfailed₁, -⟩ := newLabel_unbound h₁
    have hfailed := hx₆.unbound (hx₅.unbound (hx₄.unbound (hx₃.unbound (hx₂.unbound hfailed₁))))
    have hF₉ := Tame.before (fun _ _ => safe_matchCases cs place scrutinee done dst) h₁₀ hF
    obtain ⟨hF₈, hitems₉, hnext₉⟩ := release_spec h₉ hF₉
    obtain ⟨hF₇, hcode₈, hsize₈, -⟩ := emit_spec h₈ hF₈
    obtain ⟨hF₆, hatFailed, hitems₇, -⟩ := bind_spec h₇ hfailed hF₇ hfits
    obtain ⟨hF₅, ⟨t, ht, hcode₆⟩, hsize₆, -⟩ := jump_spec h₆ hF₆ hdone
    obtain ⟨hF₄, hcode₅, hsize₅, -⟩ := emit_spec h₅ hF₅
    have hF₃ := hx₄.before.trans hF₄
    obtain ⟨hF₁, hcode₂, hsize₂, hnext₂⟩ := emit_spec h₂ (hx₃.before.trans hF₃)
    obtain ⟨-, hitems₁, hnext₁⟩ := newLabel_spec h₁ hF₁
    have hdst := hroom.lt
    have hsize := hroom.size
    have hfile := hroom.file
    have hnext₃ := hx₃.next
    have hscrutinee : scrutinee.index < regs.size := (Array.getElem?_eq_some_iff.1 hv).1
    rw [← hk] at hcode₂ hcode₅ hcode₆ hcode₈
    rw [Eval.matchCases, ← hitems₁]
    refine simulates_pushScope hcode₂ hs he hplace
      fun {ρ₀ s₀ m₀ inner} hs₀ hm₀ hinner hparent hplace₀ => ?_
    rw [← hsize₂]
    refine (simulates_pattern hk hfits hatFailed pat h₃ hF₃ ⟨by omega, hscrutinee, hfile⟩ hv
      (hm₀.holds hh) hs₀ hinner).bind fun c s₁ r₁ hr => ?_
    cases c with
    | true =>
      obtain ⟨ρ₁, m₁, regs₁, rfl, hs₁, hm₁, hkeeps₁⟩ := hr
      have hsize₁ := hkeeps₁.size
      refine Simulates.bind ((hcs _ List.mem_cons_self h₄ hF₄ ⟨by omega, by omega, by omega⟩ hs₁
        (Nat.lt_of_lt_of_le hinner hm₁.size) (hplace₀.mono hm₁ hinner)).andThen
          fun flow s' r' hflow => ?_) fun flow s' r' hflow => .ok hflow
      have hflow' : Left F k place.deeper ρ₀ s₀ inner o b₄.items.size
          (fun i => i < b.next.toNat ∧ i ≠ dst.index) regs dst flow s' r' :=
        (hflow.mono fun i hi => by omega).after hm₁ (hkeeps₁.mono fun i hi => by omega)
      obtain ⟨r₂, hgoes, hleft⟩ := hflow'.popScope hcode₅ hparent hinner
      rw [← hsize₅] at hleft
      have hjump : ∀ w, Done k ρ₀ s₀ e b₅.items.size (fun i => i < b.next.toNat ∧ i ≠ dst.index)
          regs dst w s' r₂ → ∃ r₃, Run.Goes r₂ r₃ ∧
            Done k ρ₀ s₀ e q (fun i => i < b.next.toNat ∧ i ≠ dst.index) regs dst w s' r₃ := by
        intro w hw
        obtain ⟨ρ', m', regs', rfl, hdone'⟩ := hw
        exact ⟨_, .one (Context.step_jump hcode₆ ht), ρ', m', regs', rfl, hdone'⟩
      obtain ⟨r₃, hgoes', hleft'⟩ := hleft.andThen rfl hjump
      exact ⟨r₃, hgoes.trans hgoes', hleft'.after hm₀ (.refl regs)⟩
    | false =>
      rw [if_neg Bool.false_ne_true, ← hitems₇] at hr
      obtain ⟨r₂, hstep, hr'⟩ := hr.popScope hcode₈ hparent hinner
      obtain ⟨ρ₁, m₁, regs₁, rfl, hs₁, hm₁, hkeeps₁⟩ := hr'.after hm₀ (.refl regs)
      have hsize₁ := hkeeps₁.size
      rw [← hsize₈, ← hitems₉] at hstep
      refine .step hstep ?_
      refine (simulates_matchCases hdone hne cs (fun y hy => hcs y (List.mem_cons_of_mem _ hy)) h₁₀
        hF ⟨hnext₉ ▸ hdst, by omega, by omega⟩ (hnext₉ ▸ hlt) ?_ (hm₁.holds hh) hs₁
        (Nat.lt_of_lt_of_le he hm₁.size) (hplace.mono hm₁ he)).mono fun flow s' r' hflow => ?_
      · rw [hkeeps₁.get (by omega), hv]
      · rw [hnext₉] at hflow
        match flow, hflow with
        | some flow, hflow => exact hflow.after hm₁ (hkeeps₁.mono fun i hi => by omega)
        | none, ⟨hr, hnext⟩ => exact ⟨hr.after hm₁ (hkeeps₁.mono fun i hi => by omega), hnext⟩

theorem stmtFollows_cases {x : Expr} {cs : List (Pattern × Stmt)} {y : Option Stmt}
    (hx : ExprFollows F k call n x) (hcs : ∀ z ∈ cs, StmtFollows F k call n z.2)
    (hy : ∀ z ∈ y, StmtFollows F k call n z) (span : Span) :
    StmtFollows F k call n (.cases x cs y span) := by
  intro ρ s m e o place dst b b' regs h hF hroom hs he hplace
  rw [stmt_cases, hplace.implicit] at h
  obtain ⟨r, b₁, h₁, h⟩ := bind_eq_ok h
  obtain ⟨_, b₂, h₂, h⟩ := bind_eq_ok h
  obtain ⟨done, b₃, h₃, h⟩ := bind_eq_ok h
  obtain ⟨_, b₄, h₄, h⟩ := bind_eq_ok h
  obtain ⟨_, b₅, h₅, h₆⟩ := bind_eq_ok h
  have hx₂ := Tame.extends (fun _ _ => safe_expr x r) h₂
  have hx₄ := Tame.extends (fun _ _ => safe_matchCases cs place r done dst) h₄
  have hx₅ : b₄.Extends b₄.labels.size b₄.next.toNat b₅ := by
    cases y with
    | none => exact Tame.extends (fun _ _ => safe_noMatch) h₅
    | some z => exact Tame.extends (fun _ _ => safe_stmt z place dst) h₅
  obtain ⟨hdone₃, -⟩ := newLabel_unbound h₃
  obtain ⟨hF₅, hat, hitems₆, -⟩ := bind_spec h₆ (hx₅.unbound (hx₄.unbound hdone₃)) hF hfits
  have hF₄ := hx₅.before.trans hF₅
  obtain ⟨hF₂, hitems₃, hnext₃⟩ := newLabel_spec h₃ (hx₄.before.trans hF₄)
  obtain ⟨-, hindex₁, hnext₁, -, hfile₁, hitems₁⟩ := allocate_spec h₁ (hx₂.before.trans hF₂)
  have hlt := hroom.lt
  have hsize := hroom.size
  have hfile := hroom.file
  have hnext₂ := hx₂.next
  rw [Eval.stmt_cases, ← hitems₁, hitems₆]
  refine (hx h₂ hF₂ ⟨by omega, by omega, hfile⟩ hs he).bind fun v s₁ r₁ hv => ?_
  obtain ⟨ρ₁, m₁, regs₁, rfl, hs₁, hm₁, hkeeps₁, hv₁, hh₁⟩ := hv
  have he₁ := Nat.lt_of_lt_of_le he hm₁.size
  have hplace₁ := hplace.mono hm₁ he
  have hsize₁ := hkeeps₁.size
  rw [← hitems₃]
  refine (simulates_matchCases hk hfits hat (by omega) cs hcs h₄ hF₄
    ⟨by omega, by omega, by omega⟩ (by omega) hv₁ hh₁ hs₁ he₁ hplace₁).bind
    fun flow s₂ r₂ hflow => ?_
  match flow, hflow with
  | some flow, hflow =>
    exact .ok ((hflow.mono fun i hi => by omega).after hm₁ (hkeeps₁.mono fun i hi => by omega))
  | none, ⟨hr, hnext⟩ =>
    obtain ⟨ρ₂, m₂, regs₂, rfl, hs₂, hm₂, hkeeps₂⟩ := hr
    have hsize₂ := hkeeps₂.size
    cases y with
    | none =>
      obtain ⟨j, b₇, h₇, h₈⟩ := bind_eq_ok h₅
      obtain ⟨hF₇, hcode, -, -⟩ := emit_spec h₈ hF₅
      obtain ⟨-, hmessage, hitems₇, -⟩ := constant_spec h₇ hF₇ hfits
      rw [← hk] at hcode hmessage
      rw [hitems₇] at hcode
      exact .fault (Context.step_runtimeError hcode hmessage)
    | some z =>
      have hnext' := congrArg UInt16.toNat hnext
      refine (hy z rfl h₅ hF₅ ⟨by omega, by omega, by omega⟩ hs₂
        (Nat.lt_of_lt_of_le he₁ hm₂.size) (hplace₁.mono hm₂ he₁)).mono fun flow s' r' hflow => ?_
      exact (hflow.mono fun i hi => by omega).after (hm₁.trans hm₂)
        ((hkeeps₁.mono fun i hi => by omega).trans (hkeeps₂.mono fun i hi => by omega))

/-! ## Declarations -/

theorem declFollows_letDecl {d : LetDecl} (hd : ExprFollows F k call n d.init) :
    DeclFollows F k call n (.letDecl d) := by
  intro ρ s m e o place dst b b' regs h hF hroom hs he hplace
  rw [decl] at h
  rw [Eval.decl]
  exact (simulates_letDecl hk hfits hd h hF hroom hs he hplace).bind fun _ s' r' hv => .ok hv

/-- The functions have been created before. -/
theorem declFollows_fn (head : FnHead) (body : List Decl) :
    DeclFollows F k call n (.fn head body) := by
  intro ρ s m e o place dst b b' regs h hF hroom hs he hplace
  rw [decl] at h
  obtain ⟨-, r', hgoes, hdone⟩ := simulates_loadUnit hk hfits (e := e) h hF hroom.size hs
  rw [Eval.decl]
  exact .goes hgoes (.ok (hdone.mono fun i hi => hi.2))

omit hk hfits in
theorem declFollows_stmt {x : Stmt} (hx : StmtFollows F k call n x) :
    DeclFollows F k call n (.stmt x) := by
  intro ρ s m e o place dst b b' regs h
  rw [decl] at h
  rw [Eval.decl]
  exact hx h

/-! ## All statements -/

set_option linter.unusedSectionVars false

omit hk hfits in
theorem Expr.plain_of_mem {x : Option Expr} (h : Expr.PlainOption x) {y : Expr} (hy : y ∈ x) :
    y.Plain := by
  cases hy
  exact h

mutual

/-- **The code for a statement follows its execution.** -/
theorem stmtFollows (hcall : CallFollows call n) : (x : Stmt) → x.Plain → StmtFollows F k call n x
  | .empty span, _ => stmtFollows_empty hk hfits span
  | .breakLoop span, _ => stmtFollows_breakLoop hk span
  | .continueLoop span, _ => stmtFollows_continueLoop hk span
  | .block ds span, h => by
    rw [Stmt.Plain] at h
    exact stmtFollows_block hk hfits h (declsFollow hcall ds h) span
  | .ret x span, h => by
    rw [Stmt.Plain] at h
    exact stmtFollows_ret hk hfits
      (fun y hy => exprFollows hk hfits hcall y (Expr.plain_of_mem h hy)) span
  | .cond c x none span, h => by
    rw [Stmt.Plain] at h
    exact stmtFollows_cond hk hfits (exprFollows hk hfits hcall c h.1) (stmtFollows hcall x h.2)
      (fun z hz => by cases hz) span
  | .cond c x (some y) span, h => by
    rw [Stmt.Plain] at h
    have hy := stmtFollows hcall y h.2.2
    exact stmtFollows_cond hk hfits (exprFollows hk hfits hcall c h.1) (stmtFollows hcall x h.2.1)
      (fun z hz => by cases hz; exact hy) span
  | .whileLoop c x span, h => by
    rw [Stmt.Plain] at h
    exact stmtFollows_whileLoop hk hfits (exprFollows hk hfits hcall c h.1)
      (stmtFollows hcall x h.2) span
  | .forLoop init c increment x span, h => by
    rw [Stmt.Plain] at h
    refine stmtFollows_forLoop hk hfits (fun y hy => ?_)
      (fun y hy => exprFollows hk hfits hcall y (Expr.plain_of_mem h.2.1 hy))
      (fun y hy => exprFollows hk hfits hcall y (Expr.plain_of_mem h.2.2.1 hy))
      (stmtFollows hcall x h.2.2.2) span
    have hplain := h.1 y hy
    cases y with
    | expr z => exact exprFollows hk hfits hcall z hplain
    | letDecl d => exact exprFollows hk hfits hcall d.init hplain
  | .cases x cs none span, h => by
    rw [Stmt.Plain] at h
    exact stmtFollows_cases hk hfits (exprFollows hk hfits hcall x h.1) (casesFollow hcall cs h.2)
      (fun z hz => by cases hz) span
  | .cases x cs (some y) span, h => by
    rw [Stmt.Plain] at h
    have hy := stmtFollows hcall y h.2.2
    exact stmtFollows_cases hk hfits (exprFollows hk hfits hcall x h.1)
      (casesFollow hcall cs h.2.1) (fun z hz => by cases hz; exact hy) span
  | .expr x, h => by
    rw [Stmt.Plain] at h
    exact stmtFollows_expr (exprFollows hk hfits hcall x h)

/-- `stmtFollows` for the statement of each case. -/
theorem casesFollow (hcall : CallFollows call n) : (cs : List (Pattern × Stmt)) →
    Stmt.PlainCases cs → ∀ x ∈ cs, StmtFollows F k call n x.2
  | [], _ => List.forall_mem_nil _
  | (pat, x) :: cs, h => by
    rw [Stmt.PlainCases] at h
    exact List.forall_mem_cons.2 ⟨stmtFollows hcall x h.1, casesFollow hcall cs h.2⟩

/-- The code for a declaration follows its execution. -/
theorem declFollows (hcall : CallFollows call n) : (x : Decl) → x.Plain → DeclFollows F k call n x
  | .letDecl d, h => by
    rw [Decl.Plain] at h
    exact declFollows_letDecl hk hfits (exprFollows hk hfits hcall d.init h)
  | .fn head body, _ => declFollows_fn hk hfits head body
  | .stmt x, h => by
    rw [Decl.Plain] at h
    exact declFollows_stmt (stmtFollows hcall x h)

/-- `declFollows` for each declaration of a list. -/
theorem declsFollow (hcall : CallFollows call n) : (ds : List Decl) → Decl.PlainList ds →
    ∀ x ∈ ds, DeclFollows F k call n x
  | [], _ => List.forall_mem_nil _
  | d :: ds, h => by
    rw [Decl.PlainList] at h
    exact List.forall_mem_cons.2 ⟨declFollows hcall d h.1, declsFollow hcall ds h.2⟩

end

end stmt

end Reified
