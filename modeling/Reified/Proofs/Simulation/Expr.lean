import Reified.Proofs.Simulation.TypeTest

/-!
# The code for expressions follows their evaluation

The code for an expression leaves the value of the expression in its register, or fails as its
evaluation fails. Registers that were handed out before keep their values.

How a value is called is a parameter, about which it is only known that the instruction of a call
follows it.

## Main definitions

* `CallFollows` — the instruction of a call follows the call of a value
* `ExprFollows` — the code for an expression follows its evaluation

## Main results

* `exprFollows` — for every expression
-/

namespace Reified

open Builder Lower

/-- The instruction of a call follows the call of a function or an operator. -/
def CallFollows (call : Value → List Value → Eval Value) (n : Nat) : Prop :=
  ∀ ⦃k : Context⦄ ⦃ρ : Nat → Nat⦄ ⦃s : Store⦄ ⦃m : Machine⦄ ⦃e p : Nat⦄ ⦃regs : Array Value⦄
    ⦃dst callee first : Register⦄ ⦃argc : UInt32⦄ ⦃f : Value⦄ ⦃args : List Value⦄,
    k.block.code[p]? = some (.call dst callee argc first) → f.tyClass = .function →
    regs[callee.index]? = some f → args.length = argc.toNat →
    (∀ (j : Nat) (hj : j < args.length), regs[(first.offset j).index]? = some args[j]) →
    dst.index < regs.size → Shows ρ s m.heap → e < s.heap.environments.size → s.Holds f →
    (∀ v ∈ args, s.Holds v) →
    Simulates n (call f args s) (k.run m (ρ e) p regs)
      (Done k ρ s e (p + 1) (· ≠ dst.index) regs dst)

/-- The code for an expression follows its evaluation. -/
def ExprFollows (F : Builder) (k : Context) (call : Value → List Value → Eval Value) (n : Nat)
    (x : Expr) : Prop :=
  ∀ ⦃ρ : Nat → Nat⦄ ⦃s : Store⦄ ⦃m : Machine⦄ ⦃e : Nat⦄ ⦃dst : Register⦄ ⦃b b' : Builder⦄
    ⦃regs : Array Value⦄, Lower.expr [] x dst b = .ok () b' → b'.Before F → Room F b dst regs →
    Shows ρ s m.heap → e < s.heap.environments.size →
    Simulates n (Eval.expr call e x s) (k.run m (ρ e) b.items.size regs)
      (Done k ρ s e b'.items.size (fun i => i < b.next.toNat ∧ i ≠ dst.index) regs dst)

theorem Store.holds_constant (s : Store) (c : Constant) : s.Holds c.value := by
  cases c <;> trivial

/-! ## Steps and evaluations -/

section steps

variable {k : Context} {ρ : Nat → Nat} {s : Store} {m : Machine} {e p q n : Nat}
  {regs : Array Value} {dst r callee first : Register} {i argc : UInt32} {t : Int32} {v f : Value}
  {args : List Value} {name : String} {call : Value → List Value → Eval Value}

theorem simulates_getLocal (hc : k.block.code[p]? = some (.getLocal dst i))
    (hi : k.block.identifier? i = some name) (hd : dst.index < regs.size) (hs : Shows ρ s m.heap)
    (he : e < s.heap.environments.size) :
    Simulates n (Eval.lookup e name s) (k.run m (ρ e) p regs)
      (Done k ρ s e (p + 1) (· ≠ dst.index) regs dst) := by
  have hlookup := hs.lookup he name
  unfold Eval.lookup
  cases hv : s.heap.lookup e name with
  | some v =>
    rw [hv] at hlookup
    exact .step (Context.step_getLocal hc hi hlookup hd) (.ok (.set hs hd (hs.holds_lookup hv)))
  | none =>
    rw [hv] at hlookup
    exact .fault (Context.step_getLocal_error hc hi hlookup)

/-- A jump on a condition follows the truth value of the condition. -/
theorem simulates_jumpIfFalse (hc : k.block.code[p]? = some (.jumpIfFalse r t))
    (hr : regs[r.index]? = some v) (ht : t.toInt = q) (hs : Shows ρ s m.heap) :
    Simulates n (Eval.truth v s) (k.run m e p regs) fun c s' r' =>
      s' = s ∧ r' = k.run m e (if c then p + 1 else q) regs := by
  cases v with
  | bool c =>
    cases c with
    | true => exact .step (Context.step_jumpIfFalse_true hc hr) (.ok ⟨rfl, rfl⟩)
    | false => exact .step (Context.step_jumpIfFalse_false hc hr ht) (.ok ⟨rfl, rfl⟩)
  | _ =>
    have hstep := Context.step_jumpIfFalse_error (m := m) (e := e) hc hr fun c h => by cases h
    rw [hs.text] at hstep
    exact .fault hstep

/-- Where the callee is known to be a function, the instruction of a call follows the call. -/
theorem simulates_call (hcall : CallFollows call n)
    (hc : k.block.code[p]? = some (.call dst callee argc first))
    (hf : regs[callee.index]? = some f) (hn : args.length = argc.toNat)
    (hargs : ∀ (j : Nat) (hj : j < args.length), regs[(first.offset j).index]? = some args[j])
    (hd : dst.index < regs.size) (hs : Shows ρ s m.heap) (he : e < s.heap.environments.size)
    (hh : s.Holds f) (hhs : ∀ v ∈ args, s.Holds v) :
    Simulates n (Eval.callValue call true f args s) (k.run m (ρ e) p regs)
      (Done k ρ s e (p + 1) (· ≠ dst.index) regs dst) := by
  have hread : Exec.readRange first argc (k.run m (ρ e) (p + 1) regs) =
      .ok args.toArray (k.run m (ρ e) (p + 1) regs) := Context.readRange_run hn hargs
  cases f with
  | function c => exact hcall hc rfl hf hn hargs hd hs he hh hhs
  | builtin op => exact hcall hc rfl hf hn hargs hd hs he hh hhs
  | _ =>
    refine .fault (?_ : Exec.step _ = EStateM.Result.error _ (k.run m (ρ e) (p + 1) regs))
    rw [Exec.step, Exec.bind_ok (Context.fetch_run hc)]
    refine Exec.bind_error ?_
    rw [Exec.call, Exec.bind_ok (Context.read_run hf), Exec.bind_ok hread, ← hs.text]
    rfl

/-- A hole for a call follows the call of what is no function. -/
theorem simulates_newCallHole
    (hc : k.block.code[p]? = some (.newCallHole dst callee argc first))
    (hf : regs[callee.index]? = some f) (hfn : f.tyClass ≠ .function)
    (hn : args.length = argc.toNat)
    (hargs : ∀ (j : Nat) (hj : j < args.length), regs[(first.offset j).index]? = some args[j])
    (hd : dst.index < regs.size) (hs : Shows ρ s m.heap) :
    Simulates n (Eval.callValue call false f args s) (k.run m (ρ e) p regs)
      (Done k ρ s e (p + 1) (· ≠ dst.index) regs dst) := by
  have hread : Exec.readRange first argc (k.run m (ρ e) (p + 1) regs) =
      .ok args.toArray (k.run m (ρ e) (p + 1) regs) := Context.readRange_run hn hargs
  have hact : Follows
      (if f.isTypeLevel || args.any Value.isTypeLevel then Exec.onHeap (·.newHole (.call f args))
        else do throw (.notCallable (← Exec.text f)))
      (if f.isTypeLevel || args.any Value.isTypeLevel then Eval.onHeap (·.newHole (.call f args))
        else do Eval.fail (.notCallable (← Eval.text f))) Store.Holds := by
    split
    · exact .newHole _
    · exact .bind (.text f) fun t => .fail (.notCallable t)
  have hinstr : Exec.instr (.newCallHole dst callee argc first) (k.run m (ρ e) (p + 1) regs) =
      ((if f.isTypeLevel || args.any Value.isTypeLevel then
          Exec.onHeap (·.newHole (.call f args))
        else do throw (.notCallable (← Exec.text f))) >>= fun v => Exec.write dst v)
        (k.run m (ρ e) (p + 1) regs) := by
    rw [Exec.instr, Exec.bind_ok (Context.read_run hf), Exec.bind_ok hread]
    simp only [List.any_toArray]
    split <;> rfl
  cases f with
  | function c => exact absurd rfl hfn
  | builtin op => exact absurd rfl hfn
  | _ => exact simulates_follows hc trivial hs hd hact hinstr

end steps

section expr

variable {F : Builder} {k : Context} {call : Value → List Value → Eval Value} {n : Nat}
  (hk : k.block = F.finish) (hfits : F.finish.Fits)

include hk hfits

theorem exprFollows_ident (note : Note) (x : String) : ExprFollows F k call n (.ident note x) := by
  intro ρ s m e dst b b' regs h hF hroom hs he
  rw [Lower.expr] at h
  obtain ⟨j, b₁, hj, h⟩ := bind_eq_ok h
  obtain ⟨hF₁, hcode, hsize, -⟩ := emit_spec h hF
  obtain ⟨-, hname, hitems, -⟩ := identifier_spec hj hF₁ hfits
  rw [← hk] at hcode hname
  rw [hitems] at hcode hsize
  rw [Eval.expr, hsize]
  exact (simulates_getLocal hcode hname hroom.size hs he).mono fun v s' r' hd =>
    hd.mono fun i hi => hi.2

theorem exprFollows_literal (note : Note) (v : Literal) :
    ExprFollows F k call n (.literal note v) := by
  intro ρ s m e dst b b' regs h hF hroom hs he
  rw [Lower.expr] at h
  obtain ⟨-, ⟨j, hc, hcode⟩, hsize, -⟩ := load_spec h hF hfits
  rw [← hk] at hc hcode
  rw [Eval.expr, hsize]
  refine .step (Context.step_loadConstant hcode hc hroom.size) (.ok ?_)
  exact (Done.set hs hroom.size (s.holds_constant _)).mono fun i hi => hi.2

omit hk hfits in
theorem exprFollows_paren {x : Expr} (hx : ExprFollows F k call n x) (note : Note) :
    ExprFollows F k call n (.paren note x) := by
  intro ρ s m e dst b b' regs h
  rw [Lower.expr] at h
  rw [Eval.expr]
  exact hx h

theorem exprFollows_type {t : TypeExpr} (ht : t.WellKnown) (note : Note) :
    ExprFollows F k call n (.type note t) := by
  intro ρ s m e dst b b' regs h hF hroom hs he
  rw [Lower.expr] at h
  obtain ⟨regs', hgoes, hkeeps, hv⟩ := goes_typeExpr hk hfits ht (m := m) (e := ρ e) h hF hroom
  rw [Eval.expr]
  exact .goes hgoes (.ok ⟨ρ, m, regs', rfl, hs, .refl ρ s, hkeeps, hv, trivial⟩)

/-! ## Operators -/

theorem exprFollows_and {x y : Expr} (hx : ExprFollows F k call n x) (hy : ExprFollows F k call n y)
    (note : Note) : ExprFollows F k call n (.binary note .and x y) := by
  intro ρ s m e dst b b' regs h hF hroom hs he
  rw [Lower.expr] at h
  obtain ⟨done, b₁, h₁, h⟩ := bind_eq_ok h
  obtain ⟨_, b₂, h₂, h⟩ := bind_eq_ok h
  obtain ⟨_, b₃, h₃, h⟩ := bind_eq_ok h
  obtain ⟨_, b₄, h₄, h₅⟩ := bind_eq_ok h
  have hx₂ := Tame.extends (fun _ _ => safe_expr x dst) h₂
  have hx₃ := Tame.extends (fun _ _ => Safe.jumpIfFalse dst done) h₃
  have hx₄ := Tame.extends (fun _ _ => safe_expr y dst) h₄
  have hdone := hx₄.unbound (hx₃.unbound (hx₂.unbound (newLabel_unbound h₁).1))
  obtain ⟨hF₄, hat, hitems₅, -⟩ := bind_spec h₅ hdone hF hfits
  have hF₃ := hx₄.before.trans hF₄
  obtain ⟨hF₂, ⟨t, ht, hcode⟩, hsize₃, hnext₃⟩ := jumpIfFalse_spec h₃ hF₃ hat
  obtain ⟨-, hitems₁, hnext₁⟩ := newLabel_spec h₁ (hx₂.before.trans hF₂)
  have hlt := hroom.lt
  have hle₂ := hx₂.next
  have hle₄ := hx₄.next
  rw [← hk] at hcode
  rw [Eval.expr, hitems₅, ← hitems₁]
  refine (hx h₂ hF₂ ⟨by omega, hroom.size, hroom.file⟩ hs he).bind fun v s₁ r₁ hv => ?_
  obtain ⟨ρ₁, m₁, regs₁, rfl, hs₁, hm₁, hkeeps₁, hv₁, hh₁⟩ := hv
  refine (simulates_jumpIfFalse hcode hv₁ ht hs₁).bind fun c s₂ r₂ hc => ?_
  obtain ⟨rfl, rfl⟩ := hc
  cases c with
  | true =>
    rw [if_pos rfl, ← hsize₃, if_pos rfl]
    refine (hy h₄ hF₄ ⟨by omega, hkeeps₁.size ▸ hroom.size, hkeeps₁.size ▸ hroom.file⟩ hs₁
      (Nat.lt_of_lt_of_le he hm₁.size)).mono fun v s' r' hv => ?_
    exact (hv.mono fun i hi => by omega).after hm₁ (hkeeps₁.mono fun i hi => by omega)
  | false =>
    exact .ok ⟨ρ₁, m₁, regs₁, rfl, hs₁, hm₁, hkeeps₁.mono fun i hi => by omega, hv₁, hh₁⟩

theorem exprFollows_or {x y : Expr} (hx : ExprFollows F k call n x) (hy : ExprFollows F k call n y)
    (note : Note) : ExprFollows F k call n (.binary note .or x y) := by
  intro ρ s m e dst b b' regs h hF hroom hs he
  rw [Lower.expr] at h
  obtain ⟨right, b₁, h₁, h⟩ := bind_eq_ok h
  obtain ⟨done, b₂, h₂, h⟩ := bind_eq_ok h
  obtain ⟨_, b₃, h₃, h⟩ := bind_eq_ok h
  obtain ⟨_, b₄, h₄, h⟩ := bind_eq_ok h
  obtain ⟨_, b₅, h₅, h⟩ := bind_eq_ok h
  obtain ⟨_, b₆, h₆, h⟩ := bind_eq_ok h
  obtain ⟨_, b₇, h₇, h₈⟩ := bind_eq_ok h
  have hx₂ : b₁.Extends b₁.labels.size b₁.next.toNat b₂ := newLabel_extends h₂
  have hx₃ := Tame.extends (fun _ _ => safe_expr x dst) h₃
  have hx₄ := Tame.extends (fun _ _ => Safe.jumpIfFalse dst right) h₄
  have hx₅ := Tame.extends (fun _ _ => Safe.jump done) h₅
  have hx₇ := Tame.extends (fun _ _ => safe_expr y dst) h₇
  obtain ⟨hright₁, hnumber₁⟩ := newLabel_unbound h₁
  obtain ⟨hdone₂, hnumber₂⟩ := newLabel_unbound h₂
  have hright := hx₅.unbound (hx₄.unbound (hx₃.unbound (hx₂.unbound hright₁)))
  have hdone₅ := hx₅.unbound (hx₄.unbound (hx₃.unbound hdone₂))
  have hne : right.number ≠ done.number := by
    have := hright₁.lt
    omega
  have hdone := hx₇.unbound (bind_unbound h₆ hdone₅ hne)
  obtain ⟨hF₇, hat', hitems₈, -⟩ := bind_spec h₈ hdone hF hfits
  have hF₆ := hx₇.before.trans hF₇
  obtain ⟨hF₅, hat, hitems₆, hnext₆⟩ := bind_spec h₆ hright hF₆ hfits
  obtain ⟨hF₄, ⟨t', ht', hcode'⟩, hsize₅, hnext₅⟩ := jump_spec h₅ hF₅ hat'
  obtain ⟨hF₃, ⟨t, ht, hcode⟩, hsize₄, hnext₄⟩ := jumpIfFalse_spec h₄ hF₄ hat
  obtain ⟨hF₁, hitems₂, hnext₂⟩ := newLabel_spec h₂ (hx₃.before.trans hF₃)
  obtain ⟨-, hitems₁, hnext₁⟩ := newLabel_spec h₁ hF₁
  have hlt := hroom.lt
  have hle₃ := hx₃.next
  have hle₇ := hx₇.next
  rw [← hk] at hcode hcode'
  rw [Eval.expr, hitems₈, ← hitems₁, ← hitems₂]
  refine (hx h₃ hF₃ ⟨by omega, hroom.size, hroom.file⟩ hs he).bind fun v s₁ r₁ hv => ?_
  obtain ⟨ρ₁, m₁, regs₁, rfl, hs₁, hm₁, hkeeps₁, hv₁, hh₁⟩ := hv
  refine (simulates_jumpIfFalse hcode hv₁ ht hs₁).bind fun c s₂ r₂ hc => ?_
  obtain ⟨rfl, rfl⟩ := hc
  cases c with
  | true =>
    rw [if_pos rfl, ← hsize₄, if_pos rfl]
    exact .step (Context.step_jump hcode' ht')
      (.ok ⟨ρ₁, m₁, regs₁, rfl, hs₁, hm₁, hkeeps₁.mono fun i hi => by omega, hv₁, hh₁⟩)
  | false =>
    rw [if_neg Bool.false_ne_true, if_neg Bool.false_ne_true, ← hitems₆]
    refine (hy h₇ hF₇ ⟨by omega, hkeeps₁.size ▸ hroom.size, hkeeps₁.size ▸ hroom.file⟩ hs₁
      (Nat.lt_of_lt_of_le he hm₁.size)).mono fun v s' r' hv => ?_
    exact (hv.mono fun i hi => by omega).after hm₁ (hkeeps₁.mono fun i hi => by omega)

omit hfits in
theorem exprFollows_equal {x y : Expr} (hx : ExprFollows F k call n x)
    (hy : ExprFollows F k call n y) (note : Note) :
    ExprFollows F k call n (.binary note .equal x y) := by
  intro ρ s m e dst b b' regs h hF hroom hs he
  rw [Lower.expr] at h
  obtain ⟨r, b₁, h₁, h⟩ := bind_eq_ok h
  obtain ⟨r', b₂, h₂, h⟩ := bind_eq_ok h
  obtain ⟨_, b₃, h₃, h⟩ := bind_eq_ok h
  obtain ⟨_, b₄, h₄, h₅⟩ := bind_eq_ok h
  have hx₃ := Tame.extends (fun _ _ => safe_expr x r) h₃
  have hx₄ := Tame.extends (fun _ _ => safe_expr y r') h₄
  obtain ⟨hF₄, hcode, hsize, -⟩ := emit_spec h₅ hF
  have hF₃ := hx₄.before.trans hF₄
  have hF₂ := hx₃.before.trans hF₃
  obtain ⟨hF₁, hindex₂, hnext₂, -, hfile₂, hitems₂⟩ := allocate_spec h₂ hF₂
  obtain ⟨-, hindex₁, hnext₁, -, hfile₁, hitems₁⟩ := allocate_spec h₁ hF₁
  have hlt := hroom.lt
  have hfile := hroom.file
  have hle₃ := hx₃.next
  rw [← hk] at hcode
  rw [Eval.expr, hsize, ← hitems₁, ← hitems₂]
  refine (hx h₃ hF₃ ⟨by omega, by omega, hfile⟩ hs he).bind fun v s₁ r₁ hv => ?_
  obtain ⟨ρ₁, m₁, regs₁, rfl, hs₁, hm₁, hkeeps₁, hv₁, hh₁⟩ := hv
  have hsize₁ := hkeeps₁.size
  refine (hy h₄ hF₄ ⟨by omega, by omega, by omega⟩ hs₁
    (Nat.lt_of_lt_of_le he hm₁.size)).bind fun w s₂ r₂ hw => ?_
  obtain ⟨ρ₂, m₂, regs₂, rfl, hs₂, hm₂, hkeeps₂, hw₂, hh₂⟩ := hw
  have hd : dst.index < regs₂.size := hkeeps₂.size ▸ hkeeps₁.size ▸ hroom.size
  have hv₂ : regs₂[r.index]? = some v := (hkeeps₂.get (by omega)).trans hv₁
  refine .step (Context.step_isEqual hcode hv₂ hw₂ hd) (.ok ?_)
  exact ((Done.set hs₂ hd (show s₂.Holds (.bool (v.same w)) from trivial)).mono fun i hi => hi.2).after (hm₁.trans hm₂)
    ((hkeeps₁.mono fun i hi => by omega).trans (hkeeps₂.mono fun i hi => by omega))

omit hk hfits in
/-- The arguments of a call are evaluated into consecutive registers. -/
theorem simulates_exprs {dst : Nat → Register} {first : Register}
    (hdst : ∀ i, dst i = first.offset i) : (xs : List Expr) →
    (∀ x ∈ xs, ExprFollows F k call n x) → ∀ ⦃index : Nat⦄ ⦃ρ : Nat → Nat⦄ ⦃s : Store⦄ ⦃m : Machine⦄
    ⦃e : Nat⦄ ⦃b b' : Builder⦄ ⦃regs : Array Value⦄,
    each [] dst (fun _ => pure ()) index xs b = .ok () b' → b'.Before F →
    first.index + index + xs.length ≤ b.next.toNat →
    first.index + index + xs.length ≤ regs.size → F.block.registerCount.toNat ≤ regs.size →
    Shows ρ s m.heap → e < s.heap.environments.size →
    Simulates n (Eval.exprs call e xs s) (k.run m (ρ e) b.items.size regs) fun vs s' r' =>
      ∃ ρ' m' regs', r' = k.run m' (ρ' e) b'.items.size regs' ∧ Shows ρ' s' m'.heap ∧
        Moves ρ s ρ' s' ∧ Keeps (fun i => i < first.index + index) regs regs' ∧
        vs.length = xs.length ∧
        (∀ (j : Nat) (hj : j < vs.length),
          regs'[(first.offset (index + j)).index]? = some vs[j]) ∧
        ∀ v ∈ vs, s'.Holds v
  | [], _, index, ρ, s, m, e, b, b', regs, h, hF, hnext, hsize, hfile, hs, he => by
    rw [each] at h
    obtain ⟨-, rfl⟩ := pure_eq_ok h
    rw [Eval.exprs]
    exact .ok ⟨ρ, m, regs, rfl, hs, .refl ρ s, .refl regs, rfl,
      fun j hj => absurd hj (Nat.not_lt_zero j), fun v hv => absurd hv List.not_mem_nil⟩
  | x :: xs, hxs, index, ρ, s, m, e, b, b', regs, h, hF, hnext, hsize, hfile, hs, he => by
    rw [each] at h
    obtain ⟨_, b₁, h₁, h⟩ := bind_eq_ok h
    obtain ⟨_, b₂, h₂, h₃⟩ := bind_eq_ok h
    obtain ⟨-, rfl⟩ := pure_eq_ok h₂
    have hx₁ := Tame.extends (fun _ _ => safe_expr x (dst index)) h₁
    have hx₃ := Tame.extends (fun _ _ => safe_each (fun _ => .pure ()) xs dst (index + 1)) h₃
    have hF₁ := hx₃.before.trans hF
    have hle := hx₁.next
    have hmax := b.next.toNat_lt
    rw [List.length_cons] at hnext hsize
    have hindex : (dst index).index = first.index + index := by
      rw [hdst, Register.index_offset (by omega)]
    rw [Eval.exprs]
    refine (hxs x List.mem_cons_self h₁ hF₁ ⟨by omega, by omega, hfile⟩ hs he).bind
      fun v s₁ r₁ hv => ?_
    obtain ⟨ρ₁, m₁, regs₁, rfl, hs₁, hm₁, hkeeps₁, hv₁, hh₁⟩ := hv
    have hsize₁ := hkeeps₁.size
    refine (simulates_exprs hdst xs (fun y hy => hxs y (List.mem_cons_of_mem x hy)) h₃ hF
      (by omega) (by omega) (by omega) hs₁ (Nat.lt_of_lt_of_le he hm₁.size)).bind
      fun vs s₂ r₂ hvs => ?_
    obtain ⟨ρ₂, m₂, regs₂, rfl, hs₂, hm₂, hkeeps₂, hlength, hvs₂, hhs₂⟩ := hvs
    refine .ok ⟨ρ₂, m₂, regs₂, rfl, hs₂, hm₁.trans hm₂, (hkeeps₁.mono fun i hi => by omega).trans
      (hkeeps₂.mono fun i hi => by omega), congrArg Nat.succ hlength, fun j hj => ?_,
      fun w hw => ?_⟩
    · cases j with
      | zero =>
        rw [Nat.add_zero, ← hdst, hkeeps₂.get (by omega), hv₁]
        rfl
      | succ j =>
        have := hvs₂ j (Nat.lt_of_succ_lt_succ hj)
        rw [Nat.add_assoc, Nat.add_comm 1] at this
        exact this
    · rcases List.mem_cons.1 hw with rfl | hw
      · exact hm₂.holds hh₁
      · exact hhs₂ w hw

/-- The call of an operator follows its evaluation. -/
theorem exprFollows_operator (hcall : CallFollows call n) {op : BinOp} (hop : op.IsValue)
    {x y : Expr} (hx : ExprFollows F k call n x) (hy : ExprFollows F k call n y) (note : Note) :
    ExprFollows F k call n (.binary note op x y) := by
  intro ρ s m e dst b b' regs h hF hroom hs he
  rw [expr_operator hop] at h
  obtain ⟨callee, b₁, h₁, h⟩ := bind_eq_ok h
  obtain ⟨j, b₂, h₂, h⟩ := bind_eq_ok h
  obtain ⟨_, b₃, h₃, h⟩ := bind_eq_ok h
  obtain ⟨first, b₄, h₄, h⟩ := bind_eq_ok h
  obtain ⟨_, b₅, h₅, h⟩ := bind_eq_ok h
  obtain ⟨_, b₆, h₆, h₇⟩ := bind_eq_ok h
  have hx₅ := Tame.extends (fun _ _ => safe_expr x first) h₅
  have hx₆ := Tame.extends (fun _ _ => safe_expr y (first.offset 1)) h₆
  obtain ⟨hF₆, hcode₇, hsize₇, -⟩ := emit_spec h₇ hF
  have hF₅ := hx₆.before.trans hF₆
  have hF₄ := hx₅.before.trans hF₅
  obtain ⟨hF₃, hindex₄, hnext₄, hmax₄, hfile₄, hitems₄⟩ := allocateRange_spec h₄ hF₄
  obtain ⟨hF₂, hcode₃, hsize₃, hnext₃⟩ := emit_spec h₃ hF₃
  obtain ⟨hF₁, hname, hitems₂, hnext₂⟩ := identifier_spec h₂ hF₂ hfits
  obtain ⟨-, hindex₁, hnext₁, -, hfile₁, hitems₁⟩ := allocate_spec h₁ hF₁
  have hlt := hroom.lt
  have hfile := hroom.file
  have hle₅ := hx₅.next
  have hindex₆ : (first.offset 1).index = first.index + 1 := Register.index_offset (by omega)
  rw [← hk] at hcode₃ hcode₇ hname
  rw [hitems₂, hitems₁] at hcode₃
  have hEval : Eval.expr call e (.binary note op x y) = (do
      let f ← Eval.lookup e op.symbol
      let v ← Eval.expr call e x
      let w ← Eval.expr call e y
      Eval.callValue call true f [v, w]) := by
    rw [Eval.expr]
    · exact hop.1
    · exact hop.2.1
    · exact hop.2.2
  rw [hEval, hsize₇]
  refine (simulates_getLocal hcode₃ hname (by omega) hs he).bind fun f s₁ r₁ hf => ?_
  obtain ⟨ρ₁, m₁, regs₁, rfl, hs₁, hm₁, hkeeps₁, hf₁, hh₁⟩ := hf
  have he₁ := Nat.lt_of_lt_of_le he hm₁.size
  have hsize₁ := hkeeps₁.size
  have hposition : b.items.size + 1 = b₄.items.size := by
    rw [hitems₄, hsize₃, hitems₂, hitems₁]
  rw [hposition]
  refine (hx h₅ hF₅ ⟨by omega, by omega, by omega⟩ hs₁ he₁).bind fun v s₂ r₂ hv => ?_
  obtain ⟨ρ₂, m₂, regs₂, rfl, hs₂, hm₂, hkeeps₂, hv₂, hh₂⟩ := hv
  have he₂ := Nat.lt_of_lt_of_le he₁ hm₂.size
  have hsize₂ := hkeeps₂.size
  refine (hy h₆ hF₆ ⟨by omega, by omega, by omega⟩ hs₂ he₂).bind fun w s₃ r₃ hw => ?_
  obtain ⟨ρ₃, m₃, regs₃, rfl, hs₃, hm₃, hkeeps₃, hw₃, hh₃⟩ := hw
  have he₃ := Nat.lt_of_lt_of_le he₂ hm₃.size
  have hsize₃' := hkeeps₃.size
  have hf₃ : regs₃[callee.index]? = some f := by
    rw [hkeeps₃.get (by omega), hkeeps₂.get (by omega), hf₁]
  have hv₃ : regs₃[first.index]? = some v := by rw [hkeeps₃.get (by omega), hv₂]
  refine (simulates_call hcall hcode₇ hf₃ rfl (fun j hj => ?_) (by omega) hs₃ he₃
    (hm₃.holds (hm₂.holds hh₁)) fun u hu => ?_).mono fun u s' r' hu => ?_
  · match j, hj with
    | 0, _ =>
      rw [Register.offset_zero]
      exact hv₃
    | 1, _ => exact hw₃
  · rcases List.mem_cons.1 hu with rfl | hu
    · exact hm₃.holds hh₂
    · rcases List.mem_singleton.1 hu with rfl
      exact hh₃
  · refine (hu.mono fun i hi => hi.2).after ((hm₁.trans hm₂).trans hm₃) ?_
    exact ((hkeeps₁.mono fun i hi => by omega).trans (hkeeps₂.mono fun i hi => by omega)).trans
      (hkeeps₃.mono fun i hi => by omega)

/-- Where it is not known that the callee is a function, the code tests it and makes a hole. -/
theorem simulates_callOrHole (hcall : CallFollows call n) {ρ : Nat → Nat} {s : Store} {m : Machine}
    {e : Nat} {regs : Array Value} {dst callee first : Register} {argc : Nat} {f : Value}
    {args : List Value} {b b' : Builder} (h : callOrHole dst callee argc first b = .ok () b')
    (hF : b'.Before F) (hroom : Room F b dst regs) (hcallee : callee.index < b.next.toNat)
    (hfirst : first.index + argc ≤ b.next.toNat) (hf : regs[callee.index]? = some f)
    (hn : args.length = argc)
    (hargs : ∀ (j : Nat) (hj : j < args.length), regs[(first.offset j).index]? = some args[j])
    (hs : Shows ρ s m.heap) (he : e < s.heap.environments.size) (hh : s.Holds f)
    (hhs : ∀ v ∈ args, s.Holds v) :
    Simulates n (Eval.callValue call false f args s) (k.run m (ρ e) b.items.size regs)
      (Done k ρ s e b'.items.size (fun i => i < b.next.toNat ∧ i ≠ dst.index) regs dst) := by
  obtain ⟨test, b₁, h₁, h⟩ := bind_eq_ok h
  obtain ⟨hole, b₂, h₂, h⟩ := bind_eq_ok h
  obtain ⟨done, b₃, h₃, h⟩ := bind_eq_ok h
  obtain ⟨_, b₄, h₄, h⟩ := bind_eq_ok h
  obtain ⟨_, b₅, h₅, h⟩ := bind_eq_ok h
  obtain ⟨_, b₆, h₆, h⟩ := bind_eq_ok h
  obtain ⟨_, b₇, h₇, h⟩ := bind_eq_ok h
  obtain ⟨_, b₈, h₈, h⟩ := bind_eq_ok h
  obtain ⟨_, b₉, h₉, h₁₀⟩ := bind_eq_ok h
  have hx₃ := newLabel_extends h₃
  have hx₄ := Tame.extends (fun _ _ => Safe.emit _) h₄
  have hx₅ := Tame.extends (fun _ _ => Safe.jumpIfFalse test hole) h₅
  have hx₆ := Tame.extends (fun _ _ => Safe.emit _) h₆
  have hx₇ := Tame.extends (fun _ _ => Safe.jump done) h₇
  have hx₉ := Tame.extends (fun _ _ => Safe.emit _) h₉
  obtain ⟨hhole₂, -⟩ := newLabel_unbound h₂
  obtain ⟨hdone₃, hnumber₃⟩ := newLabel_unbound h₃
  have hne : hole.number ≠ done.number := by
    have := hhole₂.lt
    omega
  have hhole := hx₇.unbound (hx₆.unbound (hx₅.unbound (hx₄.unbound (hx₃.unbound hhole₂))))
  have hdone₇ := hx₇.unbound (hx₆.unbound (hx₅.unbound (hx₄.unbound hdone₃)))
  have hdone := hx₉.unbound (bind_unbound h₈ hdone₇ hne)
  obtain ⟨hF₉, hatDone, hitems₁₀, -⟩ := bind_spec h₁₀ hdone hF hfits
  obtain ⟨hF₈, hcode₉, hsize₉, hnext₉⟩ := emit_spec h₉ hF₉
  obtain ⟨hF₇, hatHole, hitems₈, hnext₈⟩ := bind_spec h₈ hhole hF₈ hfits
  obtain ⟨hF₆, ⟨t', ht', hcode₇⟩, hsize₇, hnext₇⟩ := jump_spec h₇ hF₇ hatDone
  obtain ⟨hF₅, hcode₆, hsize₆, hnext₆⟩ := emit_spec h₆ hF₆
  obtain ⟨hF₄, ⟨t, ht, hcode₅⟩, hsize₅, hnext₅⟩ := jumpIfFalse_spec h₅ hF₅ hatHole
  obtain ⟨hF₃, hcode₄, hsize₄, hnext₄⟩ := emit_spec h₄ hF₄
  obtain ⟨hF₂, hitems₃, hnext₃⟩ := newLabel_spec h₃ hF₃
  obtain ⟨hF₁, hitems₂, hnext₂⟩ := newLabel_spec h₂ hF₂
  obtain ⟨-, hindex₁, hnext₁, -, hfile₁, hitems₁⟩ := allocate_spec h₁ hF₁
  have hlt := hroom.lt
  have hfile := hroom.file
  have hmax := b.next.toNat_lt
  rw [← hk] at hcode₄ hcode₅ hcode₆ hcode₇ hcode₉
  rw [hitems₁₀, ← hitems₁, ← hitems₂, ← hitems₃]
  have htest : test.index < regs.size := by omega
  obtain ⟨m₁, hheap₁, hstep⟩ := hs.step_checkTypeOf (e := ρ e) hh (.inl rfl) hcode₄ hf htest
  rw [← hsize₄] at hstep
  refine .step hstep ?_
  have hs₁ : Shows ρ s m₁.heap := hheap₁ ▸ hs
  have hkeeps : Keeps (· ≠ test.index) regs
      (regs.setIfInBounds test.index (.bool (decide (f.tyClass = .function)))) :=
    .set fun hne => hne rfl
  have hsize := hkeeps.size
  have htested : (regs.setIfInBounds test.index
      (.bool (decide (f.tyClass = .function))))[test.index]? = _ := getElem?_set htest
  have hf₁ := (hkeeps.get (by omega : callee.index ≠ test.index)).trans hf
  have hn' : args.length = (UInt32.ofNat argc).toNat := by
    rw [UInt32.toNat_ofNat_of_lt' (by simp only [UInt32.size]; omega), hn]
  have hargs₁ : ∀ (j : Nat) (hj : j < args.length),
      (regs.setIfInBounds test.index
        (.bool (decide (f.tyClass = .function))))[(first.offset j).index]? = some args[j] := by
    intro j hj
    rw [hkeeps.get, hargs j hj]
    rw [Register.index_offset (by omega)]
    omega
  by_cases hclass : f.tyClass = .function
  · rw [decide_eq_true hclass] at hkeeps htested hf₁ hargs₁ ⊢
    refine .step (Context.step_jumpIfFalse_true hcode₅ htested) ?_
    rw [← hsize₅]
    have hfollows := simulates_call (n := n) (e := e) hcall hcode₆ hf₁ hn' hargs₁
      (by rw [Array.size_setIfInBounds]; exact hroom.size) hs₁ he hh hhs
    have heq : Eval.callValue call true f args s = Eval.callValue call false f args s := by
      cases f with
      | function c => rfl
      | builtin op => rfl
      | _ => cases hclass
    rw [heq] at hfollows
    refine hfollows.andThen fun v s' r' hv => ?_
    obtain ⟨ρ', m', regs', rfl, hs', hm', hkeeps', hv', hh'⟩ := hv
    rw [← hsize₆]
    exact ⟨_, .one (Context.step_jump hcode₇ ht'), ρ', m', regs', rfl, hs', hm',
      (hkeeps.mono fun i hi => by omega).trans (hkeeps'.mono fun i hi => hi.2), hv', hh'⟩
  · rw [decide_eq_false hclass] at hkeeps htested hf₁ hargs₁ ⊢
    refine .step (Context.step_jumpIfFalse_false hcode₅ htested ht) ?_
    rw [← hitems₈, hsize₉]
    refine (simulates_newCallHole hcode₉ hf₁ hclass hn' hargs₁
      (by rw [Array.size_setIfInBounds]; exact hroom.size) hs₁).mono fun v s' r' hv => ?_
    exact (hv.mono fun i hi => hi.2).after (.refl ρ s) (hkeeps.mono fun i hi => by omega)

omit hfits in
/-- Where it is known that the callee is a function, its arguments are evaluated and it is called. -/
theorem simulates_knownCall (hcall : CallFollows call n) {ρ : Nat → Nat} {s : Store} {m : Machine}
    {e : Nat} {regs : Array Value} {dst callee : Register} {f : Value} {xs : List Expr}
    {b b' : Builder} (hxs : ∀ y ∈ xs, ExprFollows F k call n y)
    (h : (do
      let first ← allocateRange xs.length
      each [] first.offset (fun _ => pure ()) 0 xs
      emit (.call dst callee (.ofNat xs.length) first)) b = .ok () b')
    (hF : b'.Before F) (hroom : Room F b dst regs) (hcallee : callee.index < b.next.toNat)
    (hf : regs[callee.index]? = some f) (hs : Shows ρ s m.heap)
    (he : e < s.heap.environments.size) (hh : s.Holds f) :
    Simulates n ((do
        let args ← Eval.exprs call e xs
        Eval.callValue call true f args) s) (k.run m (ρ e) b.items.size regs)
      (Done k ρ s e b'.items.size (fun i => i < b.next.toNat ∧ i ≠ dst.index) regs dst) := by
  obtain ⟨first, b₁, h₁, h⟩ := bind_eq_ok h
  obtain ⟨_, b₂, h₂, h₃⟩ := bind_eq_ok h
  have hx₂ := Tame.extends (fun _ _ => safe_each (fun _ => .pure ()) xs _ 0) h₂
  obtain ⟨hF₂, hcode, hsize, -⟩ := emit_spec h₃ hF
  have hF₁ := hx₂.before.trans hF₂
  obtain ⟨-, hindex₁, hnext₁, hmax₁, hfile₁, hitems₁⟩ := allocateRange_spec h₁ hF₁
  have hlt := hroom.lt
  have hfile := hroom.file
  rw [← hk] at hcode
  rw [hsize, ← hitems₁]
  refine (simulates_exprs (fun _ => rfl) xs hxs h₂ hF₂ (by omega) (by omega) hfile hs he).bind
    fun args s₁ r₁ hargs => ?_
  obtain ⟨ρ₁, m₁, regs₁, rfl, hs₁, hm₁, hkeeps₁, hlength, hargs₁, hhs⟩ := hargs
  have hn : args.length = (UInt32.ofNat xs.length).toNat := by
    rw [UInt32.toNat_ofNat_of_lt' (by simp only [UInt32.size]; omega), hlength]
  have hd : dst.index < regs₁.size := hkeeps₁.size ▸ hroom.size
  refine (simulates_call hcall hcode ((hkeeps₁.get (by omega)).trans hf) hn (fun j hj => ?_) hd hs₁
    (Nat.lt_of_lt_of_le he hm₁.size) (hm₁.holds hh) hhs).mono fun v s' r' hv => ?_
  · have := hargs₁ j hj
    rwa [Nat.zero_add] at this
  · exact (hv.mono fun i hi => hi.2).after hm₁ (hkeeps₁.mono fun i hi => by omega)

/-- Where it is not known that the callee is a function, its arguments are evaluated as well. -/
theorem simulates_unknownCall (hcall : CallFollows call n) {ρ : Nat → Nat} {s : Store} {m : Machine}
    {e : Nat} {regs : Array Value} {dst callee : Register} {f : Value} {xs : List Expr}
    {b b' : Builder} (hxs : ∀ y ∈ xs, ExprFollows F k call n y)
    (h : (do
      let first ← allocateRange xs.length
      each [] first.offset (fun _ => pure ()) 0 xs
      callOrHole dst callee xs.length first) b = .ok () b')
    (hF : b'.Before F) (hroom : Room F b dst regs) (hcallee : callee.index < b.next.toNat)
    (hf : regs[callee.index]? = some f) (hs : Shows ρ s m.heap)
    (he : e < s.heap.environments.size) (hh : s.Holds f) :
    Simulates n ((do
        let args ← Eval.exprs call e xs
        Eval.callValue call false f args) s) (k.run m (ρ e) b.items.size regs)
      (Done k ρ s e b'.items.size (fun i => i < b.next.toNat ∧ i ≠ dst.index) regs dst) := by
  obtain ⟨first, b₁, h₁, h⟩ := bind_eq_ok h
  obtain ⟨_, b₂, h₂, h₃⟩ := bind_eq_ok h
  have hx₂ := Tame.extends (fun _ _ => safe_each (fun _ => .pure ()) xs _ 0) h₂
  have hF₂ := Tame.before (fun _ _ => safe_callOrHole dst callee xs.length first) h₃ hF
  have hF₁ := hx₂.before.trans hF₂
  obtain ⟨-, hindex₁, hnext₁, hmax₁, hfile₁, hitems₁⟩ := allocateRange_spec h₁ hF₁
  have hlt := hroom.lt
  have hfile := hroom.file
  have hle₂ := hx₂.next
  rw [← hitems₁]
  refine (simulates_exprs (fun _ => rfl) xs hxs h₂ hF₂ (by omega) (by omega) hfile hs he).bind
    fun args s₁ r₁ hargs => ?_
  obtain ⟨ρ₁, m₁, regs₁, rfl, hs₁, hm₁, hkeeps₁, hlength, hargs₁, hhs⟩ := hargs
  have hsize₁ := hkeeps₁.size
  have hsize := hroom.size
  refine (simulates_callOrHole hk hfits hcall h₃ hF ⟨by omega, by omega, by omega⟩ (by omega)
    (by omega) ((hkeeps₁.get (by omega)).trans hf) hlength (fun j hj => ?_) hs₁
    (Nat.lt_of_lt_of_le he hm₁.size) (hm₁.holds hh) hhs).mono fun v s' r' hv => ?_
  · have := hargs₁ j hj
    rwa [Nat.zero_add] at this
  · exact (hv.mono fun i hi => by omega).after hm₁ (hkeeps₁.mono fun i hi => by omega)

theorem exprFollows_call (hcall : CallFollows call n) {x : Expr} {xs : List Expr}
    {implicit : Option (List Ty)} (himplicit : implicit.getD [] = [])
    (hx : ExprFollows F k call n x) (hxs : ∀ y ∈ xs, ExprFollows F k call n y) (note : Note) :
    ExprFollows F k call n (.call note x xs implicit) := by
  intro ρ s m e dst b b' regs h hF hroom hs he
  rw [Lower.expr] at h
  obtain ⟨callee, b₁, h₁, h⟩ := bind_eq_ok h
  obtain ⟨_, b₂, h₂, h⟩ := bind_eq_ok h
  have hx₂ := Tame.extends (fun _ _ => safe_expr x callee) h₂
  have hle₂ := hx₂.next
  have hlt := hroom.lt
  have hfile := hroom.file
  -- the callee, and how the rest goes on
  have hcallee : ∀ {y : Value → Eval Value}, b₂.Before F →
      (∀ ⦃ρ' : Nat → Nat⦄ ⦃s' : Store⦄ ⦃m' : Machine⦄ ⦃regs' : Array Value⦄ ⦃f : Value⦄,
        Shows ρ' s' m'.heap → e < s'.heap.environments.size → Room F b₂ dst regs' →
        callee.index < b₂.next.toNat → regs'[callee.index]? = some f → s'.Holds f →
        Simulates n (y f s') (k.run m' (ρ' e) b₂.items.size regs')
          (Done k ρ' s' e b'.items.size (fun i => i < b₂.next.toNat ∧ i ≠ dst.index) regs'
            dst)) →
      Simulates n ((Eval.expr call e x >>= y) s) (k.run m (ρ e) b.items.size regs)
        (Done k ρ s e b'.items.size (fun i => i < b.next.toNat ∧ i ≠ dst.index) regs dst) := by
    intro y hF₂ hrest
    obtain ⟨-, hindex₁, hnext₁, -, hfile₁, hitems₁⟩ := allocate_spec h₁ (hx₂.before.trans hF₂)
    rw [← hitems₁]
    refine (hx h₂ hF₂ ⟨by omega, by omega, hfile⟩ hs he).bind fun f s₁ r₁ hf => ?_
    obtain ⟨ρ₁, m₁, regs₁, rfl, hs₁, hm₁, hkeeps₁, hf₁, hh₁⟩ := hf
    refine (hrest hs₁ (Nat.lt_of_lt_of_le he hm₁.size)
      ⟨by omega, hkeeps₁.size ▸ hroom.size, hkeeps₁.size ▸ hroom.file⟩ (by omega) hf₁
      hh₁).mono fun v s' r' hv => ?_
    exact (hv.mono fun i hi => by omega).after hm₁ (hkeeps₁.mono fun i hi => by omega)
  have hunknown : (do
        let first ← allocateRange xs.length
        each [] first.offset (fun _ => pure ()) 0 xs
        callOrHole dst callee xs.length first : Lower Unit) b₂ = .ok () b' →
      Simulates n ((do
          let f ← Eval.expr call e x
          let args ← Eval.exprs call e xs
          Eval.callValue call false f args) s) (k.run m (ρ e) b.items.size regs)
        (Done k ρ s e b'.items.size (fun i => i < b.next.toNat ∧ i ≠ dst.index) regs dst) := by
    intro h
    have htame : Tame (do
        let first ← allocateRange xs.length
        each [] first.offset (fun _ => pure ()) 0 xs
        callOrHole dst callee xs.length first : Lower Unit) := fun _ _ =>
      .bind (.allocateRange _) fun _ => .bind (safe_each (fun _ => .pure ()) xs _ 0) fun _ =>
        safe_callOrHole ..
    exact hcallee (htame.before h hF) fun ρ' s' m' regs' f hs' he' hroom' hc' hf' hh' =>
      simulates_unknownCall hk hfits hcall hxs h hF hroom' hc' hf' hs' he' hh'
  rw [Eval.expr]
  cases implicit with
  | none => exact hunknown h
  | some slots =>
    cases himplicit
    cases hfn : isFnTy x.ty? with
    | false =>
      rw [hfn] at h
      exact hunknown h
    | true =>
      rw [hfn] at h
      -- no inferred arguments
      simp only [List.length_nil, Nat.zero_add, List.all_nil, implicitArgs, tys, inferArgs,
        if_true, pure_bind] at h
      have htame : Tame (do
          let first ← allocateRange xs.length
          each [] first.offset (fun _ => pure ()) 0 xs
          emit (.call dst callee (.ofNat xs.length) first) : Lower Unit) := fun _ _ =>
        .bind (.allocateRange _) fun _ => .bind (safe_each (fun _ => .pure ()) xs _ 0) fun _ =>
          .emit _
      exact hcallee (htame.before h hF) fun ρ' s' m' regs' f hs' he' hroom' hc' hf' hh' =>
        simulates_knownCall hk hcall hxs h hF hroom' hc' hf' hs' he' hh'

/-! ## Arrays, tuples and objects -/

/-- If the value is a tuple, it has at least so many items. -/
def Value.HasRoom (h : Heap) (count : Nat) : Value → Prop
  | .tuple c => count ≤ (h.list c).size
  | _ => True

/-- The instructions that store the items of an array or a tuple in turn. -/
inductive StoresItem (dst value : Register) (cell : Nat) : Value → (Nat → Instr) → Prop where
  | array : StoresItem dst value cell (.array cell) fun i => .setArrayIndex dst (.ofNat i) value
  | tuple : StoresItem dst value cell (.tuple cell) fun i => .setTupleIndex dst (.ofNat i) value

omit hk hfits in
theorem StoresItem.step {dst value : Register} {cell i p e : Nat} {target v : Value}
    {instr : Nat → Instr} {m : Machine} {regs : Array Value}
    (h : StoresItem dst value cell target instr) (hc : k.block.code[p]? = some (instr i))
    (hi : i < 2 ^ 32) (htarget : regs[dst.index]? = some target)
    (hroom : target.HasRoom m.heap (i + 1)) (hv : regs[value.index]? = some v) :
    Exec.step (k.run m e p regs) =
      .ok none (k.run (m.withHeap (m.heap.setItem cell i v)) e (p + 1) regs) := by
  have hindex : (UInt32.ofNat i).toNat = i := UInt32.toNat_ofNat_of_lt' hi
  cases h with
  | array =>
    have hstep := Context.step_setArrayIndex (m := m) (e := e) hc htarget hv
    rwa [hindex] at hstep
  | tuple =>
    have hstep := Context.step_setTupleIndex (m := m) (e := e) hc htarget hv (hindex.symm ▸ hroom)
    rwa [hindex] at hstep

omit hk hfits in
theorem Value.HasRoom.mono {h h' : Heap} {count count' : Nat} {v : Value}
    (hv : v.HasRoom h count) (hh : ∀ c, (h.list c).size ≤ (h'.list c).size)
    (hcount : count' ≤ count) : v.HasRoom h' count' := by
  cases v with
  | tuple c => exact Nat.le_trans hcount (Nat.le_trans hv (hh c))
  | _ => trivial

omit hk hfits in
/-- Each item has an instruction of its own that stores it. -/
theorem length_le_of_each {params : ImplicitParams} {dst : Nat → Register} {instr : Nat → Instr}
    {xs : List Expr} {index : Nat} {b b' : Builder}
    (h : each params dst (fun i => emit (instr i)) index xs b = .ok () b') :
    b.items.size + xs.length ≤ b'.items.size := by
  induction xs generalizing index b with
  | nil =>
    rw [each] at h
    obtain ⟨-, rfl⟩ := pure_eq_ok h
    exact Nat.le_refl _
  | cons x xs ih =>
    rw [each] at h
    obtain ⟨_, b₁, h₁, h⟩ := bind_eq_ok h
    obtain ⟨_, b₂, h₂, h₃⟩ := bind_eq_ok h
    have hle := (Tame.extends (fun _ _ => safe_expr x (dst index)) h₁).before.size_le
    have hlt := size_lt_of_emit h₂
    have := ih h₃
    rw [List.length_cons]
    omega

/-- The items of an array or a tuple are evaluated into a register in turn and stored. -/
theorem simulates_items {dst value : Register} {cell : Nat} {target : Value}
    {instr : Nat → Instr} (hstores : StoresItem dst value cell target instr)
    (hne : dst.index ≠ value.index) : (xs : List Expr) →
    (∀ x ∈ xs, ExprFollows F k call n x) → ∀ ⦃index : Nat⦄ ⦃ρ : Nat → Nat⦄ ⦃s : Store⦄ ⦃m : Machine⦄
    ⦃e : Nat⦄ ⦃b b' : Builder⦄ ⦃regs : Array Value⦄,
    each [] (fun _ => value) (fun i => emit (instr i)) index xs b = .ok () b' → b'.Before F →
    index ≤ b.items.size → dst.index < b.next.toNat → Room F b value regs →
    regs[dst.index]? = some target → target.HasRoom s.heap (index + xs.length) →
    Shows ρ s m.heap → e < s.heap.environments.size →
    Simulates n (Eval.items call e cell index xs s) (k.run m (ρ e) b.items.size regs) fun _ s' r' =>
      ∃ ρ' m' regs', r' = k.run m' (ρ' e) b'.items.size regs' ∧ Shows ρ' s' m'.heap ∧
        Moves ρ s ρ' s' ∧ Keeps (fun i => i < b.next.toNat ∧ i ≠ value.index) regs regs'
  | [], _, index, ρ, s, m, e, b, b', regs, h, hF, hle, hlt, hroom, htarget, hhas, hs, he => by
    rw [each] at h
    obtain ⟨-, rfl⟩ := pure_eq_ok h
    rw [Eval.items]
    exact .ok ⟨ρ, m, regs, rfl, hs, .refl ρ s, .refl regs⟩
  | x :: xs, hxs, index, ρ, s, m, e, b, b', regs, h, hF, hle, hlt, hroom, htarget, hhas, hs, he => by
    rw [each] at h
    obtain ⟨_, b₁, h₁, h⟩ := bind_eq_ok h
    obtain ⟨_, b₂, h₂, h₃⟩ := bind_eq_ok h
    have hx₁ := Tame.extends (fun _ _ => safe_expr x value) h₁
    have hx₃ := Tame.extends
      (fun _ _ => safe_each (fun _ => Safe.emit _) xs (fun _ => value) (index + 1)) h₃
    have hF₂ := hx₃.before.trans hF
    obtain ⟨hF₁, hcode, hsize₂, hnext₂⟩ := emit_spec h₂ hF₂
    have hle₁ := hx₁.before.size_le
    have hnext₁ := hx₁.next
    have hsizeF := hF₂.size_le
    have hfitsF := hfits.code_lt
    have hvalue := hroom.lt
    rw [size_code_finish] at hfitsF
    rw [List.length_cons] at hhas
    rw [← hk] at hcode
    rw [Eval.items]
    refine (hxs x List.mem_cons_self h₁ hF₁ hroom hs he).bind fun v s₁ r₁ hv => ?_
    obtain ⟨ρ₁, m₁, regs₁, rfl, hs₁, hm₁, hkeeps₁, hv₁, hh₁⟩ := hv
    have htarget₁ : regs₁[dst.index]? = some target := (hkeeps₁.get ⟨hlt, hne⟩).trans htarget
    have hhas₁ : target.HasRoom s₁.heap (index + (xs.length + 1)) :=
      hhas.mono hm₁.lists (Nat.le_refl _)
    have hstep := hstores.step (m := m₁) (e := ρ₁ e) hcode (by omega) htarget₁
      (hhas₁.mono (fun c => Nat.le_of_eq (by rw [hs₁.list])) (by omega)) hv₁
    rw [← hsize₂] at hstep
    have hs₂ := hs₁.setItem hh₁ cell index
    have hm₂ : Moves ρ₁ s₁ ρ₁ ⟨s₁.heap.setItem cell index v, s₁.functions⟩ :=
      Shows.moves_cells ρ₁ rfl rfl fun _ => Heap.size_list_setItem
    refine .step hstep (.onHeap ?_)
    have hsize₁ := hkeeps₁.size
    have hroomsize := hroom.size
    have hroomfile := hroom.file
    refine (simulates_items hstores hne xs (fun y hy => hxs y (List.mem_cons_of_mem x hy)) h₃ hF
      (by omega) (by omega) ⟨by omega, by omega, by omega⟩ htarget₁
      (hhas₁.mono hm₂.lists (by omega)) hs₂ (Nat.lt_of_lt_of_le he hm₁.size)).mono
      fun _ s' r' hr => ?_
    obtain ⟨ρ', m', regs', hr', hs', hm', hkeeps'⟩ := hr
    exact ⟨ρ', m', regs', hr', hs', (hm₁.trans hm₂).trans hm', hkeeps₁.trans
      (hkeeps'.mono fun i hi => ⟨by omega, hi.2⟩)⟩

theorem exprFollows_array {xs : List Expr} (hxs : ∀ x ∈ xs, ExprFollows F k call n x)
    (note : Note) : ExprFollows F k call n (.array note xs) := by
  intro ρ s m e dst b b' regs h hF hroom hs he
  rw [Lower.expr] at h
  obtain ⟨_, b₁, h₁, h⟩ := bind_eq_ok h
  obtain ⟨value, b₂, h₂, h₃⟩ := bind_eq_ok h
  have hx₃ := Tame.extends (fun _ _ => safe_each (fun _ => Safe.emit _) xs (fun _ => value) 0) h₃
  obtain ⟨hF₁, hindex₂, hnext₂, -, hfile₂, hitems₂⟩ := allocate_spec h₂ (hx₃.before.trans hF)
  obtain ⟨-, hcode, hsize₁, hnext₁⟩ := emit_spec h₁ hF₁
  have hlt := hroom.lt
  have hfile := hroom.file
  have hd := hroom.size
  rw [← hk] at hcode
  rw [Eval.expr]
  have hstep := Context.step_newArray (m := m) (e := ρ e) hcode hd
  rw [← hsize₁, ← hitems₂] at hstep
  refine .step hstep (.onHeap ?_)
  have hs₁ : Shows ρ ⟨(s.heap.newArray #[]).2, s.functions⟩ (m.heap.newArray #[]).2 :=
    hs.pushList fun v hv => absurd hv (Array.not_mem_empty v)
  have hm₁ : Moves ρ s ρ ⟨(s.heap.newArray #[]).2, s.functions⟩ :=
    Shows.moves_cells ρ rfl rfl fun _ => Heap.size_list_push
  have hkeeps₁ : Keeps (· ≠ dst.index) regs
      (regs.setIfInBounds dst.index (.array m.heap.lists.size)) := .set fun hne => hne rfl
  have hsize := hkeeps₁.size
  have harray : (regs.setIfInBounds dst.index (.array m.heap.lists.size))[dst.index]? =
      some (.array s.heap.lists.size) := by
    rw [getElem?_set hd, hs.lists]
  refine (simulates_items hk hfits .array (by omega) xs hxs (s := ⟨_, s.functions⟩)
    (m := m.withHeap _) h₃ hF (Nat.zero_le _) (by omega) ⟨by omega, by omega, by omega⟩ harray trivial
    hs₁ he).bind fun _ s₂ r₂ hr => ?_
  obtain ⟨ρ₂, m₂, regs₂, rfl, hs₂, hm₂, hkeeps₂⟩ := hr
  refine .ok ⟨ρ₂, m₂, regs₂, rfl, hs₂, hm₁.trans hm₂, ?_, ?_, trivial⟩
  · exact (hkeeps₁.mono fun i hi => hi.2).trans (hkeeps₂.mono fun i hi => by omega)
  · rw [hkeeps₂.get (by omega), harray]

theorem exprFollows_tuple {xs : List Expr} (hxs : ∀ x ∈ xs, ExprFollows F k call n x)
    (note : Note) : ExprFollows F k call n (.tuple note xs) := by
  intro ρ s m e dst b b' regs h hF hroom hs he
  rw [Lower.expr] at h
  obtain ⟨_, b₁, h₁, h⟩ := bind_eq_ok h
  obtain ⟨value, b₂, h₂, h₃⟩ := bind_eq_ok h
  have hx₃ := Tame.extends (fun _ _ => safe_each (fun _ => Safe.emit _) xs (fun _ => value) 0) h₃
  obtain ⟨hF₁, hindex₂, hnext₂, -, hfile₂, hitems₂⟩ := allocate_spec h₂ (hx₃.before.trans hF)
  obtain ⟨-, hcode, hsize₁, hnext₁⟩ := emit_spec h₁ hF₁
  have hlength : (UInt32.ofNat xs.length).toNat = xs.length := by
    have hle := length_le_of_each h₃
    have hsizeF := hF.size_le
    have hfitsF := hfits.code_lt
    rw [size_code_finish] at hfitsF
    exact UInt32.toNat_ofNat_of_lt' (by simp only [UInt32.size]; omega)
  have hlt := hroom.lt
  have hfile := hroom.file
  have hd := hroom.size
  rw [← hk] at hcode
  rw [Eval.expr]
  have hstep := Context.step_newTuple (m := m) (e := ρ e) hcode hd
  rw [← hsize₁, ← hitems₂, hlength] at hstep
  refine .step hstep (.onHeap ?_)
  generalize hunits : Array.replicate xs.length Value.unit = units
  have hs₁ : Shows ρ ⟨(s.heap.newTuple units).2, s.functions⟩ (m.heap.newTuple units).2 := by
    refine hs.pushList fun v hv => ?_
    rw [← hunits, Array.mem_replicate] at hv
    rw [hv.2]
    trivial
  have hm₁ : Moves ρ s ρ ⟨(s.heap.newTuple units).2, s.functions⟩ :=
    Shows.moves_cells ρ rfl rfl fun _ => Heap.size_list_push
  have hkeeps₁ : Keeps (· ≠ dst.index) regs
      (regs.setIfInBounds dst.index (.tuple m.heap.lists.size)) := .set fun hne => hne rfl
  have hsize := hkeeps₁.size
  have htuple : (regs.setIfInBounds dst.index (.tuple m.heap.lists.size))[dst.index]? =
      some (.tuple s.heap.lists.size) := by
    rw [getElem?_set hd, hs.lists]
  have hhas : (Value.tuple s.heap.lists.size).HasRoom (s.heap.newTuple units).2
      (0 + xs.length) := by
    show _ ≤ (((s.heap.lists.push units).getD s.heap.lists.size #[]).size)
    rw [Array.getD_eq_getD_getElem?, Array.getElem?_push_size, Option.getD_some, ← hunits,
      Array.size_replicate, Nat.zero_add]
  refine (simulates_items hk hfits .tuple (by omega) xs hxs (s := ⟨_, s.functions⟩)
    (m := m.withHeap _) h₃ hF (Nat.zero_le _) (by omega) ⟨by omega, by omega, by omega⟩ htuple hhas
    hs₁ he).bind fun _ s₂ r₂ hr => ?_
  obtain ⟨ρ₂, m₂, regs₂, rfl, hs₂, hm₂, hkeeps₂⟩ := hr
  refine .ok ⟨ρ₂, m₂, regs₂, rfl, hs₂, hm₁.trans hm₂, ?_, ?_, trivial⟩
  · exact (hkeeps₁.mono fun i hi => hi.2).trans (hkeeps₂.mono fun i hi => by omega)
  · rw [hkeeps₂.get (by omega), htuple]

/-- The fields of an object are evaluated into a register in turn and stored. -/
theorem simulates_fields {dst value : Register} {cell : Nat} (hne : dst.index ≠ value.index) :
    (fs : List (String × Expr)) → (∀ f ∈ fs, ExprFollows F k call n f.2) → ∀ ⦃ρ : Nat → Nat⦄
    ⦃s : Store⦄ ⦃m : Machine⦄ ⦃e : Nat⦄ ⦃b b' : Builder⦄ ⦃regs : Array Value⦄,
    fields [] dst value fs b = .ok () b' → b'.Before F → dst.index < b.next.toNat →
    Room F b value regs → regs[dst.index]? = some (.object cell) → Shows ρ s m.heap →
    e < s.heap.environments.size →
    Simulates n (Eval.fields call e cell fs s) (k.run m (ρ e) b.items.size regs) fun _ s' r' =>
      ∃ ρ' m' regs', r' = k.run m' (ρ' e) b'.items.size regs' ∧ Shows ρ' s' m'.heap ∧
        Moves ρ s ρ' s' ∧ Keeps (fun i => i < b.next.toNat ∧ i ≠ value.index) regs regs'
  | [], _, ρ, s, m, e, b, b', regs, h, hF, hlt, hroom, hobject, hs, he => by
    rw [fields] at h
    obtain ⟨-, rfl⟩ := pure_eq_ok h
    rw [Eval.fields]
    exact .ok ⟨ρ, m, regs, rfl, hs, .refl ρ s, .refl regs⟩
  | (name, x) :: fs, hfs, ρ, s, m, e, b, b', regs, h, hF, hlt, hroom, hobject, hs, he => by
    rw [fields] at h
    obtain ⟨_, b₁, h₁, h⟩ := bind_eq_ok h
    obtain ⟨j, b₂, h₂, h⟩ := bind_eq_ok h
    obtain ⟨_, b₃, h₃, h₄⟩ := bind_eq_ok h
    have hx₁ := Tame.extends (fun _ _ => safe_expr x value) h₁
    have hx₄ := Tame.extends (fun _ _ => safe_fields fs dst value) h₄
    obtain ⟨hF₂, hcode, hsize₃, hnext₃⟩ := emit_spec h₃ (hx₄.before.trans hF)
    obtain ⟨hF₁, hname, hitems₂, hnext₂⟩ := identifier_spec h₂ hF₂ hfits
    have hnext₁ := hx₁.next
    have hvalue := hroom.lt
    rw [← hk] at hcode hname
    rw [hitems₂] at hcode hsize₃
    rw [Eval.fields]
    refine (hfs _ List.mem_cons_self h₁ hF₁ hroom hs he).bind fun v s₁ r₁ hv => ?_
    obtain ⟨ρ₁, m₁, regs₁, rfl, hs₁, hm₁, hkeeps₁, hv₁, hh₁⟩ := hv
    have hobject₁ : regs₁[dst.index]? = some (.object cell) :=
      (hkeeps₁.get ⟨hlt, hne⟩).trans hobject
    have hstep := Context.step_setField (m := m₁) (e := ρ₁ e) hcode hobject₁ hname hv₁
    rw [← hsize₃] at hstep
    have hs₂ := hs₁.setField hh₁ cell name
    have hm₂ : Moves ρ₁ s₁ ρ₁ ⟨s₁.heap.setField cell name v, s₁.functions⟩ :=
      Shows.moves_cells ρ₁ rfl rfl fun _ => Nat.le_refl _
    refine .step hstep (.onHeap ?_)
    have hsize₁ := hkeeps₁.size
    have hroomsize := hroom.size
    have hroomfile := hroom.file
    refine (simulates_fields hne fs (fun f hf => hfs f (List.mem_cons_of_mem _ hf))
      (s := ⟨_, s₁.functions⟩) (m := m₁.withHeap _) h₄ hF (by omega) ⟨by omega, by omega, by omega⟩ hobject₁ hs₂
      (Nat.lt_of_lt_of_le he hm₁.size)).mono fun _ s' r' hr => ?_
    obtain ⟨ρ', m', regs', hr', hs', hm', hkeeps'⟩ := hr
    exact ⟨ρ', m', regs', hr', hs', (hm₁.trans hm₂).trans hm', hkeeps₁.trans
      (hkeeps'.mono fun i hi => ⟨by omega, hi.2⟩)⟩

theorem exprFollows_object {fs : List (String × Expr)}
    (hfs : ∀ f ∈ fs, ExprFollows F k call n f.2) (note : Note) :
    ExprFollows F k call n (.object note fs) := by
  intro ρ s m e dst b b' regs h hF hroom hs he
  rw [Lower.expr] at h
  obtain ⟨_, b₁, h₁, h⟩ := bind_eq_ok h
  obtain ⟨value, b₂, h₂, h₃⟩ := bind_eq_ok h
  have hx₃ := Tame.extends (fun _ _ => safe_fields fs dst value) h₃
  obtain ⟨hF₁, hindex₂, hnext₂, -, hfile₂, hitems₂⟩ := allocate_spec h₂ (hx₃.before.trans hF)
  obtain ⟨-, hcode, hsize₁, hnext₁⟩ := emit_spec h₁ hF₁
  have hlt := hroom.lt
  have hfile := hroom.file
  have hd := hroom.size
  rw [← hk] at hcode
  rw [Eval.expr]
  have hstep := Context.step_newObject (m := m) (e := ρ e) hcode hd
  rw [← hsize₁, ← hitems₂] at hstep
  refine .step hstep (.onHeap ?_)
  have hm₁ : Moves ρ s ρ ⟨(s.heap.newObject []).2, s.functions⟩ :=
    Shows.moves_cells ρ rfl rfl fun _ => Nat.le_refl _
  have hkeeps₁ : Keeps (· ≠ dst.index) regs
      (regs.setIfInBounds dst.index (.object m.heap.objects.size)) := .set fun hne => hne rfl
  have hsize := hkeeps₁.size
  have hobject : (regs.setIfInBounds dst.index (.object m.heap.objects.size))[dst.index]? =
      some (.object s.heap.objects.size) := by
    rw [getElem?_set hd, hs.objects]
  refine (simulates_fields hk hfits (by omega) fs hfs (s := ⟨_, s.functions⟩) (m := m.withHeap _) h₃ hF
    (by omega) ⟨by omega, by omega, by omega⟩ hobject hs.newObject he).bind fun _ s₂ r₂ hr => ?_
  obtain ⟨ρ₂, m₂, regs₂, rfl, hs₂, hm₂, hkeeps₂⟩ := hr
  refine .ok ⟨ρ₂, m₂, regs₂, rfl, hs₂, hm₁.trans hm₂, ?_, ?_, trivial⟩
  · exact (hkeeps₁.mono fun i hi => hi.2).trans (hkeeps₂.mono fun i hi => by omega)
  · rw [hkeeps₂.get (by omega), hobject]

/-! ## Access -/

/-- Where it is not known that there is a field, the code looks for it and makes a hole. -/
theorem simulates_fieldOrHole {ρ : Nat → Nat} {s : Store} {m : Machine} {e : Nat}
    {regs : Array Value} {dst object : Register} {j : UInt32} {name : String} {v : Value}
    {b b' : Builder} (h : fieldOrHole dst object j b = .ok () b') (hF : b'.Before F)
    (hroom : Room F b dst regs) (hj : k.block.identifier? j = some name)
    (hv : regs[object.index]? = some v) (hs : Shows ρ s m.heap) :
    Simulates n (Eval.member false v name s) (k.run m (ρ e) b.items.size regs)
      (Done k ρ s e b'.items.size (· ≠ dst.index) regs dst) := by
  obtain ⟨fallback, b₁, h₁, h⟩ := bind_eq_ok h
  obtain ⟨done, b₂, h₂, h⟩ := bind_eq_ok h
  obtain ⟨_, b₃, h₃, h⟩ := bind_eq_ok h
  obtain ⟨_, b₄, h₄, h⟩ := bind_eq_ok h
  obtain ⟨_, b₅, h₅, h⟩ := bind_eq_ok h
  obtain ⟨_, b₆, h₆, h₇⟩ := bind_eq_ok h
  have hx₂ := newLabel_extends h₂
  have hx₃ := Tame.extends (fun _ _ => Safe.emitJump _ fallback) h₃
  have hx₄ := Tame.extends (fun _ _ => Safe.jump done) h₄
  have hx₆ := Tame.extends (fun _ _ => Safe.emit _) h₆
  obtain ⟨hfallback₁, -⟩ := newLabel_unbound h₁
  obtain ⟨hdone₂, hnumber₂⟩ := newLabel_unbound h₂
  have hne : fallback.number ≠ done.number := by
    have := hfallback₁.lt
    omega
  have hfallback := hx₄.unbound (hx₃.unbound (hx₂.unbound hfallback₁))
  have hdone := hx₆.unbound (bind_unbound h₅ (hx₄.unbound (hx₃.unbound hdone₂)) hne)
  obtain ⟨hF₆, hatDone, hitems₇, -⟩ := bind_spec h₇ hdone hF hfits
  obtain ⟨hF₅, hcode₆, hsize₆, -⟩ := emit_spec h₆ hF₆
  obtain ⟨hF₄, hat, hitems₅, -⟩ := bind_spec h₅ hfallback hF₅ hfits
  obtain ⟨hF₃, ⟨t', ht', hcode₄⟩, hsize₄, -⟩ := jump_spec h₄ hF₄ hatDone
  obtain ⟨hF₂, ⟨t, ht, hcode₃⟩, hsize₃, -⟩ := emitJump_spec h₃ hF₃ hat
  obtain ⟨hF₁, hitems₂, -⟩ := newLabel_spec h₂ hF₂
  obtain ⟨-, hitems₁, -⟩ := newLabel_spec h₁ hF₁
  have hd := hroom.size
  rw [← hk] at hcode₃ hcode₄ hcode₆
  rw [hitems₇, ← hitems₁, ← hitems₂]
  have hfield := hs.field? v name
  rw [Eval.member_eq]
  cases hx : Exec.field? s.heap v name with
  | some x =>
    rw [hx] at hfield
    refine .step (Context.step_tryGetField hcode₃ hj hv hfield hd) ?_
    rw [← hsize₃]
    exact .step (Context.step_jump hcode₄ ht') (.ok (.set hs hd (hs.holds_field hx)))
  | none =>
    rw [hx] at hfield
    refine .step (Context.step_tryGetField_none hcode₃ hj hv hfield ht) ?_
    rw [← hitems₅, hsize₆]
    dsimp only
    rw [Bool.not_false, Bool.true_and]
    cases hlevel : v.isTypeLevel with
    | true =>
      have hhole := simulates_follows (n := n) (e := e) hcode₆ trivial hs hd
        (Follows.newHole (.member v name)) (by
          rw [Exec.instr, Exec.bind_ok (Context.identifier_run hj),
            Exec.bind_ok (Context.read_run hv), if_pos hlevel]
          rfl)
      exact hhole
    | false =>
      have hstep := Context.step_newMemberHole_error (m := m) (e := ρ e) hcode₆ hj hv hlevel
      rw [hs.text] at hstep
      exact .fault hstep

theorem exprFollows_member {x : Expr} (hx : ExprFollows F k call n x) (note : Note)
    (name : String) : ExprFollows F k call n (.member note x name) := by
  intro ρ s m e dst b b' regs h hF hroom hs he
  rw [Lower.expr] at h
  obtain ⟨object, b₁, h₁, h⟩ := bind_eq_ok h
  obtain ⟨_, b₂, h₂, h⟩ := bind_eq_ok h
  obtain ⟨j, b₃, h₃, h⟩ := bind_eq_ok h
  have hx₂ := Tame.extends (fun _ _ => safe_expr x object) h₂
  have hF₃ : b₃.Before F := Tame.before (x := if hasFieldTy name x.ty? then
      emit (.getField dst object j) else fieldOrHole dst object j)
    (fun _ _ => .ite (.emit _) (safe_fieldOrHole ..)) h hF
  obtain ⟨hF₂, hname, hitems₃, hnext₃⟩ := identifier_spec h₃ hF₃ hfits
  obtain ⟨-, hindex₁, hnext₁, -, hfile₁, hitems₁⟩ := allocate_spec h₁ (hx₂.before.trans hF₂)
  have hlt := hroom.lt
  have hfile := hroom.file
  have hnext₂ := hx₂.next
  rw [← hk] at hname
  rw [Eval.expr, ← hitems₁]
  refine (hx h₂ hF₂ ⟨by omega, by omega, hfile⟩ hs he).bind fun v s₁ r₁ hv => ?_
  obtain ⟨ρ₁, m₁, regs₁, rfl, hs₁, hm₁, hkeeps₁, hv₁, hh₁⟩ := hv
  have hd : dst.index < regs₁.size := hkeeps₁.size ▸ hroom.size
  rw [← hitems₃]
  have hrest : Simulates n (Eval.member (hasFieldTy name x.ty?) v name s₁)
      (k.run m₁ (ρ₁ e) b₃.items.size regs₁)
      (Done k ρ₁ s₁ e b'.items.size (· ≠ dst.index) regs₁ dst) := by
    cases hfield : hasFieldTy name x.ty? with
    | true =>
      rw [hfield, if_pos rfl] at h
      obtain ⟨-, hcode, hsize, -⟩ := emit_spec h hF
      rw [← hk] at hcode
      rw [hsize]
      exact simulates_getField hcode hname hv₁ hd hs₁
    | false =>
      rw [hfield, if_neg Bool.false_ne_true] at h
      exact simulates_fieldOrHole hk hfits h hF
        ⟨by omega, hd, hkeeps₁.size ▸ hroom.file⟩ hname hv₁ hs₁
  exact hrest.mono fun w s' r' hw =>
    (hw.mono fun i hi => hi.2).after hm₁ (hkeeps₁.mono fun i hi => by omega)

/-- Where it is not known that there is an array, the code tests it and makes a hole. -/
theorem simulates_elementOrHole {ρ : Nat → Nat} {s : Store} {m : Machine} {e : Nat}
    {regs : Array Value} {dst target index : Register} {v i : Value} {b b' : Builder}
    (h : elementOrHole dst target index b = .ok () b') (hF : b'.Before F)
    (hroom : Room F b dst regs) (htarget : target.index < b.next.toNat)
    (hindex : index.index < b.next.toNat) (hv : regs[target.index]? = some v)
    (hi : regs[index.index]? = some i) (hs : Shows ρ s m.heap) (hh : s.Holds v) :
    Simulates n (Eval.subscript v i s) (k.run m (ρ e) b.items.size regs)
      (Done k ρ s e b'.items.size (fun i => i < b.next.toNat ∧ i ≠ dst.index) regs dst) := by
  obtain ⟨test, b₁, h₁, h⟩ := bind_eq_ok h
  obtain ⟨hole, b₂, h₂, h⟩ := bind_eq_ok h
  obtain ⟨done, b₃, h₃, h⟩ := bind_eq_ok h
  obtain ⟨_, b₄, h₄, h⟩ := bind_eq_ok h
  obtain ⟨_, b₅, h₅, h⟩ := bind_eq_ok h
  obtain ⟨_, b₆, h₆, h⟩ := bind_eq_ok h
  obtain ⟨_, b₇, h₇, h⟩ := bind_eq_ok h
  obtain ⟨_, b₈, h₈, h⟩ := bind_eq_ok h
  obtain ⟨_, b₉, h₉, h₁₀⟩ := bind_eq_ok h
  have hx₃ := newLabel_extends h₃
  have hx₄ := Tame.extends (fun _ _ => Safe.emit _) h₄
  have hx₅ := Tame.extends (fun _ _ => Safe.jumpIfFalse test hole) h₅
  have hx₆ := Tame.extends (fun _ _ => Safe.emit _) h₆
  have hx₇ := Tame.extends (fun _ _ => Safe.jump done) h₇
  have hx₉ := Tame.extends (fun _ _ => Safe.emit _) h₉
  obtain ⟨hhole₂, -⟩ := newLabel_unbound h₂
  obtain ⟨hdone₃, hnumber₃⟩ := newLabel_unbound h₃
  have hne : hole.number ≠ done.number := by
    have := hhole₂.lt
    omega
  have hhole := hx₇.unbound (hx₆.unbound (hx₅.unbound (hx₄.unbound (hx₃.unbound hhole₂))))
  have hdone₇ := hx₇.unbound (hx₆.unbound (hx₅.unbound (hx₄.unbound hdone₃)))
  have hdone := hx₉.unbound (bind_unbound h₈ hdone₇ hne)
  obtain ⟨hF₉, hatDone, hitems₁₀, -⟩ := bind_spec h₁₀ hdone hF hfits
  obtain ⟨hF₈, hcode₉, hsize₉, hnext₉⟩ := emit_spec h₉ hF₉
  obtain ⟨hF₇, hatHole, hitems₈, hnext₈⟩ := bind_spec h₈ hhole hF₈ hfits
  obtain ⟨hF₆, ⟨t', ht', hcode₇⟩, hsize₇, hnext₇⟩ := jump_spec h₇ hF₇ hatDone
  obtain ⟨hF₅, hcode₆, hsize₆, hnext₆⟩ := emit_spec h₆ hF₆
  obtain ⟨hF₄, ⟨t, ht, hcode₅⟩, hsize₅, hnext₅⟩ := jumpIfFalse_spec h₅ hF₅ hatHole
  obtain ⟨hF₃, hcode₄, hsize₄, hnext₄⟩ := emit_spec h₄ hF₄
  obtain ⟨hF₂, hitems₃, hnext₃⟩ := newLabel_spec h₃ hF₃
  obtain ⟨hF₁, hitems₂, hnext₂⟩ := newLabel_spec h₂ hF₂
  obtain ⟨-, hindex₁, hnext₁, -, hfile₁, hitems₁⟩ := allocate_spec h₁ hF₁
  have hlt := hroom.lt
  have hfile := hroom.file
  rw [← hk] at hcode₄ hcode₅ hcode₆ hcode₇ hcode₉
  rw [hitems₁₀, ← hitems₁, ← hitems₂, ← hitems₃]
  have htest : test.index < regs.size := by omega
  obtain ⟨m₁, hheap₁, hstep⟩ := hs.step_checkTypeOf (e := ρ e) hh (.inr rfl) hcode₄ hv htest
  rw [← hsize₄] at hstep
  refine .step hstep ?_
  have hs₁ : Shows ρ s m₁.heap := hheap₁ ▸ hs
  have hkeeps : Keeps (· ≠ test.index) regs
      (regs.setIfInBounds test.index (.bool (decide (v.tyClass = .array)))) :=
    .set fun hne => hne rfl
  have htested : (regs.setIfInBounds test.index
      (.bool (decide (v.tyClass = .array))))[test.index]? = _ := getElem?_set htest
  have hv₁ := (hkeeps.get (by omega : target.index ≠ test.index)).trans hv
  have hi₁ := (hkeeps.get (by omega : index.index ≠ test.index)).trans hi
  have hd := hkeeps.size ▸ hroom.size
  by_cases hclass : v.tyClass = .array
  · rw [decide_eq_true hclass] at hkeeps htested hv₁ hi₁ hd ⊢
    refine .step (Context.step_jumpIfFalse_true hcode₅ htested) ?_
    rw [← hsize₅]
    have hfollows := simulates_getArrayIndex (n := n) (e := e) hcode₆ hv₁ hi₁ hd hs₁
    have heq : Eval.element v i s = Eval.subscript v i s := by
      cases v with
      | array c => rfl
      | _ => cases hclass
    rw [heq] at hfollows
    refine hfollows.andThen fun w s' r' hw => ?_
    obtain ⟨ρ', m', regs', rfl, hs', hm', hkeeps', hw', hh'⟩ := hw
    rw [← hsize₆]
    exact ⟨_, .one (Context.step_jump hcode₇ ht'), ρ', m', regs', rfl, hs', hm',
      (hkeeps.mono fun i hi => by omega).trans (hkeeps'.mono fun i hi => hi.2), hw', hh'⟩
  · rw [decide_eq_false hclass] at hkeeps htested hv₁ hi₁ hd ⊢
    refine .step (Context.step_jumpIfFalse_false hcode₅ htested ht) ?_
    rw [← hitems₈, hsize₉]
    refine (simulates_newSubscriptHole hcode₉ hv₁ hi₁ (fun c hc => hclass (hc ▸ rfl)) hd
      hs₁).mono fun w s' r' hw => ?_
    exact (hw.mono fun i hi => hi.2).after (.refl ρ s) (hkeeps.mono fun i hi => by omega)

omit hk hfits in
theorem Expr.lt_of_literalIndex? {x : Expr} {j : Nat} (h : x.literalIndex? = some j) : j < 2 ^ 32 := by
  unfold Expr.literalIndex? at h
  split at h
  · exact of_decide_eq_true (Option.filter_eq_some_iff.1 h).2
  · cases h

theorem exprFollows_subscript {x y : Expr} (hx : ExprFollows F k call n x)
    (hy : ExprFollows F k call n y) (note : Note) :
    ExprFollows F k call n (.subscript note x y) := by
  intro ρ s m e dst b b' regs h hF hroom hs he
  rw [Lower.expr] at h
  obtain ⟨target, b₁, h₁, h⟩ := bind_eq_ok h
  obtain ⟨_, b₂, h₂, h⟩ := bind_eq_ok h
  have hx₂ := Tame.extends (fun _ _ => safe_expr x target) h₂
  have hnext₂ := hx₂.next
  have hlt := hroom.lt
  have hfile := hroom.file
  have hd := hroom.size
  -- the target, and how the rest goes on
  have htarget : ∀ {z : Value → Eval Value}, b₂.Before F →
      (∀ ⦃ρ' : Nat → Nat⦄ ⦃s' : Store⦄ ⦃m' : Machine⦄ ⦃regs' : Array Value⦄ ⦃v : Value⦄,
        Shows ρ' s' m'.heap → e < s'.heap.environments.size → Room F b₂ dst regs' →
        target.index < b₂.next.toNat → regs'[target.index]? = some v → s'.Holds v →
        Simulates n (z v s') (k.run m' (ρ' e) b₂.items.size regs')
          (Done k ρ' s' e b'.items.size (fun i => i < b₂.next.toNat ∧ i ≠ dst.index) regs'
            dst)) →
      Simulates n ((Eval.expr call e x >>= z) s) (k.run m (ρ e) b.items.size regs)
        (Done k ρ s e b'.items.size (fun i => i < b.next.toNat ∧ i ≠ dst.index) regs dst) := by
    intro z hF₂ hrest
    obtain ⟨-, hindex₁, hnext₁, -, hfile₁, hitems₁⟩ := allocate_spec h₁ (hx₂.before.trans hF₂)
    rw [← hitems₁]
    refine (hx h₂ hF₂ ⟨by omega, by omega, hfile⟩ hs he).bind fun v s₁ r₁ hv => ?_
    obtain ⟨ρ₁, m₁, regs₁, rfl, hs₁, hm₁, hkeeps₁, hv₁, hh₁⟩ := hv
    refine (hrest hs₁ (Nat.lt_of_lt_of_le he hm₁.size)
      ⟨by omega, hkeeps₁.size ▸ hroom.size, hkeeps₁.size ▸ hroom.file⟩ (by omega) hv₁
      hh₁).mono fun w s' r' hw => ?_
    exact (hw.mono fun i hi => by omega).after hm₁ (hkeeps₁.mono fun i hi => by omega)
  rw [Eval.expr]
  generalize x.ty? = ty at h ⊢
  generalize hliteral : y.literalIndex? = literal at h ⊢
  split at h
  next ts j =>
    obtain ⟨hF₂, hcode, hsize, -⟩ := emit_spec h hF
    rw [← hk] at hcode
    refine htarget hF₂ fun ρ' s' m' regs' v hs' he' hroom' hlt' hv' hh' => ?_
    rw [hsize]
    have hj : (UInt32.ofNat j).toNat = j := UInt32.toNat_ofNat_of_lt' (Expr.lt_of_literalIndex? hliteral)
    have hrest := simulates_getTupleIndex (n := n) (e := e) hcode hv' hroom'.size hs'
    rw [hj] at hrest
    exact hrest.mono fun w s' r' hw => hw.mono fun i hi => hi.2
  next t =>
    obtain ⟨index, b₃, h₃, h⟩ := bind_eq_ok h
    obtain ⟨_, b₄, h₄, h₅⟩ := bind_eq_ok h
    have hx₄ := Tame.extends (fun _ _ => safe_expr y index) h₄
    obtain ⟨hF₄, hcode, hsize, -⟩ := emit_spec h₅ hF
    obtain ⟨hF₂, hindex₃, hnext₃, -, hfile₃, hitems₃⟩ := allocate_spec h₃ (hx₄.before.trans hF₄)
    rw [← hk] at hcode
    refine htarget hF₂ fun ρ' s' m' regs' v hs' he' hroom' hlt' hv' hh' => ?_
    rw [hsize]
    have hfile' := hroom'.file
    have hlt'' := hroom'.lt
    rw [← hitems₃]
    refine (hy h₄ hF₄ ⟨by omega, by omega, hfile'⟩ hs' he').bind fun i s₁ r₁ hi => ?_
    obtain ⟨ρ₁, m₁, regs₁, rfl, hs₁, hm₁, hkeeps₁, hi₁, hh₁⟩ := hi
    refine (simulates_getArrayIndex hcode ((hkeeps₁.get (by omega)).trans hv') hi₁
      (hkeeps₁.size ▸ hroom'.size) hs₁).mono fun w s' r' hw => ?_
    exact (hw.mono fun i hi => hi.2).after hm₁ (hkeeps₁.mono fun i hi => by omega)
  next hnarray hntuple =>
    obtain ⟨index, b₃, h₃, h⟩ := bind_eq_ok h
    obtain ⟨_, b₄, h₄, h₅⟩ := bind_eq_ok h
    have hx₄ := Tame.extends (fun _ _ => safe_expr y index) h₄
    have hF₄ := Tame.before (fun _ _ => safe_elementOrHole dst target index) h₅ hF
    obtain ⟨hF₂, hindex₃, hnext₃, -, hfile₃, hitems₃⟩ := allocate_spec h₃ (hx₄.before.trans hF₄)
    have hnext₄ := hx₄.next
    -- by `hnarray` and `hntuple` the evaluation is in its last case, too, if `split` has not put it there
    try simp only
    refine htarget hF₂ fun ρ' s' m' regs' v hs' he' hroom' hlt' hv' hh' => ?_
    have hfile' := hroom'.file
    have hlt'' := hroom'.lt
    have hsize' := hroom'.size
    rw [← hitems₃]
    refine (hy h₄ hF₄ ⟨by omega, by omega, hfile'⟩ hs' he').bind fun i s₁ r₁ hi => ?_
    obtain ⟨ρ₁, m₁, regs₁, rfl, hs₁, hm₁, hkeeps₁, hi₁, hh₁⟩ := hi
    have hsize₁ := hkeeps₁.size
    refine (simulates_elementOrHole hk hfits h₅ hF ⟨by omega, by omega, by omega⟩ (by omega)
      (by omega) ((hkeeps₁.get (by omega)).trans hv') hi₁ hs₁ (hm₁.holds hh')).mono
      fun w s' r' hw => ?_
    exact (hw.mono fun i hi => by omega).after hm₁ (hkeeps₁.mono fun i hi => by omega)

/-! ## All expressions -/

set_option linter.unusedSectionVars false

mutual

/-- **The code for an expression follows its evaluation.** -/
theorem exprFollows (hcall : CallFollows call n) : (x : Expr) → x.Plain → ExprFollows F k call n x
  | .ident note x, _ => exprFollows_ident hk hfits note x
  | .literal note v, _ => exprFollows_literal hk hfits note v
  | .paren note x, h => by
    rw [Expr.Plain] at h
    exact exprFollows_paren (exprFollows hcall x h) note
  | .binary note op x y, h => by
    rw [Expr.Plain] at h
    have hx := exprFollows hcall x h.1
    have hy := exprFollows hcall y h.2
    rcases op.sort with rfl | rfl | rfl | hop
    · exact exprFollows_and hk hfits hx hy note
    · exact exprFollows_or hk hfits hx hy note
    · exact exprFollows_equal hk hx hy note
    · exact exprFollows_operator hk hfits hcall hop hx hy note
  | .object note fs, h => by
    rw [Expr.Plain] at h
    exact exprFollows_object hk hfits (fieldsFollow hcall fs h) note
  | .array note xs, h => by
    rw [Expr.Plain] at h
    exact exprFollows_array hk hfits (exprsFollow hcall xs h) note
  | .tuple note xs, h => by
    rw [Expr.Plain] at h
    exact exprFollows_tuple hk hfits (exprsFollow hcall xs h) note
  | .call note x xs implicit, h => by
    rw [Expr.Plain] at h
    exact exprFollows_call hk hfits hcall h.2.2 (exprFollows hcall x h.1)
      (exprsFollow hcall xs h.2.1) note
  | .member note x name, h => by
    rw [Expr.Plain] at h
    exact exprFollows_member hk hfits (exprFollows hcall x h) note name
  | .subscript note x y, h => by
    rw [Expr.Plain] at h
    exact exprFollows_subscript hk hfits (exprFollows hcall x h.1) (exprFollows hcall y h.2) note
  | .type note t, h => by
    rw [Expr.Plain] at h
    exact exprFollows_type hk hfits h note

/-- `exprFollows` for each expression of a list. -/
theorem exprsFollow (hcall : CallFollows call n) : (xs : List Expr) → Expr.PlainList xs →
    ∀ x ∈ xs, ExprFollows F k call n x
  | [], _ => List.forall_mem_nil _
  | x :: xs, h => by
    rw [Expr.PlainList] at h
    exact List.forall_mem_cons.2 ⟨exprFollows hcall x h.1, exprsFollow hcall xs h.2⟩

/-- `exprFollows` for each expression of some fields. -/
theorem fieldsFollow (hcall : CallFollows call n) : (fs : List (String × Expr)) →
    Expr.PlainFields fs → ∀ f ∈ fs, ExprFollows F k call n f.2
  | [], _ => List.forall_mem_nil _
  | (name, x) :: fs, h => by
    rw [Expr.PlainFields] at h
    exact List.forall_mem_cons.2 ⟨exprFollows hcall x h.1, fieldsFollow hcall fs h.2⟩

end

end expr

end Reified
