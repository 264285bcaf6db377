import Reified.Lowering.Program
import Reified.Proofs.Simulation.Stmt

/-!
# The code for a program follows its evaluation

A call enters the block of a function, which defines the parameters and executes the body, in an
environment inside that of the function. Calls of at most `n` nested functions are followed by
induction on `n`, since the body of a function calls with fewer.

A run of the block of a program therefore ends exactly when the evaluation of the program ends, with
the same value or the same failure.

## Main results

* `callFollows` — the instruction of a call follows the call of a value
* `Program.run_iff_evaluate` — a run of the block of a program ends as its evaluation ends
-/

namespace Reified

open Builder Lower

/-! ## Calls -/

namespace Context

variable {k : Context} {m : Machine} {e p : Nat} {regs : Array Value} {dst callee first : Register}
  {argc : UInt32} {c : Nat} {args : List Value} {op : Operator}

/-- The block of a function is entered. -/
theorem step_call (hc : k.block.code[p]? = some (.call dst callee argc first))
    (hf : regs[callee.index]? = some (.function c)) (hn : args.length = argc.toNat)
    (hargs : ∀ (j : Nat) (hj : j < args.length), regs[(first.offset j).index]? = some args[j])
    (hcount : args.length = (m.heap.closure c).block.parameterCount.toNat) :
    Exec.step (k.run m e p regs) = .ok none
      ((k.within (m.heap.closure c).block (.store dst) e (p + 1) regs).run
        (m.withHeap (m.heap.newEnvironment (some (m.heap.closure c).environment)).2)
        m.heap.environments.size (m.heap.closure c).block.codeStart.toNat
        ((m.heap.closure c).block.registers args.toArray)) := by
  rw [Exec.step, Exec.bind_ok (fetch_run hc)]
  refine Exec.bind_ok (f := fun _ => pure none) (a := ()) ?_
  have hread : Exec.readRange first argc (k.run m e (p + 1) regs) =
      .ok args.toArray (k.run m e (p + 1) regs) := readRange_run hn hargs
  rw [Exec.call, Exec.bind_ok (read_run hf), Exec.bind_ok hread]
  dsimp only
  rw [Exec.bind_ok heap_run]
  have hcomplete : Exec.completeArgs (m.heap.closure c) args.toArray (k.run m e (p + 1) regs) =
      .ok args.toArray (k.run m e (p + 1) regs) := by
    rw [Exec.completeArgs, if_pos (by rw [List.size_toArray, hcount])]
    rfl
  rw [Exec.bind_ok hcomplete, Exec.bind_ok (onHeap_run _)]
  rfl

/-- A function without inferred parameters is not called with fewer or more arguments. -/
theorem step_call_error {ps : List Ty} {t : Ty}
    (hc : k.block.code[p]? = some (.call dst callee argc first))
    (hf : regs[callee.index]? = some (.function c)) (hn : args.length = argc.toNat)
    (hargs : ∀ (j : Nat) (hj : j < args.length), regs[(first.offset j).index]? = some args[j])
    (hcount : args.length ≠ (m.heap.closure c).block.parameterCount.toNat)
    (hsignature : (m.heap.closure c).signature = .fn ps t 0) :
    ∃ r', Exec.step (k.run m e p regs) = .error (.arity (m.heap.closure c).block.name
      (m.heap.closure c).block.parameterCount.toNat args.length) r' := by
  have hread : Exec.readRange first argc (k.run m e (p + 1) regs) =
      .ok args.toArray (k.run m e (p + 1) regs) := readRange_run hn hargs
  refine ⟨k.run m e (p + 1) regs, ?_⟩
  rw [Exec.step, Exec.bind_ok (fetch_run hc)]
  refine Exec.bind_error ?_
  rw [Exec.call, Exec.bind_ok (read_run hf), Exec.bind_ok hread]
  dsimp only
  rw [Exec.bind_ok heap_run]
  refine Exec.bind_error ?_
  have hresolve : Exec.resolve (m.heap.closure c).signature (k.run m e (p + 1) regs) =
      .ok (m.heap.closure c).signature (k.run m e (p + 1) regs) := by
    unfold Exec.resolve Exec.onTable Context.run
    dsimp only
    rw [Table.resolve_of_not_var fun v hv => by rw [hsignature] at hv; cases hv]
  rw [Exec.completeArgs, if_neg (by rw [List.size_toArray]; exact hcount), Exec.bind_ok hresolve,
    hsignature]
  rfl

end Context

/-- What an operator gives is no function. -/
theorem Operator.holds_of_apply {op : Operator} {h : Heap} {a b v : Value}
    (hv : op.apply h a b = .ok v) (s : Store) : s.Holds v := by
  unfold Operator.apply at hv
  split at hv
  · cases hv
    trivial
  · split at hv
    · cases hv
      cases op <;> trivial
    · cases hv

section call

variable {k : Context} {ρ : Nat → Nat} {s : Store} {m : Machine} {e p n : Nat} {regs : Array Value}
  {dst callee first : Register} {argc : UInt32} {args : List Value}

/-- An operator gives its result at once. -/
theorem simulates_operator {op : Operator}
    (hc : k.block.code[p]? = some (.call dst callee argc first))
    (hf : regs[callee.index]? = some (.builtin op)) (hn : args.length = argc.toNat)
    (hargs : ∀ (j : Nat) (hj : j < args.length), regs[(first.offset j).index]? = some args[j])
    (hd : dst.index < regs.size) (hs : Shows ρ s m.heap) :
    Simulates n (Eval.operator op args s) (k.run m (ρ e) p regs)
      (Done k ρ s e (p + 1) (· ≠ dst.index) regs dst) := by
  have hread : Exec.readRange first argc (k.run m (ρ e) (p + 1) regs) =
      .ok args.toArray (k.run m (ρ e) (p + 1) regs) := Context.readRange_run hn hargs
  have hstep : Exec.step (k.run m (ρ e) p regs) =
      (Exec.call dst callee argc first >>= fun _ => pure none) (k.run m (ρ e) (p + 1) regs) := by
    rw [Exec.step, Exec.bind_ok (Context.fetch_run hc)]
  have hcall : ∀ {r' : Run}, Exec.call dst callee argc first (k.run m (ρ e) (p + 1) regs) =
      .ok () r' → Exec.step (k.run m (ρ e) p regs) = .ok none r' := fun h => by
    rw [hstep, Exec.bind_ok h]
    rfl
  have hcall' : ∀ {f : Fault} {r' : Run},
      Exec.call dst callee argc first (k.run m (ρ e) (p + 1) regs) = .error f r' →
      Exec.step (k.run m (ρ e) p regs) = .error f r' := fun h => by
    rw [hstep, Exec.bind_error h]
  have hother : args.length ≠ 2 → Eval.operator op args s =
        .error (.fault (.operatorArity op.symbol args.length)) s ∧
      Exec.call dst callee argc first (k.run m (ρ e) (p + 1) regs) =
        .error (.operatorArity op.symbol args.length) (k.run m (ρ e) (p + 1) regs) := by
    intro hne
    rw [Exec.call, Exec.bind_ok (Context.read_run hf), Exec.bind_ok hread]
    rcases args with _ | ⟨a, _ | ⟨b, _ | ⟨c, rest⟩⟩⟩
    case cons.cons.nil => exact absurd rfl hne
    all_goals exact ⟨rfl, rfl⟩
  by_cases htwo : args.length = 2
  · obtain ⟨a, b, rfl⟩ := List.length_eq_two.1 htwo
    rw [Eval.operator_pair, ← hs.apply]
    cases hv : op.apply m.heap a b with
    | ok v =>
      refine .step (hcall ?_) (.ok (.set hs hd (Operator.holds_of_apply hv s)))
      rw [Exec.call, Exec.bind_ok (Context.read_run hf), Exec.bind_ok hread]
      dsimp only
      rw [Exec.bind_ok Context.heap_run, hv]
      exact Context.write_run hd
    | error f =>
      refine .fault (hcall' (?_ : _ = EStateM.Result.error f (k.run m (ρ e) (p + 1) regs)))
      rw [Exec.call, Exec.bind_ok (Context.read_run hf), Exec.bind_ok hread]
      dsimp only
      rw [Exec.bind_ok Context.heap_run, hv]
      rfl
  · obtain ⟨heval, hrun⟩ := hother htwo
    rw [heval]
    exact .fault (hcall' hrun)

/-! ## Functions -/

/-- The number of arguments in the first registers. -/
theorem Block.getElem?_registers {B : Block} {j : Nat} (hj : j < args.length) :
    (B.registers args.toArray)[j]? = some args[j] := by
  rw [Block.registers, Array.getElem?_append_left (by rw [List.size_toArray]; exact hj),
    List.getElem?_toArray, List.getElem?_eq_getElem hj]

theorem Block.length_le_size_registers {B : Block} :
    args.length ≤ (B.registers args.toArray).size := by
  rw [Block.registers, Array.size_append, List.size_toArray]
  omega

/-- The code for a signature needs a register for each parameter. -/
theorem length_params_le {F b b' : Builder} {ps : List Ty} {t : Ty} {j : Nat}
    (h : signature (.fn ps t j) b = .ok () b') (hF : b'.Before F) : ps.length ≤ 65535 := by
  obtain ⟨dst, b₁, h₁, h⟩ := bind_eq_ok h
  obtain ⟨_, b₂, h₂, h⟩ := bind_eq_ok h
  obtain ⟨_, b₃, h₃, h⟩ := bind_eq_ok h
  obtain ⟨registers, b₄, h₄, h⟩ := bind_eq_ok h
  obtain ⟨_, b₅, h₅, h⟩ := bind_eq_ok h
  have hsafe : ∀ n u (v : TyVar) (r : Register), Safe n u (declaredVar registers v r) :=
    fun n u => safe_declaredVar registers
  have hF₅ : b₅.Before F := Tame.before (fun _ _ => .bind (.emit _) fun _ => .bind (.emit _)
    fun _ => .bind (.emit _) fun _ => .emit _) h hF
  rw [ty] at h₅
  obtain ⟨first, b₆, h₆, h₅⟩ := bind_eq_ok h₅
  have hF₆ : b₆.Before F := Tame.before (fun n u => .bind (safe_tys (hsafe n u) ps first 0)
    fun _ => .bind .allocate fun r => .bind (safe_ty (hsafe n u) t r) fun _ => .emit _) h₅ hF₅
  obtain ⟨-, -, -, hmax, -, -⟩ := allocateRange_spec h₆ hF₆
  omega

theorem Function.Compiled.length_params_le {f : Function} {c : Closure}
    (hf : f.Compiled ρ c) : f.head.params.length ≤ 65535 := by
  obtain ⟨b, b', hcode⟩ := hf.code
  obtain ⟨types, result, implicit, F, hsignature, hF, -⟩ := functionBlock_spec hcode
  obtain ⟨⟨types', result', hsignature', htypes⟩, -⟩ := hf.head
  rw [hsignature] at hsignature'
  cases hsignature'
  obtain ⟨-, -, b₁, h₁, -, hF₁⟩ := functionCode_head (fun r _ _ => safe_stmt _ _ r) hF
  rw [← htypes]
  exact Reified.length_params_le h₁ hF₁

/-- The parameters of a function are defined as the arguments. -/
theorem simulates_params {F : Builder} (hk : k.block = F.finish) (hfits : F.finish.Fits) :
    (ps : List Param) → (∀ p ∈ ps, p.inferred = false) → ∀ {ρ : Nat → Nat} {s : Store} {m : Machine}
    {e index : Nat} {args : List Value} {b b' : Builder}, Lower.params index ps b = .ok () b' →
    b'.Before F → args.length = ps.length → index + ps.length ≤ 65535 →
    (∀ (j : Nat) (hj : j < args.length), regs[index + j]? = some args[j]) →
    (∀ v ∈ args, s.Holds v) → Shows ρ s m.heap → e < s.heap.environments.size →
    Simulates n (Eval.bindArgs e ps args s) (k.run m (ρ e) b.items.size regs) fun _ =>
      Reached k ρ s e b'.items.size (fun _ => True) regs
  | [], _, ρ, s, m, e, index, args, b, b', h, hF, hlength, hmax, hargs, hhs, hs, he => by
    obtain ⟨-, rfl⟩ := pure_eq_ok h
    rw [List.length_nil, List.length_eq_zero_iff] at hlength
    rw [hlength]
    exact .ok (.refl hs)
  | q :: ps, hps, ρ, s, m, e, index, [], b, b', h, hF, hlength, hmax, hargs, hhs, hs, he => by
    cases hlength
  | q :: ps, hps, ρ, s, m, e, index, v :: args, b, b', h, hF, hlength, hmax, hargs, hhs, hs, he => by
    rw [Lower.params] at h
    obtain ⟨_, b₁, h₁, h₂⟩ := bind_eq_ok h
    have hF₁ := Tame.before (fun _ _ => safe_params ps (index + 1)) h₂ hF
    rw [param, if_neg (by rw [hps q List.mem_cons_self]; exact Bool.false_ne_true),
      pure_bind] at h₁
    obtain ⟨j, b₃, h₃, h₄⟩ := bind_eq_ok h₁
    obtain ⟨hF₃, hcode, hsize, -⟩ := emit_spec h₄ hF₁
    obtain ⟨-, hname, hitems₃, -⟩ := identifier_spec h₃ hF₃ hfits
    rw [← hk] at hcode hname
    rw [hitems₃] at hcode hsize
    rw [List.length_cons] at hmax
    have hv : regs[(Register.ofNat index).index]? = some v := by
      rw [Register.index_ofNat (by omega)]
      exact hargs 0 (Nat.zero_lt_succ _)
    have hstep := Context.step_setLocal (m := m) (e := ρ e) hcode hname hv
    rw [← hsize] at hstep
    have hh := hhs v List.mem_cons_self
    refine .step hstep (.onHeap ?_)
    refine (simulates_params hk hfits ps (fun p hp => hps p (List.mem_cons_of_mem q hp))
      (s := ⟨s.heap.define e q.name v, s.functions⟩) (m := m.withHeap _) h₂ hF (Nat.succ.inj hlength) (by omega)
      (fun j hj => ?_) (fun w hw => hhs w (List.mem_cons_of_mem v hw)) (hs.define he hh q.name)
      ?_).mono fun _ s' r' hr => ?_
    · rw [Nat.add_assoc, Nat.add_comm 1]
      exact hargs (j + 1) (Nat.succ_lt_succ hj)
    · rw [Heap.size_define]
      exact he
    · exact hr.after (Shows.moves_define ρ s e q.name v) (.refl regs)

/-- Without a loop around it, a statement completes or returns, and the block is left with the value. -/
theorem simulates_answer {F : Builder} {place : Place} {o q : Nat} {P : Nat → Prop}
    {regs : Array Value} {dst : Register} {flow : Flow} {s' : Store} {r' : Run}
    (hflow : Left F k place ρ s e o q P regs dst flow s' r') (hloop : place.loop = none)
    (hc : k.block.code[q]? = some (.leave dst)) :
    Simulates n (Eval.answer flow s') r' (Leaves k ρ s) := by
  match flow, hflow with
  | .value v, ⟨ρ', m', regs', hr, hs', hm, _, hv, hh⟩ =>
    exact .ok ⟨ρ', m', ρ' e, q, dst, regs', hr, hc, hv, hs', hm, hh⟩
  | .returned v, h => exact .ok h
  | .breakLoop, ⟨l, _, hl, _⟩ =>
    rw [hloop] at hl
    cases hl
  | .continueLoop, ⟨l, _, hl, _⟩ =>
    rw [hloop] at hl
    cases hl

/-- A function is called with the right number of arguments: its block is entered, defines the
parameters and executes the body. -/
theorem simulates_function {f : Function} {c : Nat}
    (hrest : CallFollows (Eval.apply n) n)
    (hc : k.block.code[p]? = some (.call dst callee argc first))
    (hf : regs[callee.index]? = some (.function c)) (hn : args.length = argc.toNat)
    (hargs : ∀ (j : Nat) (hj : j < args.length), regs[(first.offset j).index]? = some args[j])
    (hd : dst.index < regs.size) (hs : Shows ρ s m.heap) (he : e < s.heap.environments.size)
    (hfunction : s.functions[c]? = some f) (hhs : ∀ v ∈ args, s.Holds v)
    (hlength : args.length = f.head.params.length) :
    Simulates (n + 1) ((do
        let inner ← Eval.child f.environment
        Eval.bindArgs inner f.head.params args
        Eval.answer (← Eval.block (Eval.apply n) n inner f.body)) s) (k.run m (ρ e) p regs)
      (Done k ρ s e (p + 1) (· ≠ dst.index) regs dst) := by
  have hcompiled := hs.compiled hfunction
  have hinside := hs.inside hfunction
  have hhead := hcompiled.block_head
  obtain ⟨b₀, b₀', hcode⟩ := hcompiled.code
  obtain ⟨types, result, implicit, F, hsignature, hF, hblock⟩ := functionBlock_spec hcode
  obtain ⟨⟨types', result', hsignature', htypes⟩, hinferred⟩ := hcompiled.head
  rw [hsignature] at hsignature'
  cases hsignature'
  obtain ⟨-, -, b₁, h₁, hstart, hF₁⟩ := functionCode_head (fun r _ _ => safe_stmt _ _ r) hF
  obtain ⟨b₁', b₂, b₃, b₄, b₅, value, h₁', rfl, h₃, h₄, h₅, h₆⟩ := functionCode_spec hF
  rw [h₁] at h₁'
  cases h₁'
  have hfits : F.finish.Fits := hblock ▸ hcompiled.fits
  have hx₅ := Tame.extends (fun _ _ => safe_stmt (.block f.body default) _ value) h₅
  obtain ⟨hF₅, hleave, -, -⟩ := emit_spec h₆ (.refl F)
  have hF₄ := hx₅.before.trans hF₅
  obtain ⟨hF₃, hindex₄, hnext₄, -, hfile₄, hitems₄⟩ := allocate_spec h₄ hF₄
  have hmax := length_params_le h₁ hF₁
  have hcount : (UInt32.ofNat types.length).toNat = types.length :=
    UInt32.toNat_ofNat_of_lt' (by simp only [UInt32.size]; omega)
  have hsize₁ := hF₁.size_le
  have hcodesize := hfits.code_lt
  rw [size_code_finish] at hcodesize
  have hstart' : F.finish.codeStart.toNat = b₁.items.size := by
    have : F.finish.codeStart = UInt32.ofNat b₁.items.size := hstart
    rw [this, UInt32.toNat_ofNat_of_lt' (by simp only [UInt32.size]; omega)]
  -- the block is entered
  have henter := Context.step_call (m := m) (e := ρ e) hc hf hn hargs (by
    rw [hhead.2, hlength, ← htypes, hcount])
  rw [hcompiled.environment, hblock, hstart'] at henter
  refine .step_succ henter (.onHeap ?_)
  have hs₁ := hs.child hinside
  have hm₁ := Shows.moves_child ρ s m.heap.environments.size f.environment
  have hinner : s.heap.environments.size <
      (s.heap.newEnvironment (some f.environment)).2.environments.size := by
    rw [Heap.size_newEnvironment]
    exact Nat.lt_succ_self _
  have hself : Function.update ρ s.heap.environments.size m.heap.environments.size
      s.heap.environments.size = m.heap.environments.size := Function.update_self ..
  generalize hk' : k.within F.finish (.store dst) (ρ e) (p + 1) regs = k'
  have hk : k'.block = F.finish := by rw [← hk']; rfl
  -- the parameters are defined
  have hregs : ∀ (j : Nat) (hj : j < args.length),
      (F.finish.registers args.toArray)[0 + j]? = some args[j] := fun j hj => by
    rw [Nat.zero_add]
    exact Block.getElem?_registers hj
  have hparams := simulates_params (n := n) hk hfits f.head.params hinferred (m := m.withHeap _) h₃
    hF₃ hlength (by omega) hregs (fun v hv => hm₁.holds (hhs v hv)) hs₁ hinner
  rw [hself] at hparams
  refine hparams.bind fun _ s₂ r₂ hr => ?_
  obtain ⟨ρ₂, m₂, regs₂, rfl, hs₂, hm₂, hkeeps₂⟩ := hr
  -- the body is executed
  have hinner₂ := Nat.lt_of_lt_of_le hinner hm₂.size
  have hsize₂ := hkeeps₂.size
  have hfile := F.finish.le_size_registers args.toArray
  have hfile' : F.block.registerCount.toNat ≤ (F.finish.registers args.toArray).size := hfile
  have hplain : (Stmt.block f.body default).Plain := by
    rw [Stmt.Plain]
    exact hcompiled.body
  have hblockEval : Eval.block (Eval.apply n) n s.heap.environments.size f.body =
      Eval.stmt (Eval.apply n) n s.heap.environments.size (.block f.body default) := by
    rw [Eval.stmt]
    rfl
  show Simulates n ((Eval.block (Eval.apply n) n s.heap.environments.size f.body >>=
    Eval.answer) s₂) _ _
  rw [hblockEval, ← hitems₄]
  refine ((stmtFollows hk hfits hrest _ hplain h₅ hF₅ (o := 0) ⟨by omega, by omega, by omega⟩ hs₂
    hinner₂ ⟨rfl, rfl, fun h => by cases h⟩).bind fun flow s₃ r₃ hflow =>
      simulates_answer hflow rfl (hk ▸ hleave)).andThen fun v s₃ r₃ hleaves => ?_
  -- the block is left
  obtain ⟨ρ₃, m₃, e₃, q, r, regs₃, rfl, hcode₃, hv₃, hs₃, hm₃, hh₃⟩ := hleaves
  have hm := (hm₁.trans hm₂).trans hm₃
  refine ⟨k.run m₃ (ρ e) (p + 1) (regs.setIfInBounds dst.index v), .one ?_, ρ₃, m₃, _, ?_, hs₃, hm,
    .set fun hne => hne rfl, getElem?_set hd, hh₃⟩
  · rw [← hk'] at hcode₃ ⊢
    exact Context.step_leave_store hcode₃ hv₃ hd
  · rw [hm.same he]

/-- **The instruction of a call follows the call of a value**, however many calls may be nested. -/
theorem callFollows (n : Nat) : CallFollows (Eval.apply n) n := by
  induction n with
  | zero =>
    intro k ρ s m e p regs dst callee first argc f args hc hclass hf hn hargs hd hs he hh hhs
    cases f with
    | builtin op => exact simulates_operator hc hf hn hargs hd hs
    | function c => exact ⟨0, _, Nat.le_refl _, rfl⟩
    | _ => cases hclass
  | succ n ih =>
    intro k ρ s m e p regs dst callee first argc f args hc hclass hf hn hargs hd hs he hh hhs
    cases f with
    | builtin op => exact simulates_operator hc hf hn hargs hd hs
    | function c =>
      have hfunction := Array.getElem?_eq_getElem (show c < s.functions.size from hh)
      generalize s.functions[c] = f at hfunction
      have hcompiled := hs.compiled hfunction
      rw [Eval.apply_function hfunction]
      by_cases hlength : args.length = f.head.params.length
      · rw [if_pos hlength]
        exact simulates_function ih hc hf hn hargs hd hs he hfunction hhs hlength
      · rw [if_neg hlength]
        obtain ⟨ps, t, hsignature⟩ := hcompiled.signature
        obtain ⟨hname, hcount⟩ := hcompiled.block_head
        have hle := hcompiled.length_params_le
        have hcount' : (m.heap.closure c).block.parameterCount.toNat = f.head.params.length := by
          rw [hcount, UInt32.toNat_ofNat_of_lt' (by simp only [UInt32.size]; omega)]
        obtain ⟨r', hstep⟩ := Context.step_call_error (m := m) (e := ρ e) hc hf hn hargs
          (hcount'.symm ▸ hlength) hsignature
        rw [hname, hcount'] at hstep
        exact .fault hstep
    | _ => cases hclass

end call

/-! ## Programs -/

theorem shows_defineOperators {e : Nat} (ops : List Operator) {h : Heap}
    (hs : Shows id ⟨h, #[]⟩ h) (he : e < h.environments.size) :
    Shows id ⟨Machine.defineOperators e ops h, #[]⟩ (Machine.defineOperators e ops h) ∧
      e < (Machine.defineOperators e ops h).environments.size := by
  induction ops generalizing h with
  | nil => exact ⟨hs, he⟩
  | cons op ops ih =>
    refine ih (hs.define (v := .builtin op) he trivial op.symbol) ?_
    rw [Heap.size_define]
    exact he

/-- At the start both know the operators only. -/
theorem shows_initial : Shows id .initial Machine.initial.heap ∧
    Machine.initial.globals < Machine.initial.heap.environments.size := by
  refine shows_defineOperators Operator.all (h := (Heap.empty.newEnvironment none).2) ?_ ?_
  · refine ⟨rfl, rfl, rfl, rfl, fun hf => ?_, fun hf => ?_, id, fun _ => rfl, fun {e} _ => ?_,
      fun {e o} he ho => ?_, fun hlt _ => hlt, fun {c} v hv => ?_, fun {c name v} hv => ?_,
      fun {e name v} hv => ?_⟩
    · cases hf
    · cases hf
    · exact (Option.map_id_apply).symm
    · rw [Heap.size_newEnvironment] at he
      cases Nat.lt_one_iff.1 he
      cases ho
    · exact absurd hv (by simp [Heap.list, Heap.newEnvironment, Heap.empty])
    · exact absurd hv (by simp [Heap.object, Heap.newEnvironment, Heap.empty, Fields.get?])
    · cases e <;> cases hv
  · exact Nat.one_pos

/-- The run of the block of a program follows the evaluation of its accepted declarations. -/
theorem Program.simulates {rejected : List Nat} {ds : Program} {B : Block}
    (h : ds.lower false rejected = .ok B) (hfits : B.Fits)
    (hplain : Decl.PlainList (ds.accepted rejected)) (n : Nat) :
    Simulates n (Eval.program n Machine.initial.globals (ds.accepted rejected) .initial)
      (Machine.initial.start B) fun v s r =>
      ∃ ρ r', Exec.step r = .ok (some v) r' ∧ Shows ρ s r'.machine.heap := by
  unfold Program.lower at h
  dsimp only at h
  split at h
  next F hF =>
    cases h
    obtain ⟨value, b₁, h₁, h⟩ := bind_eq_ok hF
    obtain ⟨_, b₂, h₂, h₃⟩ := bind_eq_ok h
    have hx₁ := Tame.extends (fun _ _ => Safe.allocate) h₁
    have hx₂ := Tame.extends (fun _ _ => safe_sequence (safe_functions _ _)
      (safe_decls _ _ value) _ value) h₂
    have hx₃ := Tame.extends (fun _ _ => Safe.emit _) h₃
    obtain ⟨hF₂, hleave, -, -⟩ := emit_spec h₃ (.refl F)
    obtain ⟨-, hindex₁, hnext₁, -, hfile₁, hitems₁⟩ := allocate_spec h₁ (hx₂.before.trans hF₂)
    have hstart : F.finish.codeStart = 0 :=
      ((hx₁.head.trans hx₂.head).trans hx₃.head).codeStart
    obtain ⟨hs, hglobals⟩ := shows_initial
    have hs₁ := hs.child hglobals
    have hinner : Store.initial.heap.environments.size <
        (Store.initial.heap.newEnvironment (some Machine.initial.globals)).2.environments.size := by
      rw [Heap.size_newEnvironment]
      exact Nat.lt_succ_self _
    have hself : Function.update id Store.initial.heap.environments.size
        Machine.initial.heap.environments.size Store.initial.heap.environments.size =
          Machine.initial.heap.environments.size := Function.update_self ..
    have hfile := F.finish.le_size_registers #[]
    have hfile' : F.block.registerCount.toNat ≤ (F.finish.registers #[]).size := hfile
    generalize hk : (⟨F.finish, .answer, []⟩ : Context) = k
    have hblock : k.block = F.finish := by rw [← hk]
    have hbody := simulates_sequence hblock hfits hplain
      (declsFollow hblock hfits (callFollows n) _ hplain) (m := Machine.initial.withHeap _) (o := 0)
      h₂ hF₂ ⟨by omega, by omega, hfile'⟩ hs₁ hinner ⟨rfl, rfl, fun h => by cases h⟩
    rw [hself, hitems₁] at hbody
    have hrun : Machine.initial.start F.finish = k.run
        (Machine.initial.withHeap
          (Machine.initial.heap.newEnvironment (some Machine.initial.globals)).2)
        Machine.initial.heap.environments.size 0 (F.finish.registers #[]) := by
      rw [← hk]
      show (⟨_, .enter F.finish F.finish.codeStart.toNat _ #[] .answer, []⟩ : Run) = _
      rw [hstart]
      rfl
    have heval : Eval.program n Machine.initial.globals (ds.accepted rejected) = (do
        let environment ← Eval.child Machine.initial.globals
        let flow ← (do
          Eval.functions environment (ds.accepted rejected)
          Eval.decls (Eval.apply n) n environment .unit (ds.accepted rejected))
        Eval.answer flow) := by
      simp only [Eval.program, bind_assoc]
    rw [hrun, heval]
    refine .onHeap ((hbody.bind fun flow s' r' hflow =>
      simulates_answer hflow rfl (hblock ▸ hleave)).mono fun v s' r' hleaves => ?_)
    obtain ⟨ρ', m', e', q, dst, regs', rfl, hcode, hv, hs', hm', -⟩ := hleaves
    obtain ⟨r', hstep, hmachine⟩ := Context.step_leave_answer (m := m') (e := e')
      (by rw [← hk]) hcode hv
    exact ⟨ρ', r', hstep, hmachine.symm ▸ hs'⟩
  next => cases h

/-- What the evaluation of a program answers, a run answers. -/
theorem Program.run_of_evaluate {rejected : List Nat} {ds : Program} {B : Block}
    (h : ds.lower false rejected = .ok B) (hfits : B.Fits)
    (hplain : Decl.PlainList (ds.accepted rejected)) {n : Nat} {answer : Except Fault Value}
    {s : Store} (heval : Program.evaluate n (ds.accepted rejected) = some (answer, s)) :
    ∃ steps m, Machine.initial.run steps B = some (answer, m) ∧
      ∀ v, answer = .ok v → ∃ ρ, Shows ρ s m.heap := by
  have hsim := Program.simulates h hfits hplain n
  unfold Program.evaluate at heval
  match hout : Eval.program n Machine.initial.globals (ds.accepted rejected) .initial with
  | .ok v s' =>
    rw [hout] at heval hsim
    cases heval
    obtain ⟨j, r, hsteps, ρ, r', hstep, hs⟩ := hsim
    refine ⟨j + 1, r'.machine, ?_, fun w _ => ⟨ρ, hs⟩⟩
    rw [Machine.run, Run.finish_of_steps hsteps, Run.finish, hstep]
  | .error (.fault e) s' =>
    rw [hout] at heval hsim
    cases heval
    obtain ⟨j, r, r', hsteps, hstep⟩ := hsim
    refine ⟨j + 1, r'.machine, ?_, fun w hw => by cases hw⟩
    rw [Machine.run, Run.finish_of_steps hsteps, Run.finish, hstep]
  | .error .unfinished s' =>
    rw [hout] at heval
    cases heval

/-- An evaluation that is given as many calls and rounds as a run takes steps is not left
unfinished. -/
theorem Program.evaluate_of_run {rejected : List Nat} {ds : Program} {B : Block}
    (h : ds.lower false rejected = .ok B) (hfits : B.Fits)
    (hplain : Decl.PlainList (ds.accepted rejected)) {n : Nat} {answer : Except Fault Value}
    {m : Machine} (hrun : Machine.initial.run n B = some (answer, m)) :
    ∃ s, Program.evaluate n (ds.accepted rejected) = some (answer, s) := by
  have hends : ∃ answer' s, Program.evaluate n (ds.accepted rejected) = some (answer', s) := by
    have hsim := Program.simulates h hfits hplain n
    unfold Program.evaluate
    match hout : Eval.program n Machine.initial.globals (ds.accepted rejected) .initial with
    | .ok v s => exact ⟨.ok v, s, rfl⟩
    | .error (.fault e) s => exact ⟨.error e, s, rfl⟩
    | .error .unfinished s =>
      rw [hout] at hsim
      obtain ⟨j, r, hle, hsteps⟩ := hsim
      rw [Machine.run, Run.finish_eq_none hsteps hle] at hrun
      cases hrun
  obtain ⟨answer', s, heval⟩ := hends
  obtain ⟨steps, m', hrun', -⟩ := Program.run_of_evaluate h hfits hplain heval
  cases Run.finish_unique hrun hrun'
  exact ⟨s, heval⟩

/-- **A run of the block of a program ends exactly when the evaluation of its accepted declarations
ends, with the same value or the same failure.** If there is a value, the heap of the machine then
has the same cells as the store: only the environments have other numbers. -/
theorem Program.run_iff_evaluate {rejected : List Nat} {ds : Program} {B : Block}
    (h : ds.lower false rejected = .ok B) (hfits : B.Fits)
    (hplain : Decl.PlainList (ds.accepted rejected)) :
    (∀ answer, (∃ steps m, Machine.initial.run steps B = some (answer, m)) ↔
      ∃ n s, Program.evaluate n (ds.accepted rejected) = some (answer, s)) ∧
    ∀ steps n v w m s, Machine.initial.run steps B = some (.ok v, m) →
      Program.evaluate n (ds.accepted rejected) = some (.ok w, s) → ∃ ρ, Shows ρ s m.heap := by
  refine ⟨fun answer => ⟨?_, ?_⟩, ?_⟩
  · rintro ⟨steps, m, hrun⟩
    obtain ⟨s, heval⟩ := Program.evaluate_of_run h hfits hplain hrun
    exact ⟨steps, s, heval⟩
  · rintro ⟨n, s, heval⟩
    obtain ⟨steps, m, hrun, -⟩ := Program.run_of_evaluate h hfits hplain heval
    exact ⟨steps, m, hrun⟩
  · intro steps n v w m s hrun heval
    obtain ⟨steps', m', hrun', hshows⟩ := Program.run_of_evaluate h hfits hplain heval
    cases Run.finish_unique hrun hrun'
    exact hshows _ rfl

end Reified
