import Reified.Proofs.Simulation.Flow
import Reified.Proofs.Simulation.Signature

/-!
# Creating functions

When a function is created, its block is entered so that the signature of the function is evaluated;
the type with which the block is left then goes into the closure of the function.

## Main definitions

* `Context.within` — a block entered from another one

## Main results

* `Context.step_newFunction`, `Context.step_leave_signature` — the instructions
* `simulates_functions` — the code that creates functions follows its evaluation
-/

namespace Reified

open Builder Lower

/-! ## Entering and leaving blocks -/

/-- A block is entered while another one is at a position. -/
def Context.within (k : Context) (block : Block) (resume : Resume) (environment position : Nat)
    (registers : Array Value) : Context :=
  ⟨block, resume, ⟨k.block, position, registers, environment, k.resume⟩ :: k.callers⟩

/-- The registers of a block that is entered with arguments. -/
def Block.registers (B : Block) (args : Array Value) : Array Value :=
  args ++ Array.replicate (B.registerCount.toNat - args.size) Value.unit

theorem Block.le_size_registers (B : Block) (args : Array Value) :
    B.registerCount.toNat ≤ (B.registers args).size := by
  rw [registers, Array.size_append, Array.size_replicate]
  omega

namespace Context

variable {k : Context} {m : Machine} {e e' p q : Nat} {regs regs' : Array Value}
  {dst r : Register} {i : UInt32} {v : Value} {B B' : Block} {t : Ty}

theorem step_newFunction (hc : k.block.code[p]? = some (.newFunction dst i))
    (hi : k.block.function? i = some B) (hB : B.codeStart ≠ 0) :
    Exec.step (k.run m e p regs) = .ok none
      ((k.within B (.signature dst B) e (p + 1) regs).run
        (m.withHeap (m.heap.newEnvironment (some e)).2) m.heap.environments.size 0
        (B.registers #[])) := by
  have hnested : Exec.nested i (k.run m e (p + 1) regs) = .ok B (k.run m e (p + 1) regs) := by
    simp only [Exec.nested, run, hi]
  rw [Exec.step, Exec.bind_ok (fetch_run hc)]
  refine Exec.bind_ok (f := fun _ => pure none) (a := ()) ?_
  rw [Exec.newFunction, Exec.bind_ok hnested, Exec.bind_ok (Exec.get_run _), if_neg hB,
    Exec.bind_ok (onHeap_run _)]
  rfl

/-- What leaves the block of a signature goes into a closure. -/
theorem step_leave_signature
    (hc : B'.code[q]? = some (.leave r)) (hr : regs'[r.index]? = some (.type t))
    (hd : dst.index < regs.size) :
    Exec.step ((k.within B' (.signature dst B) e p regs).run m e' q regs') =
      .ok none (k.run (m.withHeap (m.heap.newClosure ⟨B, e, t⟩).2) e p
        (regs.setIfInBounds dst.index (.function m.heap.closures.size))) := by
  rw [Exec.step, Exec.bind_ok (fetch_run hc)]
  show Exec.leave r _ = _
  rw [Exec.leave, Exec.bind_ok (read_run hr)]
  have hback : Exec.back ((k.within B' (.signature dst B) e p regs).run m e' (q + 1) regs') =
      .ok (some (.signature dst B)) (k.run m e p regs) := rfl
  rw [Exec.bind_ok hback]
  dsimp only
  rw [Exec.bind_ok (Exec.get_run _)]
  exact Exec.bind_ok (create_run hd)

/-- The closure has been made also if there is no register for it. -/
theorem step_leave_signature_error
    (hc : B'.code[q]? = some (.leave r)) (hr : regs'[r.index]? = some (.type t))
    (hd : ¬dst.index < regs.size) :
    ∃ f r', Exec.step ((k.within B' (.signature dst B) e p regs).run m e' q regs') = .error f r' ∧
      r'.machine = m.withHeap (m.heap.newClosure ⟨B, e, t⟩).2 := by
  have hcreate : Exec.create dst (·.newClosure ⟨B, e, t⟩) (k.run m e p regs) =
      .error (.registerOutOfRange dst k.block.name) (k.run (m.withHeap (m.heap.newClosure ⟨B, e, t⟩).2) e p regs) := by
    rw [Exec.create, Exec.bind_ok (onHeap_run _)]
    simp only [Exec.write, run, hd, if_false]
  refine ⟨.registerOutOfRange dst k.block.name, k.run (m.withHeap (m.heap.newClosure ⟨B, e, t⟩).2) e p regs, ?_, rfl⟩
  rw [Exec.step, Exec.bind_ok (fetch_run hc)]
  show Exec.leave r _ = _
  rw [Exec.leave, Exec.bind_ok (read_run hr)]
  have hback : Exec.back ((k.within B' (.signature dst B) e p regs).run m e' (q + 1) regs') =
      .ok (some (.signature dst B)) (k.run m e p regs) := rfl
  rw [Exec.bind_ok hback]
  dsimp only
  rw [Exec.bind_ok (Exec.get_run _)]
  exact Exec.bind_error hcreate

/-- What leaves the block of a function goes to the register of the caller. -/
theorem step_leave_store (hc : B'.code[q]? = some (.leave r)) (hr : regs'[r.index]? = some v)
    (hd : dst.index < regs.size) :
    Exec.step ((k.within B' (.store dst) e p regs).run m e' q regs') =
      .ok none (k.run m e p (regs.setIfInBounds dst.index v)) := by
  rw [Exec.step, Exec.bind_ok (fetch_run hc)]
  show Exec.leave r _ = _
  rw [Exec.leave, Exec.bind_ok (read_run hr)]
  have hback : Exec.back ((k.within B' (.store dst) e p regs).run m e' (q + 1) regs') =
      .ok (some (.store dst)) (k.run m e p regs) := rfl
  rw [Exec.bind_ok hback]
  dsimp only
  exact Exec.bind_ok (write_run hd)

/-- What leaves the outermost block is the value of the run. -/
theorem step_leave_answer (hcallers : k.callers = []) (hc : k.block.code[q]? = some (.leave r))
    (hr : regs[r.index]? = some v) :
    ∃ r', Exec.step (k.run m e q regs) = .ok (some v) r' ∧ r'.machine = m := by
  refine ⟨k.run m e (q + 1) regs, ?_, rfl⟩
  obtain ⟨block, resume, callers⟩ := k
  cases hcallers
  rw [Exec.step, Exec.bind_ok (fetch_run hc)]
  show Exec.leave r _ = _
  rw [Exec.leave, Exec.bind_ok (read_run hr)]
  rfl

end Context

/-! ## The block of a function -/

section create

variable {k : Context} {m : Machine} {e p : Nat} {regs : Array Value} {dst : Register} {i : UInt32} {B : Block}
  {head : FnHead} {place : Place → Register → Lower Unit} {checks : Bool} {c c' : Builder}

/-- The block of a function does not start with its code, but with the evaluation of its signature. -/
theorem codeStart_ne_zero (hbody : ∀ p r, Tame (place p r)) (hB : functionBlock checks head place c = .ok B c')
    (hfits : B.Fits) : B.codeStart ≠ 0 := by
  obtain ⟨types, result, implicit, F, -, hF, rfl⟩ := functionBlock_spec hB
  obtain ⟨-, -, b₁, h₁, hstart, hbefore⟩ := functionCode_head (hbody _) hF
  have hcode := hfits.code_lt
  rw [size_code_finish] at hcode
  have hle := hbefore.size_le
  have hpos := signature_size_pos h₁
  intro heq
  have hzero : (UInt32.ofNat b₁.items.size).toNat = 0 := by
    rw [← hstart]
    exact congrArg UInt32.toNat heq
  rw [UInt32.toNat_ofNat_of_lt' (by simp only [UInt32.size]; omega)] at hzero
  omega

/-- The block of a function that is created runs the evaluation of its signature, which is then about to leave the
block: it is over new variables, which are generalized. -/
theorem goes_newFunctionSignature (hbody : ∀ p r, Tame (place p r)) (hB : functionBlock checks head place c = .ok B c')
    (hfits : B.Fits) (hc : k.block.code[p]? = some (.newFunction dst i)) (hi : k.block.function? i = some B)
    (regs : Array Value) :
    ∃ (m' : Machine) (t : Ty) (e' q : Nat) (r : Register) (regs' : Array Value), head.signature = some t ∧
      Run.Goes (k.run m e p regs) ((k.within B (.signature dst B) e (p + 1) regs).run m' e' q regs') ∧
      B.code[q]? = some (.leave r) ∧ regs'[r.index]? = some (.type (t.renewed m.table.size)) ∧
      m'.heap = ((m.heap.newEnvironment (some e)).2.newEnvironment (some m.heap.environments.size)).2 ∧
      m'.frames = m.frames ∧ m'.globals = m.globals ∧ m.table.Declared m'.table t.distinctVars.length := by
  have hstart := codeStart_ne_zero hbody hB hfits
  obtain ⟨types, result, implicit, F, hsignature, hF, rfl⟩ := functionBlock_spec hB
  obtain ⟨-, -, b₁, h₁, -, hbefore⟩ := functionCode_head (hbody _) hF
  obtain ⟨T, q, r, regs', hgoes, hleave, hr, hdeclared⟩ :=
    goes_signature (k := k.within F.finish (.signature dst F.finish) e (p + 1) regs) rfl hfits
      (m := m.withHeap (m.heap.newEnvironment (some e)).2) (e := m.heap.environments.size) h₁
      hbefore (F.finish.le_size_registers #[])
  exact ⟨⟨T, m.frames, _, m.globals⟩, _, _, q, r, regs', hsignature,
    (Run.Goes.one (Context.step_newFunction hc hi hstart)).trans hgoes, hleave, hr, rfl, rfl, rfl, hdeclared⟩

/-- The closure has the signature over new variables, which are generalized. -/
theorem goes_newFunction (hbody : ∀ p r, Tame (place p r)) (hB : functionBlock checks head place c = .ok B c')
    (hfits : B.Fits) (hc : k.block.code[p]? = some (.newFunction dst i)) (hi : k.block.function? i = some B)
    (hd : dst.index < regs.size) :
    ∃ (m' : Machine) (t : Ty), head.signature = some t ∧ Run.Goes (k.run m e p regs)
        (k.run (m'.withHeap (m'.heap.newClosure ⟨B, e, t.renewed m.table.size⟩).2) e (p + 1)
          (regs.setIfInBounds dst.index (.function m'.heap.closures.size))) ∧
      m'.heap = ((m.heap.newEnvironment (some e)).2.newEnvironment (some m.heap.environments.size)).2 ∧
      m'.frames = m.frames ∧ m'.globals = m.globals ∧ m.table.Declared m'.table t.distinctVars.length := by
  obtain ⟨m', t, e', q, r, regs', hsignature, hgoes, hleave, hr, hrest⟩ :=
    goes_newFunctionSignature (m := m) (e := e) hbody hB hfits hc hi regs
  exact ⟨m', t, hsignature, hgoes.trans (.one (Context.step_leave_signature hleave hr hd)), hrest⟩

end create

section functions

variable {F : Builder} {k : Context} {n : Nat} (hk : k.block = F.finish) (hfits : F.finish.Fits)

include hk hfits

/-- The functions among some declarations are created one after the other. -/
theorem simulates_functions : (ds : List Decl) → Decl.PlainList ds → ∀ {ρ : Nat → Nat} {s : Store}
    {m : Machine} {e : Nat} {place : Place} {regs : Array Value} {b b' : Builder},
    place.checks = false → functions place ds b = .ok () b' → b'.Before F →
    F.block.registerCount.toNat ≤ regs.size → Shows ρ s m.heap → e < s.heap.environments.size →
    Simulates n (Eval.functions e ds s) (k.run m (ρ e) b.items.size regs) fun _ =>
      Reached k ρ s e b'.items.size (fun i => i < b.next.toNat) regs
  | [], _, ρ, s, m, e, place, regs, b, b', hchecks, h, hF, hfile, hs, he => by
    rw [functions] at h
    obtain ⟨-, rfl⟩ := pure_eq_ok h
    rw [Eval.functions]
    exact .ok (.refl hs)
  | .letDecl d :: ds, hplain, ρ, s, m, e, place, regs, b, b', hchecks, h, hF, hfile, hs, he => by
    rw [functions_letDecl] at h
    rw [Decl.PlainList] at hplain
    rw [Eval.functions]
    · exact simulates_functions ds hplain.2 hchecks h hF hfile hs he
    · intro _ _ h
      cases h
  | .stmt d :: ds, hplain, ρ, s, m, e, place, regs, b, b', hchecks, h, hF, hfile, hs, he => by
    rw [functions_stmt] at h
    rw [Decl.PlainList] at hplain
    rw [Eval.functions]
    · exact simulates_functions ds hplain.2 hchecks h hF hfile hs he
    · intro _ _ h
      cases h
  | .fn head body :: ds, hplain, ρ, s, m, e, place, regs, b, b', hchecks, h, hF, hfile, hs, he => by
    rw [functions] at h
    rw [Decl.PlainList, Decl.Plain] at hplain
    obtain ⟨⟨hhead, hbody⟩, hplain⟩ := hplain
    have hblock : (fun (p : Place) (dst : Register) => do
        emit .pushScope
        sequence body.isEmpty (functions p.deeper body) (decls p.deeper body dst) dst
        emit .popScope) = fun p dst => stmt p (.block body default) dst := by
      funext p dst
      rw [stmt]
    rw [hblock, hchecks] at h
    obtain ⟨B, b₁, hB, h⟩ := bind_eq_ok h
    obtain ⟨_, b₂, hcreate, hrest⟩ := bind_eq_ok h
    have hb₁ := functionBlock_eq_ok hB
    obtain ⟨i, b₃, h₃, hcreate⟩ := bind_eq_ok hcreate
    obtain ⟨mark, b₄, h₄, hcreate⟩ := bind_eq_ok hcreate
    obtain ⟨r, b₅, h₅, hcreate⟩ := bind_eq_ok hcreate
    obtain ⟨_, b₆, h₆, hcreate⟩ := bind_eq_ok hcreate
    obtain ⟨j, b₇, h₇, hcreate⟩ := bind_eq_ok hcreate
    obtain ⟨_, b₈, h₈, h₉⟩ := bind_eq_ok hcreate
    obtain ⟨rfl, rfl⟩ := mark_spec h₄
    have hF₂ := Tame.before (fun _ _ => safe_functions ds place) hrest hF
    obtain ⟨hF₈, hitems₉, hnext₉⟩ := release_spec h₉ hF₂
    obtain ⟨hF₇, hcode₈, hsize₈, -⟩ := emit_spec h₈ hF₈
    obtain ⟨hF₆, hname, hitems₇, -⟩ := identifier_spec h₇ hF₇ hfits
    obtain ⟨hF₅, hcode₆, hsize₆, -⟩ := emit_spec h₆ hF₆
    obtain ⟨hF₃, hindex₅, hnext₅, -, hfile₅, hitems₅⟩ := allocate_spec h₅ hF₅
    obtain ⟨-, hfunction, hitems₃, hnext₃⟩ := function_spec h₃ hF₃ hfits
    rw [← hk] at hcode₆ hcode₈ hname
    rw [hitems₇, hsize₆] at hcode₈ hsize₈
    rw [hitems₅, hitems₃, hb₁] at hcode₆ hcode₈ hsize₈
    have hBfits : B.Fits := hfits.of_mem (Array.mem_of_getElem? hfunction)
    rw [← hk] at hfunction
    have hd : r.index < regs.size := by omega
    -- the function is created
    obtain ⟨m₁, signature, hsignature, hgoes, hheap, -⟩ := goes_newFunction (m := m) (e := ρ e)
      (fun p r _ _ => safe_stmt _ p r) hB hBfits hcode₆ hfunction hd
    obtain ⟨ps, t, hrenewed⟩ : ∃ ps t, signature.renewed m.table.size = .fn ps t 0 := by
      obtain ⟨types, result, hplain, -⟩ := hhead.1
      obtain rfl := Option.some.inj (hsignature.symm.trans hplain)
      exact ⟨_, _, by rw [Ty.renewed, Ty.rebuilt]; rfl⟩
    rw [hrenewed] at hgoes
    refine .goes hgoes ?_
    have hs₁ : Shows ρ s m₁.heap := by
      rw [hheap]
      exact (hs.newEnvironment _).newEnvironment _
    have hcompiled : Function.Compiled ρ ⟨head, body, e⟩ ⟨B, ρ e, .fn ps t 0⟩ :=
      ⟨rfl, ⟨ps, t, rfl⟩, hBfits, hhead, hbody, b, b₁, hB⟩
    have hs₂ := hs₁.newFunction hcompiled he
    have hm₂ := Shows.moves_newFunction ρ s ⟨head, body, e⟩
    -- and its name is defined
    have hr : (regs.setIfInBounds r.index (.function m₁.heap.closures.size))[r.index]? =
        some (.function s.functions.size) := by
      rw [getElem?_set hd, hs₁.closures]
    have hholds : Store.Holds ⟨s.heap, s.functions.push ⟨head, body, e⟩⟩
        (.function s.functions.size) := by
      show _ < (s.functions.push _).size
      rw [Array.size_push]
      exact Nat.lt_succ_self _
    have hstep := Context.step_setLocal
      (m := m₁.withHeap (m₁.heap.newClosure ⟨B, ρ e, .fn ps t 0⟩).2) (e := ρ e) hcode₈ hname hr
    have hs₃ := hs₂.define he hholds head.name
    have hm₃ := Shows.moves_define ρ ⟨s.heap, s.functions.push ⟨head, body, e⟩⟩ e head.name
      (.function s.functions.size)
    rw [← hsize₈, ← hitems₉] at hstep
    refine .step hstep ?_
    have hkeeps : Keeps (fun i => i < b.next.toNat) regs
        (regs.setIfInBounds r.index (.function m₁.heap.closures.size)) :=
      .set fun hi => by
        rw [← hb₁] at hi
        omega
    have hnext : b.next.toNat = b₂.next.toNat := by rw [hnext₉, hnext₃, hb₁]
    have hsize := hkeeps.size
    have heval : Eval.functions e (.fn head body :: ds) s =
        Eval.functions e ds ⟨s.heap.define e head.name (.function s.functions.size),
          s.functions.push ⟨head, body, e⟩⟩ := by
      rw [Eval.functions]
      rfl
    rw [heval]
    refine (simulates_functions ds hplain (s := ⟨_, _⟩)
      (m := (m₁.withHeap _).withHeap _) hchecks hrest hF (by omega) hs₃ ?_).mono
      fun _ s' r' hr' => ?_
    · rw [Heap.size_define]
      exact he
    · exact (hr'.mono fun i hi => by omega).after (hm₂.trans hm₃) hkeeps

end functions

end Reified
