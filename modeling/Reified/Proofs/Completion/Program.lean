import Reified.Proofs.Completion.Sites
import Reified.Proofs.Simulation.Program
import Reified.Proofs.Typing.Checked

/-!
# What statements complete with

All declarations of a program have their code in its block or in one nested in it. Where control falls through
the end of this code, the declaration completes with the unit value if it has no value of its own.

The type of an `if` without `else` is that of the unit value, too. But its code loads the unit value only if
the condition was false: if it was true, what the consequent has left is the value, whatever this is.

## Main definitions

* `Site.Completes` — what is in the register behind a declaration

## Main results

* `Program.exists_site` — every declaration of a program has its code
* `Program.completes` — **what the declarations of a program complete with**
-/

namespace Reified

/-! ## Programs -/

/-- A declaration among others, or inside one of them, in a statement or in the body of a function. -/
inductive Decl.Inside (ds : List Decl) : Decl → Prop
  | top {d : Decl} (h : d ∈ ds) : Inside ds d
  | part {s : Stmt} {d : Decl} (h : Inside ds (.stmt s)) (hd : d ∈ s.inner) : Inside ds d
  | body {head : FnHead} {body : List Decl} {d : Decl} (h : Inside ds (.fn head body)) (hd : d ∈ body) :
      Inside ds d

/-- A block is nested in another one, at any depth, or is the same. -/
inductive Block.Nests (B : Block) : Block → Prop
  | here : Nests B B
  | inner {C D : Block} (h : Nests B C) (hD : D ∈ C.functions) : Nests B D

/-- Only a block has functions among its parts. -/
theorem Stmt.block_of_fn_mem {s : Stmt} {head : FnHead} {body : List Decl} (h : .fn head body ∈ s.inner) :
    ∃ ds span, s = .block ds span ∧ .fn head body ∈ ds := by
  cases s with
  | block ds span => exact ⟨ds, span, rfl, h⟩
  | cond c s t span => cases t <;> simp [inner] at h
  | forLoop init => rcases init with - | (_ | _) <;> simp [inner] at h
  | cases e cs t span => cases t <;> simp [inner] at h
  | _ => simp [inner] at h

/-- **Every declaration has its code** in the block of the program or in one nested in it. A function is created
in this block. -/
theorem Program.exists_site {checks : Bool} {rejected : List Nat} {ds : Program} {B : Block}
    (h : ds.lower checks rejected = .ok B) (hfits : B.Fits) {d : Decl}
    (hd : Decl.Inside (ds.accepted rejected) d) :
    ∃ F, B.Nests F.finish ∧ Site.Has F d ∧ ∀ head body, d = .fn head body → ∃ F', Site.Creates F head body F' := by
  induction hd with
  | top hd =>
    unfold lower at h
    dsimp only at h
    split at h
    next F hF =>
      cases h
      obtain ⟨value, b₁, -, hrest⟩ := Lower.bind_eq_ok hF
      obtain ⟨_, b₂, hbody, hleave⟩ := Lower.bind_eq_ok hrest
      obtain ⟨hhas, hfunctions⟩ := Site.has_body_of (p := ⟨checks, [], 0, none⟩) hfits hbody
        (Lower.emit_spec hleave (.refl F)).1 nofun
      exact ⟨F, .here, hhas _ hd, fun head body heq => hfunctions head body (heq ▸ hd)⟩
    next => cases h
  | part _ hd ih =>
    obtain ⟨F, hnests, ⟨s, hs, hdecl, rfl⟩, -⟩ := ih
    refine ⟨s.last, hnests, hs.inner hdecl _ hd, ?_⟩
    rintro head body rfl
    obtain ⟨ds, span, rfl, hmem⟩ := Stmt.block_of_fn_mem hd
    exact hs.function hdecl hmem
  | body _ hd ih =>
    obtain ⟨F, hnests, -, hfunction⟩ := ih
    obtain ⟨F', hcreates⟩ := hfunction _ _ rfl
    obtain ⟨s, hs, hdecl, rfl, -⟩ := hcreates.runs
    refine ⟨s.last, hnests.inner hcreates.mem, hs.inner hdecl _ hd, ?_⟩
    rintro head body rfl
    exact hs.function hdecl hd

/-! ## Completions -/

namespace Site

/-- What is in the register when control falls through the end of a declaration. Without a value of its own it
is the unit value. Behind an `if` without `else` the last instruction has loaded the unit value, or the
registers are as they were at the end of the consequent. It is also the unit value if the form of the
declaration tells so and its code has been executed from the beginning on. -/
structure Completes (s : Site) (r r' : Run) : Prop where
  valueless : s.declaration.Valueless → r'.top.registers[s.register.index]? = some .unit
  condition : ∀ c t span, s.declaration = .stmt (.cond c t none span) → ∃ y : Site, y.Emitted ∧
    y.declaration = .stmt t ∧ y.register = s.register ∧ y.last = s.last ∧ s.start ≤ y.start ∧
      y.stop < s.stop ∧
      (r.top.position = y.stop ∧ r'.top.registers = r.top.registers ∨
        r'.top.registers[s.register.index]? = some .unit)
  form : s.declaration.Voids → s.Executing r → r'.top.registers[s.register.index]? = some .unit

/-- The end of an `if` without `else`. -/
theorem Falls.condition {s : Site} {r r' : Run} (h : s.Falls r r') (hs : s.Emitted) {c : Expr} {t : Stmt} {span : Span}
    (hd : s.declaration = .stmt (.cond c t none span)) : ∃ y : Site, y.Emitted ∧
    y.declaration = .stmt t ∧ y.register = s.register ∧ y.last = s.last ∧ s.start ≤ y.start ∧
      y.stop < s.stop ∧
      (r.top.position = y.stop ∧ r'.top.registers = r.top.registers ∨
        r'.top.registers[s.register.index]? = some .unit) := by
  obtain ⟨y, hy, hydecl, hplace, hregister, hlast, hstart, hstop, ⟨u, hjump⟩, ⟨j, hload, hj⟩, htest⟩ :=
    hs.consequent hd
  refine ⟨y, hy, hydecl, hregister, hlast, hstart, by omega, ?_⟩
  obtain ⟨i, hi, -, hleads, -⟩ := h.onward.leads
  have hcode : s.last.finish.code[r.top.position]? = some i := h.block ▸ hi
  have hbehind := h.behind
  have hlt := h.stop
  rcases Nat.lt_or_ge r.top.position y.start with hbefore | hge
  · have := htest _ _ _ h.start hbefore hcode hleads
    omega
  rcases Nat.lt_trichotomy r.top.position y.stop with hinside | heq | hafter
  · have hstays : ¬y.JumpsOut r.top.position := fun hout => h.stays (by
      obtain ⟨x, l, hx, hl, hmem⟩ := hout
      exact ⟨x, l, hlast ▸ hx, hl, hplace ▸ hmem⟩)
    obtain ⟨κ, hκ⟩ := hy.ready False False (fun h => h.elim) False.elim
    obtain ⟨-, -, hle, -⟩ := leads hκ hy (hlast ▸ h.block) hge hinside hstays h.onward
    omega
  · rw [heq, hjump] at hcode
    cases hcode
    exact .inl ⟨heq, h.onward.registers_of_jump hi⟩
  · rw [show r.top.position = y.stop + 1 by omega, hload] at hcode
    cases hcode
    exact .inr (h.onward.unit_of_yields hi ⟨rfl, h.block ▸ hj⟩ fun h : False => h.elim)

end Site

/-- **What the declarations of a program complete with.** Wherever the end of a declaration is fallen through,
in whatever block and at whatever time of a run, it has completed as it should. This is about all that a
program consists of: each of its declarations has its code in its block or in one nested in it, and the block
of a function is left with what the body completes with. -/
theorem Program.completes {checks : Bool} {rejected : List Nat} {ds : Program} {B : Block}
    (h : ds.lower checks rejected = .ok B) (hfits : B.Fits) :
    (∀ (s : Site) (r r' : Run), s.Emitted → s.Falls r r' → s.Completes r r') ∧
      ∀ d, Decl.Inside (ds.accepted rejected) d →
        (∃ F, B.Nests F.finish ∧ Site.Has F d) ∧
          ∀ head body, d = .fn head body → ∃ F, B.Nests F.finish ∧ Site.Runs F body := by
  refine ⟨fun s r r' hs hfall => ⟨hfall.unit hs, fun _ _ _ => hfall.condition hs, fun hform hr => ?_⟩,
    fun d hd => ?_⟩
  · exact (hr.step hfall.stop hfall.stays hfall.onward).unit hs hform hfall.behind
  · -- the block of a function is nested in the one in which the function is created
    obtain ⟨F, hnests, hd, hfunction⟩ := exists_site h hfits hd
    refine ⟨⟨F, hnests, hd⟩, fun head body heq => ?_⟩
    obtain ⟨F', hcreates⟩ := hfunction head body heq
    exact ⟨F', hnests.inner hcreates.mem, hcreates.runs⟩

/-- The block of a program that declares a variable. -/
def Block.declares : Block :=
  ⟨"<program>", #[.loadConstant ⟨0⟩ 0, .setLocal 0 ⟨0⟩, .loadConstant ⟨0⟩ 1, .leave ⟨0⟩],
    #[.bool true, .unit], #["x"], #[], 0, 1, 0⟩

/-- Behind the declaration of a variable the register no longer holds the value of the variable. -/
theorem Program.completes_declares :
    let x : LetDecl := ⟨"x", none, .literal default (.bool true), default⟩
    let program : Program := [.letDecl x]
    let B := Block.declares
    ∃ s r r', program.lower true [] = .ok B ∧ B.Fits ∧ Site.Emitted s ∧ s.declaration = .letDecl x ∧
      s.last.finish = B ∧ (Machine.initial.start B).Goes r ∧ s.Falls r r' ∧
      r.top.registers[s.register.index]? = some (.bool true) ∧
      r'.top.registers[s.register.index]? = some .unit := by
  intro x program B
  let block : Block := ⟨"<program>", #[], #[], #[], #[], 0, 1, 0⟩
  let pools : Block := ⟨"<program>", #[], #[.bool true, .unit], #["x"], #[], 0, 1, 0⟩
  let items : Array Item := #[⟨.loadConstant ⟨0⟩ 0, none⟩, ⟨.setLocal 0 ⟨0⟩, none⟩, ⟨.loadConstant ⟨0⟩ 1, none⟩]
  let s : Site := ⟨⟨true, [], 0, none⟩, .letDecl x, ⟨0⟩, ⟨block, #[], #[], 1⟩, ⟨pools, items, #[], 1⟩,
    ⟨pools, items.push ⟨.leave ⟨0⟩, none⟩, #[], 1⟩⟩
  have hlower : program.lower true [] = .ok B := by cbv
  have hfinish : s.last.finish = B := by cbv
  have hfits : B.Fits := by
    show B.fits = true
    decide +kernel
  have hcode : Lower.decl s.place s.declaration s.register s.before = .ok () s.after := by cbv
  have hleave : Lower.emit (.leave ⟨0⟩) s.after = .ok () s.last := rfl
  have hs : s.Emitted := ⟨hcode, (Lower.emit_spec hleave (.refl _)).1, List.forall_mem_nil _, hfinish ▸ hfits⟩
  let k : Context := ⟨B, .answer, []⟩
  obtain ⟨m, e, regs, hstart, hsize⟩ : ∃ m e regs, Machine.initial.start B = k.run m e 0 regs ∧
      0 < regs.size := ⟨_, _, _, rfl, Nat.one_pos⟩
  have hload : k.block.code[0]? = some (.loadConstant ⟨0⟩ 0) := rfl
  have hunit : k.block.code[2]? = some (.loadConstant ⟨0⟩ 1) := rfl
  have h₁ := Context.step_loadConstant (k := k) (m := m) (e := e) (c := .bool true) hload rfl hsize
  have htrue : (regs.setIfInBounds 0 (.bool true))[0]? = some (.bool true) :=
    Array.getElem?_setIfInBounds_self_of_lt hsize
  have h₂ := Context.step_setLocal (k := k) (m := m) (e := e) (p := 1) (i := 0) (r := ⟨0⟩) rfl rfl htrue
  let r := k.run (m.withHeap (m.heap.define e "x" (.bool true))) e 2 (regs.setIfInBounds 0 (.bool true))
  let r' := k.run r.machine e 3 (r.top.registers.setIfInBounds 0 .unit)
  have hsize₂ : 0 < r.top.registers.size := by
    show 0 < (regs.setIfInBounds 0 _).size
    rwa [Array.size_setIfInBounds]
  have h₃ : Exec.step r = .ok none r' := Context.step_loadConstant (c := .unit) hunit rfl hsize₂
  have hfalls : s.Falls r r' := ⟨hfinish.symm, Nat.zero_le 2, Nat.lt_succ_self 2,
    (by rintro ⟨_, _, _, _, hl⟩; cases hl), ⟨rfl, 0, .one h₃, fun k _ hpos hle => by omega⟩, rfl⟩
  exact ⟨s, r, r', hlower, hfits, hs, rfl, hfinish, hstart ▸ (Run.Goes.one h₁).trans (.one h₂), hfalls, htrue,
    ((completes hlower hfits).1 s r r' hs hfalls).valueless trivial⟩

/-- A function whose body is an `if` without `else` need not return the unit value, although its type says so:
here it returns what its consequent completes with. -/
theorem Program.completes_taken :
    let f : FnHead := ⟨"f", default, [], [], some (.name "Void" default), default, default, none⟩
    let one : Number := ⟨0x3ff0000000000000⟩
    let consequent : Stmt := .block [.stmt (.expr (.literal default (.number one)))] default
    let body : List Decl := [.stmt (.cond (.literal default (.bool true)) consequent none default)]
    let call : Expr := .call default (.ident default "f") [] none
    let program : Program := [.fn f body, .stmt (.expr call)]
    (Checker.initial.checkProgram program).2.diagnostics.isEmpty = true ∧
      (Checker.initial.checkProgram program).1.rejected = [] ∧
      ∃ B steps m, (Checker.initial.checkProgram program).1.program.lower false [] = .ok B ∧
        Machine.initial.run steps B = some (.ok (.number one), m) := by
  intro f one consequent body call program
  have hprogram : Decl.ExplicitList program :=
    ⟨⟨by simp [FnHead.Explicit, f], ⟨trivial, trivial⟩, trivial⟩, trivial, trivial⟩
  -- The program is checked once; what is looked at of the result is looked at together.
  have hlooks : (fun c : CheckedProgram × Checker => (c.2.diagnostics.isEmpty, c.1.rejected,
        (c.1.program.lower false []).toOption.map Block.fits,
        (Program.evaluate 1 (c.1.program.accepted [])).map Prod.fst)) (Checker.initial.checkProgram program) =
      (true, [], some true, some (.ok (.number one))) := by cbv
  have hplain {p : Program} (hp : Decl.ExplicitList p) {r : CheckedProgram × Checker}
      (hr : Checker.initial.checkProgram p = r) : Decl.PlainList (r.1.program.accepted r.1.rejected) :=
    hr ▸ Checker.plain_accepted hp Checker.explicit_initial
  generalize hchecked : Checker.initial.checkProgram program = r at hlooks ⊢
  replace hplain := hplain hprogram hchecked
  obtain ⟨checked, checker⟩ := r
  obtain ⟨hdiagnostics, hrejected, hfits, hanswer⟩ : _ ∧ _ ∧ _ ∧ _ := by
    simpa only [Prod.mk.injEq] using hlooks
  refine ⟨hdiagnostics, hrejected, ?_⟩
  obtain ⟨⟨answer, s⟩, heval, rfl⟩ := Option.map_eq_some_iff.mp hanswer
  cases hlower : checked.program.lower false [] with
  | error e =>
    rw [hlower] at hfits
    cases hfits
  | ok B =>
    rw [hlower] at hfits
    rw [hrejected] at hplain
    obtain ⟨steps, m, hrun⟩ := ((run_iff_evaluate hlower (Option.some.inj hfits) hplain).1 _).mpr ⟨1, s, heval⟩
    exact ⟨B, steps, m, rfl, hrun⟩

end Reified
