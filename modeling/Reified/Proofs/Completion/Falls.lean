import Reified.Proofs.Completion.Code
import Reified.Proofs.Scopes.Runs

/-!
# Falling through the end of a statement

A run executes the code of a declaration, with calls in between. All that a call does counts as one
instruction of the block that makes it, so that a run in a block is a path through its code. It falls through
the end of a declaration by a step, or by a call, that leads from inside of its code to the position behind
it. A jump of the loop around may lead there, too, but does not fall through.

Behind declarations, functions, loops and the empty statement the register holds the unit value, whatever has
been executed in between. Behind an `if` without `else` it does if the condition was false. If the condition
was true, it holds what the consequent has left there.

## Main definitions

* `Run.Over` — one instruction of a block, with all that a call does
* `Site` — the code of a declaration in a block
* `Site.Falls`, `Site.Executing` — its end is fallen through, it is executed from its beginning

## Main results

* `Run.Over.leads` — where the code goes on behind an instruction
* `Site.completes` — **what a statement without a value completes with**
-/

namespace Reified

/-! ## One instruction of a block -/

namespace Run

/-- From one instruction of the block in execution to the next. If the instruction is a call, all that the
call does is in between. -/
structure Over (r r' : Run) : Prop where
  callers : r'.callers.length = r.callers.length
  steps : ∃ n, Steps (n + 1) r r' ∧
    ∀ k r₁, 0 < k → k ≤ n → Steps k r r₁ → r.callers.length < r₁.callers.length

variable {r r₁ r' : Run}

/-- An instruction that is no call stays in its block. -/
theorem leads_of_instr {i : Instr} (hi : i.Stays) (h : Exec.instr i r.advance = .ok () r') :
    r'.top.block = r.top.block ∧ r'.callers = r.callers ∧ i.Leads r.top.position r'.top.position := by
  by_cases hpush : i = .pushScope
  · subst hpush
    cases h
    exact ⟨rfl, rfl, .next id⟩
  by_cases hpop : i = .popScope
  · subst hpop
    obtain ⟨outer, rfl⟩ := popScope_eq_ok h
    exact ⟨rfl, rfl, .next id⟩
  have hinside := (Exec.stays_instr (d := True) (φ := fun _ => True) hpush hpop (fun _ _ _ => trivial) fun _ _ _ => trivial).ok h
  exact ⟨hinside.block, hinside.callers, leads_instr hi hpush hpop h⟩

/-- A step stays in the block in execution, or enters another one, or leaves it. -/
theorem step_cases (h : Exec.step r = .ok none r') : ∃ i, r.next? = some i ∧
    (r'.top.block = r.top.block ∧ r'.callers = r.callers ∧ i.Leads r.top.position r'.top.position ∨
      (¬i.Ends ∧ ¬i.Stays ∧ ∃ a, a.block = r.top.block ∧ a.position = r.top.position + 1 ∧
        r'.callers = a :: r.callers) ∨
      ∃ caller, r.callers = caller :: r'.callers ∧ r'.top.block = caller.block ∧
        r'.top.position = caller.position ∧ ∃ src, i = .leave src) := by
  obtain ⟨i, hi, hrest⟩ := Exec.step_eq_ok h
  refine ⟨i, hi, ?_⟩
  have hstays {i : Instr} (hi : ¬i.Ends) {r₁ : Run} (h : r.advance.Stays False (fun _ => False) r₁) :
      r₁.top.block = r.top.block ∧ r₁.callers = r.callers ∧ i.Leads r.top.position r₁.top.position :=
    ⟨h.block, h.callers, h.position.resolve_right id ▸ .next hi⟩
  cases i with
  | leave src =>
    obtain ⟨caller, callers, hcallers, hcases⟩ := Exec.leave_eq_ok hrest
    refine .inr (.inr ⟨caller, ?_⟩)
    rcases hcases with hstays | ⟨_, _, _, -, hstays⟩
    · exact ⟨hstays.callers ▸ hcallers, hstays.block, hstays.position.resolve_right id, src, rfl⟩
    · exact ⟨hstays.callers ▸ hcallers, hstays.block, hstays.position.resolve_right id, src, rfl⟩
  | call dst callee argc first =>
    rcases Exec.call_eq_ok hrest with ⟨c, args, r₁, -, h₁, rfl⟩ | ⟨-, h₁⟩
    · exact .inr (.inl ⟨id, id, r₁.top, h₁.block, h₁.position.resolve_right id,
        congrArg (r₁.top :: ·) h₁.callers⟩)
    · exact .inl (hstays id h₁)
  | newFunction dst j =>
    obtain ⟨B, -, ⟨-, r₁, t, h₁, h₂⟩ | ⟨-, rfl⟩⟩ := Exec.newFunction_eq_ok hrest
    · have hback : (r₁.withHeap (r₁.machine.heap.newClosure ⟨B, r.advance.top.environment, t⟩).2).Stays False
          (fun _ => False) r' := h₂
      exact .inl ⟨hback.block.trans h₁.block, hback.callers.trans h₁.callers,
        (hback.position.resolve_right id).trans (h₁.position.resolve_right id) ▸ .next id⟩
    · exact .inr (.inl ⟨id, id, r.advance.top, rfl, rfl, rfl⟩)
  | _ => exact .inl (leads_of_instr trivial hrest)

/-- What is left in the end has been waiting all the time. -/
theorem returns {a : Activation} {rest : List Activation} {n : Nat} (hn : Steps n r₁ r')
    (hrest : a :: rest <:+ r₁.callers) (hlast : r'.callers.length = rest.length)
    (hwait : ∀ k r₂, k < n → Steps k r₁ r₂ → rest.length < r₂.callers.length) :
    r'.top.block = a.block ∧ r'.top.position = a.position := by
  induction n generalizing r₁ with
  | zero =>
    have hlength := hrest.length_le
    cases hn
    rw [List.length_cons] at hlength
    omega
  | succ n ih =>
    obtain ⟨r₂, hstep, hn⟩ := hn
    have hwait' (k : Nat) (r₃ : Run) (hk : k < n) (h : Steps k r₂ r₃) : rest.length < r₃.callers.length :=
      hwait (k + 1) r₃ (Nat.succ_lt_succ hk) ⟨r₂, hstep, h⟩
    obtain ⟨i, -, ⟨-, hcallers, -⟩ | ⟨-, -, b, -, -, hcallers⟩ |
      ⟨caller, hcallers, hblock, hposition, -⟩⟩ := step_cases hstep
    · exact ih hn (hcallers ▸ hrest) hwait'
    · exact ih hn (hcallers ▸ hrest.trans (List.suffix_cons _ _)) hwait'
    · rw [hcallers] at hrest
      rcases List.suffix_cons_iff.mp hrest with heq | hsuffix
      · -- The block that has been waiting is the one that is gone back to.
        obtain ⟨rfl, rfl⟩ := List.cons.inj heq
        cases n with
        | zero =>
          cases hn
          exact ⟨hblock, hposition⟩
        | succ n =>
          exact absurd (hwait 1 r₂ (by omega) (.one hstep)) (Nat.lt_irrefl _)
      · exact ih hn hsuffix hwait'

/-- **Where the code goes on behind an instruction.** Unless it is a call, a single step leads there. -/
theorem Over.leads (h : r.Over r') : ∃ i, r.next? = some i ∧ r'.top.block = r.top.block ∧
    i.Leads r.top.position r'.top.position ∧ (i.Stays → Exec.step r = .ok none r') := by
  obtain ⟨hlast, n, ⟨r₁, hstep, hn⟩, hwait⟩ := h
  have hfirst (hpos : 0 < n) : r.callers.length < r₁.callers.length := hwait 1 r₁ Nat.one_pos hpos (.one hstep)
  obtain ⟨i, hi, ⟨hblock, hcallers, hleads⟩ | ⟨hends, hstays, a, hblock, hposition, hcallers⟩ |
    ⟨caller, hcallers, -⟩⟩ := step_cases hstep
  · refine ⟨i, hi, ?_⟩
    cases n with
    | zero =>
      cases hn
      exact ⟨hblock, hleads, fun _ => hstep⟩
    | succ n =>
      have hlt := hfirst n.succ_pos
      rw [hcallers] at hlt
      exact absurd hlt (Nat.lt_irrefl _)
  · refine ⟨i, hi, ?_⟩
    obtain ⟨hblock', hposition'⟩ := returns hn ⟨[], hcallers.symm⟩ hlast fun k r₂ hk h =>
      hwait (k + 1) r₂ k.succ_pos hk ⟨r₁, hstep, h⟩
    exact ⟨hblock'.trans hblock, hposition'.trans hposition ▸ .next hends, fun hi => absurd hi hstays⟩
  · rw [hcallers, List.length_cons] at hlast hfirst
    cases n with
    | zero =>
      cases hn
      omega
    | succ n =>
      have := hfirst n.succ_pos
      omega

/-- To load a constant. -/
theorem load_step {dst : Register} {j : UInt32} {k : Constant} (h : Exec.step r = .ok none r') (hi : r.next? = some (.loadConstant dst j))
    (hk : r.top.block.constant? j = some k) : r'.top.registers[dst.index]? = some k.value := by
  obtain ⟨_, hi', hload⟩ := Exec.step_eq_ok h
  cases hi.symm.trans hi'
  obtain ⟨w, r₁, hconstant, hwrite⟩ := Exec.bind_eq_ok hload
  have hconstant : w = k.value ∧ r₁ = r.advance := by
    simp only [Exec.constant, show r.advance.top.block = r.top.block from rfl, hk] at hconstant
    cases hconstant
    exact ⟨rfl, rfl⟩
  obtain ⟨rfl, rfl⟩ := hconstant
  rw [Exec.write] at hwrite
  split at hwrite
  next hlt =>
    cases hwrite
    exact Array.getElem?_setIfInBounds_self_of_lt hlt
  next => cases hwrite

/-- To jump does not change the registers. -/
theorem Over.registers_of_jump {t : Int32} (h : r.Over r') (hi : r.next? = some (.jump t)) :
    r'.top.registers = r.top.registers := by
  obtain ⟨_, hi', -, -, hstep⟩ := h.leads
  cases hi.symm.trans hi'
  obtain ⟨_, hi', h⟩ := Exec.step_eq_ok (hstep trivial)
  cases hi.symm.trans hi'
  simp only [Exec.instr, Exec.jump] at h
  split at h
  next =>
    cases h
    rfl
  next => cases h

/-- Behind an instruction that makes it known the register holds the unit value. -/
theorem Over.unit_of_yields {v : Register} {known : Prop} {i : Instr} (h : r.Over r') (hi : r.next? = some i)
    (hy : i.Yields r.top.block v known) (hknown : known → r.top.registers[v.index]? = some .unit) :
    r'.top.registers[v.index]? = some .unit := by
  obtain ⟨_, hi', -, -, hstep⟩ := h.leads
  cases hi.symm.trans hi'
  cases i with
  | loadConstant dst c =>
    obtain ⟨rfl, hc⟩ := hy
    exact load_step (hstep trivial) hi hc
  | popScope =>
    obtain ⟨_, hi', h⟩ := Exec.step_eq_ok (hstep trivial)
    cases hi.symm.trans hi'
    obtain ⟨outer, rfl⟩ := popScope_eq_ok h
    exact hknown hy
  | jump t => exact h.registers_of_jump hi ▸ hknown hy
  | _ => exact hy.elim

end Run

/-! ## Sites -/

/-- The code of a declaration in a block: where the declaration is and where it leaves its value, the
builders before and after it has been lowered, and the last builder of the block. -/
structure Site where
  place : Place
  declaration : Decl
  register : Register
  before : Builder
  after : Builder
  last : Builder

namespace Site

/-- The code of the declaration is in the finished block. The labels of the loop around, if there is one, are
there already. -/
structure Emitted (s : Site) : Prop where
  code : Lower.decl s.place s.declaration s.register s.before = .ok () s.after
  within : s.after.Before s.last
  labels : ∀ l ∈ s.place.labels, l.number < s.before.labels.size
  fits : s.last.finish.Fits

variable {s : Site} {r r' : Run}

/-- The position of the first instruction. -/
def start (s : Site) : Nat := s.before.items.size

/-- The position behind the last instruction. -/
def stop (s : Site) : Nat := s.after.items.size

/-- At the position there is a jump to a label of the loop around. -/
def JumpsOut (s : Site) (p : Nat) : Prop :=
  ∃ x l, s.last.items[p]? = some x ∧ x.label = some l ∧ l ∈ s.place.labels

/-- Control falls through the end of the declaration: from an instruction of its code, that is no jump of the
loop around, the run goes on behind it. -/
structure Falls (s : Site) (r r' : Run) : Prop where
  block : r.top.block = s.last.finish
  start : s.start ≤ r.top.position
  stop : r.top.position < s.stop
  stays : ¬s.JumpsOut r.top.position
  onward : r.Over r'
  behind : r'.top.position = s.stop

/-- The states in which the code of the declaration is executed from its beginning on, up to its end. -/
inductive Executing (s : Site) : Run → Prop
  | start {r : Run} (hblock : r.top.block = s.last.finish) (hstart : r.top.position = s.start) :
      Executing s r
  | step {r r' : Run} (h : Executing s r) (hstop : r.top.position < s.stop)
      (hstays : ¬s.JumpsOut r.top.position) (hover : r.Over r') : Executing s r'

/-- What is looked at when the code of the declaration is emitted. -/
def part (s : Site) (quiet : Prop) : Part :=
  ⟨s.last, s.register, s.before.items.size, s.before.labels.size, quiet⟩

/-- The labels of the loop around, about which nothing is known. -/
def loops (s : Site) : List (Label × Prop) := s.place.labels.map (·, False)

theorem not_mem_loops {p : Nat} (h : ¬s.JumpsOut p) (x : Item) (l : Label)
    (hx : s.last.items[p]? = some x) (hl : x.label = some l) : l ∉ s.loops.map Prod.fst := by
  have hlabels : s.loops.map Prod.fst = s.place.labels := by
    rw [loops, List.map_map]
    exact List.map_id _
  exact fun hmem => h ⟨x, l, hx, hl, hlabels ▸ hmem⟩

/-- What is known of the code of a declaration that is emitted. -/
theorem Emitted.ready (h : s.Emitted) (quiet known : Prop)
    (hquiet : quiet → known → s.declaration.Valueless) (hknown : known → s.declaration.Voids) :
    ∃ κ, s.after.Ready (s.part quiet) s.loops known κ := by
  have hloops : Lower.Loops s.place s.loops := fun l hl => List.mem_map_of_mem hl
  have hdecl := Lower.knows_decl (C := s.part quiet) s.declaration hloops hquiet
    fun hk => ⟨rfl, hknown hk⟩
  refine (hdecl h.code).2 h.within.block h.fits .none (Builder.ready_none rfl rfl fun e he => ?_)
  obtain ⟨l, hl, rfl⟩ := List.mem_map.mp he
  exact ⟨h.labels l hl, id⟩

/-- One instruction of the code. -/
theorem leads {quiet known : Prop} {κ : Knowledge} (hκ : s.after.Ready (s.part quiet) s.loops known κ)
    (hs : s.Emitted) (hblock : r.top.block = s.last.finish) (hstart : s.start ≤ r.top.position)
    (hstop : r.top.position < s.stop) (hstays : ¬s.JumpsOut r.top.position) (hover : r.Over r') :
    r'.top.block = s.last.finish ∧ s.start ≤ r'.top.position ∧ r'.top.position ≤ s.stop ∧
      (κ.position r'.top.position →
        (κ.position r.top.position → r.top.registers[s.register.index]? = some .unit) →
        r'.top.registers[s.register.index]? = some .unit) := by
  obtain ⟨i, hi, hsame, hleads, -⟩ := hover.leads
  have hcode : s.last.finish.code[r.top.position]? = some i := hblock ▸ hi
  obtain ⟨hle, hlt, hyields⟩ := hκ.edge hs.within hs.fits hstart hstop hcode (not_mem_loops hstays) hleads
  exact ⟨hsame.trans hblock, hle, hlt, fun hknown hbefore =>
    hover.unit_of_yields hi (hblock ▸ hyields hknown) hbefore⟩

/-- **Code without a value**: however its end is reached, the register holds the unit value. -/
theorem Falls.unit (h : s.Falls r r') (hs : s.Emitted) (hd : s.declaration.Valueless) :
    r'.top.registers[s.register.index]? = some .unit := by
  obtain ⟨κ, hκ⟩ := hs.ready True True (fun _ _ => hd) fun _ => hd.voids
  obtain ⟨-, -, -, hunit⟩ := leads hκ hs h.block h.start h.stop h.stays h.onward
  refine hunit (h.behind ▸ hκ.current trivial) fun hknown => ?_
  -- Nothing is known but at the end.
  exact absurd ((hκ.quiet trivial).1 _ hknown) (Nat.ne_of_lt h.stop)

/-- **Code that completes with the unit value**, as its form tells: if it is executed from its beginning, the
register holds the unit value at its end. -/
theorem Executing.unit (h : s.Executing r) (hs : s.Emitted) (hd : s.declaration.Voids)
    (hstop : r.top.position = s.stop) : r.top.registers[s.register.index]? = some .unit := by
  obtain ⟨κ, hκ⟩ := hs.ready False True (fun h _ => h.elim) fun _ => hd
  have hknown {r : Run} (h : s.Executing r) : r.top.block = s.last.finish ∧ s.start ≤ r.top.position ∧
      (κ.position r.top.position → r.top.registers[s.register.index]? = some .unit) := by
    induction h with
    | start hblock hstart =>
      exact ⟨hblock, Nat.le_of_eq hstart.symm, fun hknown =>
        absurd (show κ.position s.start from hstart ▸ hknown) hκ.start⟩
    | step _ hlt hstays hover ih =>
      obtain ⟨hblock, hstart, hbefore⟩ := ih
      obtain ⟨hblock', hstart', -, hunit⟩ := leads hκ hs hblock hstart hlt hstays hover
      exact ⟨hblock', hstart', fun hknown => hunit hknown hbefore⟩
  exact (hknown h).2.2 (hstop ▸ hκ.current trivial)

end Site

/-! ## Conditions -/

namespace Lower

open Builder

variable {b b' F : Builder} {p q : Nat} {dst : Register}

/-- Code without jumps of its own to elsewhere leads to its positions, or to its end. -/
theorem leads_inside {α : Type} {x : Lower α} {a : α} {b b' F : Builder} {i : Instr} {p q : Nat} {k : Prop}
    (hx : ∀ C, Lower.Knows C [] [] False k x) (h : x b = .ok a b') (hF : b'.Before F)
    (hfits : F.finish.Fits) (hp : b.items.size ≤ p) (hlt : p < b'.items.size)
    (hi : F.finish.code[p]? = some i) (hleads : i.Leads p q) : b.items.size ≤ q ∧ q ≤ b'.items.size := by
  let C : Part := ⟨F, ⟨0⟩, b.items.size, b.labels.size, False⟩
  obtain ⟨κ, hκ⟩ := (hx C h).2 hF.block hfits .none (Builder.ready_none rfl rfl nofun)
  obtain ⟨hle, hle', -⟩ := hκ.edge (C := C) hF hfits hp hlt hi (fun _ _ _ _ => List.not_mem_nil) hleads
  exact ⟨hle, hle'⟩

/-- To bind a label does not make a new one. -/
theorem size_labels_bind {l : Label} (h : Lower.bind l b = .ok () b') : b'.labels.size = b.labels.size := by
  cases h
  exact Array.size_setIfInBounds

/-- The parts of the code of an `if`: the builders around the condition, the consequent and the alternate, and
what is in between. -/
structure Condition (p : Place) (c : Expr) (s : Stmt) (alternate : Lower Unit) (dst : Register)
    (b b' F : Builder) : Type where
  test : Register
  (b₁ b₂ b₃ b₄ b₅ b₆ : Builder)
  condition : expr p.implicit c test b₁ = .ok () b₂
  consequent : stmt p s dst b₃ = .ok () b₄
  otherwise : alternate b₅ = .ok () b₆
  before : b₂.Before F ∧ b₄.Before F ∧ b₆.Before F
  branch : ∃ t : Int32, t.toInt = (b₄.items.size + 1 : Nat) ∧
    F.finish.code[b₂.items.size]? = some (.jumpIfFalse test t)
  jump : ∃ t, F.finish.code[b₄.items.size]? = some (.jump t)
  items : b₁.items.size = b.items.size ∧ b₂.items.size + 1 = b₃.items.size ∧
    b₄.items.size + 1 = b₅.items.size ∧ b₆.items.size = b'.items.size
  labels : b.labels.size ≤ b₃.labels.size ∧ b.labels.size ≤ b₅.labels.size

/-- The code of an `if` has these parts. -/
theorem condition_spec {p : Place} {c : Expr} {s : Stmt} {alternate : Lower Unit} (halternate : Tame alternate)
    (h : (do
      let r ← allocate
      expr p.implicit c r
      let otherwise ← newLabel
      let done ← newLabel
      jumpIfFalse r otherwise
      stmt p s dst
      jump done
      Lower.bind otherwise
      alternate
      Lower.bind done) b = .ok () b') (hF : b'.Before F) (hfits : F.finish.Fits) :
    Nonempty (Condition p c s alternate dst b b' F) := by
  obtain ⟨r, b₁, h₁, h⟩ := bind_eq_ok h
  obtain ⟨_, b₂, h₂, h⟩ := bind_eq_ok h
  obtain ⟨otherwise, b₃, h₃, h⟩ := bind_eq_ok h
  obtain ⟨done, b₄, h₄, h⟩ := bind_eq_ok h
  obtain ⟨_, b₅, h₅, h⟩ := bind_eq_ok h
  obtain ⟨_, b₆, h₆, h⟩ := bind_eq_ok h
  obtain ⟨_, b₇, h₇, h⟩ := bind_eq_ok h
  obtain ⟨_, b₈, h₈, h⟩ := bind_eq_ok h
  obtain ⟨_, b₉, h₉, h₁₀⟩ := bind_eq_ok h
  have hx₁ := Tame.extends (fun _ _ => Safe.allocate) h₁
  have hx₂ := Tame.extends (fun _ _ => safe_expr c r) h₂
  have hx₃ := newLabel_extends h₃
  have hx₄ := newLabel_extends h₄
  have hx₅ := Tame.extends (fun _ _ => Safe.jumpIfFalse r otherwise) h₅
  have hx₆ := Tame.extends (fun _ _ => safe_stmt s p dst) h₆
  have hx₇ := Tame.extends (fun _ _ => Safe.jump done) h₇
  have hx₉ := halternate.extends h₉
  obtain ⟨hotherwise₃, -⟩ := newLabel_unbound h₃
  obtain ⟨hdone₄, hnumber₄⟩ := newLabel_unbound h₄
  have hne : otherwise.number ≠ done.number := by
    have := hotherwise₃.lt
    omega
  have hotherwise := hx₇.unbound (hx₆.unbound (hx₅.unbound (hx₄.unbound hotherwise₃)))
  have hdone := hx₉.unbound (bind_unbound h₈ (hx₇.unbound (hx₆.unbound (hx₅.unbound hdone₄))) hne)
  obtain ⟨hF₉, hatDone, hitems₁₀, -⟩ := bind_spec h₁₀ hdone hF hfits
  obtain ⟨hF₇, hat, hitems₈, -⟩ := bind_spec h₈ hotherwise (hx₉.before.trans hF₉) hfits
  obtain ⟨hF₆, ⟨t₇, -, hcode₇⟩, hsize₇, -⟩ := jump_spec h₇ hF₇ hatDone
  obtain ⟨hF₄, ⟨t₅, ht₅, hcode₅⟩, hsize₅, -⟩ := jumpIfFalse_spec h₅ (hx₆.before.trans hF₆) hat
  obtain ⟨hF₃, hitems₄, -⟩ := newLabel_spec h₄ hF₄
  obtain ⟨hF₂, hitems₃, -⟩ := newLabel_spec h₃ hF₃
  obtain ⟨-, -, -, -, -, hitems₁⟩ := allocate_spec h₁ (hx₂.before.trans hF₂)
  rw [hitems₄, hitems₃] at hcode₅ hsize₅
  have hlabels₅ := (((hx₁.size.trans hx₂.size).trans hx₃.size).trans hx₄.size).trans hx₅.size
  exact ⟨r, b₁, b₂, b₅, b₆, b₈, b₉, h₂, h₆, h₉, ⟨hF₂, hF₆, hF₉⟩, ⟨t₅, hsize₇ ▸ ht₅, hcode₅⟩, ⟨t₇, hcode₇⟩,
    ⟨congrArg Array.size hitems₁, hsize₅.symm, by rw [hitems₈, hsize₇], (congrArg Array.size hitems₁₀).symm⟩,
    ⟨hlabels₅, size_labels_bind h₈ ▸ (hlabels₅.trans hx₆.size).trans hx₇.size⟩⟩

end Lower

namespace Site

variable {s : Site} {r r' : Run}

/-- The parts of an `if` without `else`: behind the code of the consequent, which is a site of its own, there
are a jump to the end and the instruction that loads the unit value. Nothing but these two leads to the
end. -/
theorem Emitted.consequent {c : Expr} {t : Stmt} {span : Span} (hs : s.Emitted)
    (hd : s.declaration = .stmt (.cond c t none span)) : ∃ y : Site, y.Emitted ∧
      y.declaration = .stmt t ∧ y.place = s.place ∧ y.register = s.register ∧ y.last = s.last ∧
      s.start ≤ y.start ∧ y.stop + 2 = s.stop ∧
      (∃ u, s.last.finish.code[y.stop]? = some (.jump u)) ∧
      (∃ j, s.last.finish.code[y.stop + 1]? = some (.loadConstant s.register j) ∧
        s.last.finish.constant? j = some .unit) ∧
      ∀ p q i, s.start ≤ p → p < y.start → s.last.finish.code[p]? = some i → i.Leads p q →
        q < s.stop := by
  obtain ⟨place, d, dst, b, b', F⟩ := s
  obtain ⟨h, hF, hlabels, hfits⟩ := hs
  obtain rfl : d = _ := hd
  dsimp only [start, stop] at *
  rw [Lower.decl, Lower.stmt] at h
  obtain ⟨⟨test, b₁, b₂, b₃, b₄, b₅, b₆, hcondition, hconsequent, hload, ⟨hF₂, hF₄, hF₆⟩, ⟨u, hu, hbranch⟩,
    hjump, ⟨hsize₁, hsize₃, hsize₅, hsize₆⟩, ⟨hlabels₃, -⟩⟩⟩ :=
    Lower.condition_spec (fun _ _ => .loadUnit dst) h hF hfits
  obtain ⟨-, ⟨j, hj, hcode⟩, hsize, -⟩ := Lower.load_spec hload hF₆ hfits
  have hle₂ := (Lower.Tame.extends (fun _ _ => Lower.safe_expr c test) hcondition).before.size_le
  have hle₄ := (Lower.Tame.extends (fun _ _ => Lower.safe_stmt t place dst) hconsequent).before.size_le
  refine ⟨⟨place, .stmt t, dst, b₃, b₄, F⟩, ⟨by rw [Lower.decl]; exact hconsequent, hF₄, fun l hl =>
    Nat.lt_of_lt_of_le (hlabels l hl) hlabels₃, hfits⟩, rfl, rfl, rfl, rfl, ?_, ?_, hjump,
    ⟨j, hsize₅ ▸ hcode, hj⟩, fun p q i hp hlt hi hleads => ?_⟩
  · dsimp only [start]
    omega
  · dsimp only [stop]
    omega
  · dsimp only [start, stop] at *
    rcases Nat.lt_or_ge p b₂.items.size with hlt₂ | hge
    · have := (Lower.leads_inside (fun C => Lower.Knows.local fun hK => hK.expr c test) hcondition hF₂ hfits
        (hsize₁ ▸ hp) hlt₂ hi hleads).2
      omega
    · -- The test of the condition.
      obtain rfl : p = b₂.items.size := by omega
      cases hbranch.symm.trans hi
      cases hleads with
      | next => omega
      | target ht =>
        obtain rfl : u = _ := Option.some.inj ht
        omega

end Site

end Reified
