import Mathlib.Logic.Function.Basic
import Reified.Proofs.Eval.Plain
import Reified.Proofs.Eval.Program
import Reified.Proofs.Lowering.Function
import Reified.Proofs.Machine.Heap

/-!
# The heap of a machine shows a store

A run keeps everything that the evaluation of the same program keeps, in the same cells; only the
environments have other numbers, because a run also makes environments in which the signatures of
functions are evaluated. Functions have become closures of their code.

## Main definitions

* `Function.Compiled` — the closure of a function
* `Store.Holds` — a value that refers to no function out of the store
* `Shows` — a heap shows a store, given where the environments of the store are
* `Moves` — the environments of a store stay where they are

## Main results

* `Shows.lookup`, `Shows.text` — a heap that shows a store gives the same answers
* `Shows.define`, `Shows.child`, `Shows.newFunction`, … — and goes on to show it
-/

namespace Reified

/-! ## Functions and values -/

/-- The closure of a function has the code of the function, and its environment is the one that the
environment of the function has become. -/
structure Function.Compiled (ρ : Nat → Nat) (f : Function) (c : Closure) : Prop where
  environment : c.environment = ρ f.environment
  signature : ∃ params result, c.signature = .fn params result 0
  fits : c.block.Fits
  head : f.head.Plain
  body : Decl.PlainList f.body
  code : ∃ b b', Lower.functionBlock false f.head
    (fun p dst => Lower.stmt p (.block f.body default) dst) b = .ok c.block b'

/-- If the value is a function, the store has it. -/
def Store.Holds (s : Store) : Value → Prop
  | .function c => c < s.functions.size
  | _ => True

/-- A heap shows a store, the environments of which it has under other numbers. -/
structure Shows (ρ : Nat → Nat) (s : Store) (h : Heap) : Prop where
  lists : h.lists = s.heap.lists
  objects : h.objects = s.heap.objects
  holes : h.holes = s.heap.holes
  closures : h.closures.size = s.functions.size
  compiled : ∀ {c : Nat} {f : Function}, s.functions[c]? = some f → f.Compiled ρ (h.closure c)
  inside : ∀ {c : Nat} {f : Function}, s.functions[c]? = some f →
    f.environment < s.heap.environments.size
  place : ∀ {e : Nat}, e < s.heap.environments.size → ρ e < h.environments.size
  values : ∀ {e : Nat}, e < s.heap.environments.size →
    (h.environment (ρ e)).values = (s.heap.environment e).values
  parent : ∀ {e : Nat}, e < s.heap.environments.size →
    h.parent? (ρ e) = (s.heap.parent? e).map ρ
  outer : ∀ {e o : Nat}, e < s.heap.environments.size → s.heap.parent? e = some o → o < e
  increasing : ∀ {e e' : Nat}, e < e' → e' < s.heap.environments.size → ρ e < ρ e'
  holdsItem : ∀ {c : Nat}, ∀ v ∈ s.heap.list c, s.Holds v
  holdsField : ∀ {c : Nat} {name : String} {v : Value},
    Fields.get? name (s.heap.object c) = some v → s.Holds v
  holdsName : ∀ {e : Nat} {name : String} {v : Value},
    Fields.get? name (s.heap.environment e).values = some v → s.Holds v

/-- A store has grown, and the environments that it had have the same numbers as before. -/
structure Moves (ρ : Nat → Nat) (s : Store) (ρ' : Nat → Nat) (s' : Store) : Prop where
  size : s.heap.environments.size ≤ s'.heap.environments.size
  functions : s.functions.size ≤ s'.functions.size
  same : ∀ {e : Nat}, e < s.heap.environments.size → ρ' e = ρ e
  parent : ∀ {e : Nat}, e < s.heap.environments.size → s'.heap.parent? e = s.heap.parent? e
  lists : ∀ c : Nat, (s.heap.list c).size ≤ (s'.heap.list c).size

variable {ρ ρ₁ ρ' : Nat → Nat} {s s₁ s' : Store} {h : Heap} {v : Value} {e : Nat} {name : String}

theorem Moves.refl (ρ : Nat → Nat) (s : Store) : Moves ρ s ρ s :=
  ⟨Nat.le_refl _, Nat.le_refl _, fun _ => rfl, fun _ => rfl, fun _ => Nat.le_refl _⟩

theorem Moves.trans (hm : Moves ρ s ρ₁ s₁) (hm' : Moves ρ₁ s₁ ρ' s') : Moves ρ s ρ' s' :=
  ⟨Nat.le_trans hm.size hm'.size, Nat.le_trans hm.functions hm'.functions,
    fun he => (hm'.same (Nat.lt_of_lt_of_le he hm.size)).trans (hm.same he),
    fun he => (hm'.parent (Nat.lt_of_lt_of_le he hm.size)).trans (hm.parent he),
    fun c => Nat.le_trans (hm.lists c) (hm'.lists c)⟩

theorem Store.Holds.mono (hv : s.Holds v) (hs : s.functions.size ≤ s'.functions.size) :
    s'.Holds v := by
  cases v with
  | function c => exact Nat.lt_of_lt_of_le hv hs
  | _ => trivial

theorem Moves.holds (hm : Moves ρ s ρ' s') (hv : s.Holds v) : s'.Holds v :=
  hv.mono hm.functions

/-- The same with the parts of a store that functions refer to. -/
theorem Function.Compiled.congr {f : Function} {c : Closure} (hf : f.Compiled ρ c)
    (hρ : ρ' f.environment = ρ f.environment) : f.Compiled ρ' c :=
  ⟨hf.environment.trans hρ.symm, hf.signature, hf.fits, hf.head, hf.body, hf.code⟩

/-- What a call and a message look at. -/
theorem Function.Compiled.block_head {f : Function} {c : Closure} (hf : f.Compiled ρ c) :
    c.block.name = f.head.name ∧
      c.block.parameterCount = .ofNat f.head.params.length := by
  obtain ⟨b, b', hcode⟩ := hf.code
  obtain ⟨types, result, implicit, d, hs, hd, hB⟩ := Lower.functionBlock_spec hcode
  obtain ⟨⟨types', result', hs', hlength⟩, -⟩ := hf.head
  rw [hs] at hs'
  cases hs'
  obtain ⟨hname, hcount, -⟩ := Lower.functionCode_head (fun r _ _ => Lower.safe_stmt _ _ r) hd
  rw [hB, ← hlength]
  exact ⟨hname, hcount⟩

namespace Shows

/-! ## The same answers -/

theorem list (hs : Shows ρ s h) (c : Nat) : h.list c = s.heap.list c := by
  rw [Heap.list, Heap.list, hs.lists]

theorem object (hs : Shows ρ s h) (c : Nat) : h.object c = s.heap.object c := by
  rw [Heap.object, Heap.object, hs.objects]

theorem field? (hs : Shows ρ s h) (v : Value) (name : String) :
    Exec.field? h v name = Exec.field? s.heap v name := by
  cases v with
  | object c =>
    show Fields.get? name (h.object c) = Fields.get? name (s.heap.object c)
    rw [hs.object]
  | _ => rfl

theorem holds_field {w : Value} (hs : Shows ρ s h) (hw : Exec.field? s.heap v name = some w) :
    s.Holds w := by
  cases v with
  | object c => exact hs.holdsField hw
  | _ => cases hw

theorem lookup (hs : Shows ρ s h) (he : e < s.heap.environments.size) (name : String) :
    h.lookup (ρ e) name = s.heap.lookup e name := by
  induction e using Nat.strongRecOn with
  | ind e ih =>
    rw [Heap.lookup, Heap.lookup, hs.values he, hs.parent he]
    cases Fields.get? name (s.heap.environment e).values with
    | some v => rfl
    | none =>
      cases ho : s.heap.parent? e with
      | none => rfl
      | some o =>
        have hlt := hs.outer he ho
        have hρ := hs.increasing hlt he
        simp only [Option.map_some, if_pos hlt, if_pos hρ]
        exact ih o hlt (Nat.lt_trans hlt he)

theorem holds_lookup (hs : Shows ρ s h) (hv : s.heap.lookup e name = some v) : s.Holds v := by
  induction e using Nat.strongRecOn with
  | ind e ih =>
    rw [Heap.lookup] at hv
    split at hv
    next w hw =>
      cases hv
      exact hs.holdsName hw
    next =>
      split at hv
      next o ho =>
        split at hv
        next hlt => exact ih o hlt hv
        next => cases hv
      next => cases hv

theorem closure_name (hs : Shows ρ s h) (c : Nat) :
    (h.closure c).block.name = (s.shown.closure c).block.name := by
  simp only [Heap.closure, Store.shown, Array.getD_eq_getD_getElem?, Array.getElem?_map]
  rcases hf : s.functions[c]? with _ | f
  · rw [Array.getElem?_eq_none]
    · rfl
    · rw [hs.closures]
      exact Array.getElem?_eq_none_iff.1 hf
  · have hname := (hs.compiled hf).block_head.1
    simp only [Heap.closure, Array.getD_eq_getD_getElem?] at hname
    exact hname

theorem textWithin (hs : Shows ρ s h) (n : Nat) (v : Value) :
    h.textWithin n v = s.shown.textWithin n v := by
  have hlist : ∀ c, h.list c = s.shown.list c := hs.list
  have hobject : ∀ c, h.object c = s.shown.object c := hs.object
  induction n generalizing v with
  | zero =>
    cases v with
    | function c => simp only [Heap.textWithin, hs.closure_name]
    | _ => simp only [Heap.textWithin]
  | succ n ih =>
    have ih' : h.textWithin n = s.shown.textWithin n := funext ih
    cases v with
    | function c => simp only [Heap.textWithin, hs.closure_name]
    | array c => simp only [Heap.textWithin, hlist, ih']
    | tuple c => simp only [Heap.textWithin, hlist, ih']
    | object c => simp only [Heap.textWithin, hobject, ih']
    | _ => simp only [Heap.textWithin]

theorem text (hs : Shows ρ s h) (v : Value) : h.text v = s.shown.text v := by
  have hdepth : h.depth = s.shown.depth := by
    show h.lists.size + h.objects.size + 1 = s.heap.lists.size + s.heap.objects.size + 1
    rw [hs.lists, hs.objects]
  rw [Heap.text, Heap.text, hdepth, hs.textWithin]

theorem apply (hs : Shows ρ s h) (op : Operator) (a b : Value) :
    op.apply h a b = op.apply s.shown a b := by
  unfold Operator.apply
  cases op with
  | notEqual => rfl
  | _ => simp only [hs.text]

/-! ## Changes of both -/

/-- An environment that the store does not have does no harm. -/
theorem newEnvironment (hs : Shows ρ s h) (parent : Option Nat) :
    Shows ρ s (h.newEnvironment parent).2 := by
  have hold : ∀ {e}, e < s.heap.environments.size →
      (h.newEnvironment parent).2.environment (ρ e) = h.environment (ρ e) :=
    fun he => Heap.environment_newEnvironment_of_lt (hs.place he)
  refine ⟨hs.lists, hs.objects, hs.holes, hs.closures, hs.compiled, hs.inside, fun he => ?_,
    fun he => ?_, fun he => ?_, hs.outer, hs.increasing, hs.holdsItem, hs.holdsField, hs.holdsName⟩
  · rw [Heap.size_newEnvironment]
    exact Nat.lt_succ_of_lt (hs.place he)
  · rw [hold he, hs.values he]
  · rw [Heap.parent?, hold he]
    exact hs.parent he

theorem injective (hs : Shows ρ s h) {e' : Nat} (he : e < s.heap.environments.size)
    (he' : e' < s.heap.environments.size) (heq : ρ e = ρ e') : e = e' := by
  rcases Nat.lt_trichotomy e e' with hlt | heq' | hlt
  · have := hs.increasing hlt he'
    omega
  · exact heq'
  · have := hs.increasing hlt he
    omega

theorem define (hs : Shows ρ s h) (he : e < s.heap.environments.size) (hv : s.Holds v)
    (name : String) :
    Shows ρ ⟨s.heap.define e name v, s.functions⟩ (h.define (ρ e) name v) := by
  refine ⟨hs.lists, hs.objects, hs.holes, hs.closures, hs.compiled, fun hf => ?_, fun he' => ?_,
    fun {e'} he' => ?_, fun he' => ?_, fun he' ho => ?_, fun hlt he' => ?_, hs.holdsItem,
    hs.holdsField, fun {e'} {x} {w} hw => ?_⟩
  · rw [Heap.size_define]
    exact hs.inside hf
  · rw [Heap.size_define] at he' ⊢
    exact hs.place he'
  · rw [Heap.size_define] at he'
    rw [Heap.environment_define, Heap.environment_define]
    by_cases heq : e = e'
    · rw [if_pos ⟨congrArg ρ heq, hs.place he'⟩, if_pos ⟨heq, he'⟩]
      exact congrArg (Fields.insert name v) (hs.values he')
    · rw [if_neg fun hh => heq (hs.injective he he' hh.1), if_neg fun hh => heq hh.1, hs.values he']
  · rw [Heap.size_define] at he'
    rw [Heap.parent?_define, Heap.parent?_define]
    exact hs.parent he'
  · rw [Heap.size_define] at he'
    rw [Heap.parent?_define] at ho
    exact hs.outer he' ho
  · rw [Heap.size_define] at he'
    exact hs.increasing hlt he'
  · dsimp only at hw
    rw [Heap.environment_define] at hw
    split at hw
    · by_cases hx : x = name
      · rw [hx, Fields.get?_insert_self] at hw
        cases hw
        exact hv
      · rw [Fields.get?_insert_of_ne hx] at hw
        exact hs.holdsName hw
    · exact hs.holdsName hw

theorem moves_define (ρ : Nat → Nat) (s : Store) (e : Nat) (name : String) (v : Value) :
    Moves ρ s ρ ⟨s.heap.define e name v, s.functions⟩ :=
  ⟨Nat.le_of_eq Heap.size_define.symm, Nat.le_refl _, fun _ => rfl, fun _ => Heap.parent?_define,
    fun _ => Nat.le_refl _⟩

/-- Both have a new environment. -/
theorem child (hs : Shows ρ s h) (he : e < s.heap.environments.size) :
    Shows (Function.update ρ s.heap.environments.size h.environments.size)
      ⟨(s.heap.newEnvironment (some e)).2, s.functions⟩ (h.newEnvironment (some (ρ e))).2 := by
  have hself : Function.update ρ s.heap.environments.size h.environments.size
      s.heap.environments.size = h.environments.size := Function.update_self ..
  have hold : ∀ {e'}, e' < s.heap.environments.size →
      Function.update ρ s.heap.environments.size h.environments.size e' = ρ e' :=
    fun he' => Function.update_of_ne (Nat.ne_of_lt he') ..
  refine ⟨hs.lists, hs.objects, hs.holes, hs.closures, fun hf => ?_, fun hf => ?_,
    fun {e'} he' => ?_, fun {e'} he' => ?_, fun {e'} he' => ?_, fun {e' o} he' ho => ?_,
    fun {e₁ e₂} hlt he' => ?_, hs.holdsItem, hs.holdsField, fun {e'} {x} {w} hw => ?_⟩
  · exact (hs.compiled hf).congr (hold (hs.inside hf))
  · rw [Heap.size_newEnvironment]
    exact Nat.lt_succ_of_lt (hs.inside hf)
  · rw [Heap.size_newEnvironment] at he' ⊢
    rcases Nat.lt_succ_iff_lt_or_eq.1 he' with hlt | heq
    · rw [hold hlt]
      exact Nat.lt_succ_of_lt (hs.place hlt)
    · rw [heq, hself]
      exact Nat.lt_succ_self _
  · rw [Heap.size_newEnvironment] at he'
    rcases Nat.lt_succ_iff_lt_or_eq.1 he' with hlt | heq
    · rw [hold hlt, Heap.environment_newEnvironment_of_lt (hs.place hlt),
        Heap.environment_newEnvironment_of_lt hlt, hs.values hlt]
    · rw [heq, hself, Heap.environment_newEnvironment_self, Heap.environment_newEnvironment_self]
  · rw [Heap.size_newEnvironment] at he'
    rw [Heap.parent?, Heap.parent?]
    rcases Nat.lt_succ_iff_lt_or_eq.1 he' with hlt | heq
    · rw [hold hlt, Heap.environment_newEnvironment_of_lt (hs.place hlt),
        Heap.environment_newEnvironment_of_lt hlt]
      have hparent := hs.parent hlt
      rw [Heap.parent?, Heap.parent?] at hparent
      rw [hparent]
      cases ho : (s.heap.environment e').parent with
      | none => rfl
      | some o =>
        have := hs.outer hlt ho
        rw [Option.map_some, Option.map_some, hold (Nat.lt_trans this hlt)]
    · rw [heq, hself, Heap.environment_newEnvironment_self, Heap.environment_newEnvironment_self,
        Option.map_some, hold he]
  · rw [Heap.size_newEnvironment] at he'
    rw [Heap.parent?] at ho
    rcases Nat.lt_succ_iff_lt_or_eq.1 he' with hlt | heq
    · rw [Heap.environment_newEnvironment_of_lt hlt] at ho
      exact hs.outer hlt ho
    · rw [heq, Heap.environment_newEnvironment_self] at ho
      cases ho
      exact heq ▸ he
  · rw [Heap.size_newEnvironment] at he'
    rcases Nat.lt_succ_iff_lt_or_eq.1 he' with hlt' | heq
    · rw [hold hlt', hold (Nat.lt_trans hlt hlt')]
      exact hs.increasing hlt hlt'
    · rw [heq] at hlt ⊢
      rw [hself, hold hlt]
      exact hs.place hlt
  · dsimp only at hw
    rcases Nat.lt_trichotomy e' s.heap.environments.size with hlt | heq | hgt
    · rw [Heap.environment_newEnvironment_of_lt hlt] at hw
      exact hs.holdsName hw
    · rw [heq, Heap.environment_newEnvironment_self] at hw
      cases hw
    · rw [Heap.environment, Array.getD_eq_getD_getElem?, Array.getElem?_eq_none] at hw
      · cases hw
      · rw [Heap.size_newEnvironment]
        exact hgt

theorem moves_child (ρ : Nat → Nat) (s : Store) (place parent : Nat) :
    Moves ρ s (Function.update ρ s.heap.environments.size place)
      ⟨(s.heap.newEnvironment (some parent)).2, s.functions⟩ := by
  refine ⟨?_, Nat.le_refl _, fun he => Function.update_of_ne (Nat.ne_of_lt he) .., fun he => ?_,
    fun _ => Nat.le_refl _⟩
  · rw [Heap.size_newEnvironment]
    exact Nat.le_succ _
  · rw [Heap.parent?, Heap.parent?, Heap.environment_newEnvironment_of_lt he]

/-- Both have changed in the same way, except for functions and environments. -/
theorem cells {h' : Heap} (hs : Shows ρ s h) (hlists : h'.lists = s'.heap.lists)
    (hobjects : h'.objects = s'.heap.objects) (hholes : h'.holes = s'.heap.holes)
    (hclosures : h'.closures = h.closures) (henvironments : h'.environments = h.environments)
    (hfunctions : s'.functions = s.functions)
    (henvironments' : s'.heap.environments = s.heap.environments)
    (hitem : ∀ c, ∀ v ∈ s'.heap.list c, s.Holds v)
    (hfield : ∀ c name v, Fields.get? name (s'.heap.object c) = some v → s.Holds v) :
    Shows ρ s' h' := by
  obtain ⟨⟨l, o, cl, x, envs⟩, fs⟩ := s
  obtain ⟨⟨l', o', cl', x', envs'⟩, fs'⟩ := s'
  obtain ⟨hl, ho, hcl, hx, henv⟩ := h
  obtain ⟨hl', ho', hcl', hx', henv'⟩ := h'
  cases hlists
  cases hobjects
  cases hholes
  cases hclosures
  cases henvironments
  cases hfunctions
  cases henvironments'
  exact ⟨rfl, rfl, rfl, hs.closures, hs.compiled, hs.inside, hs.place, hs.values, hs.parent,
    hs.outer, hs.increasing, fun {c} => hitem c, fun {c name v} => hfield c name v, hs.holdsName⟩

theorem moves_cells (ρ : Nat → Nat) (hfunctions : s'.functions = s.functions)
    (henvironments : s'.heap.environments = s.heap.environments)
    (hlists : ∀ c, (s.heap.list c).size ≤ (s'.heap.list c).size) : Moves ρ s ρ s' := by
  refine ⟨?_, ?_, fun _ => rfl, fun _ => ?_, hlists⟩
  · exact Nat.le_of_eq (congrArg Array.size henvironments.symm)
  · exact Nat.le_of_eq (congrArg Array.size hfunctions.symm)
  · rw [Heap.parent?, Heap.parent?, Heap.environment, Heap.environment, henvironments]

theorem newHole (hs : Shows ρ s h) (x : Hole) :
    Shows ρ ⟨(s.heap.newHole x).2, s.functions⟩ (h.newHole x).2 :=
  hs.cells hs.lists hs.objects (congrArg (Array.push · x) hs.holes) rfl rfl rfl rfl
    (fun _ => hs.holdsItem) (fun _ _ _ => hs.holdsField)

theorem pushList (hs : Shows ρ s h) {items : Array Value} (hitems : ∀ v ∈ items, s.Holds v) :
    Shows ρ ⟨{ s.heap with lists := s.heap.lists.push items }, s.functions⟩
      { h with lists := h.lists.push items } := by
  refine hs.cells (congrArg (Array.push · items) hs.lists) hs.objects hs.holes rfl rfl rfl rfl
    (fun c v hv => ?_) (fun _ _ _ => hs.holdsField)
  rcases Heap.mem_list_push hv with hv | hv
  · exact hs.holdsItem v hv
  · exact hitems v hv

theorem newObject (hs : Shows ρ s h) :
    Shows ρ ⟨(s.heap.newObject []).2, s.functions⟩ (h.newObject []).2 := by
  refine hs.cells hs.lists (congrArg (Array.push · []) hs.objects) hs.holes rfl rfl rfl rfl
    (fun _ => hs.holdsItem) (fun c name v hv => ?_)
  rcases Heap.get?_object_push hv with hv | hv
  · exact hs.holdsField hv
  · cases hv

theorem setItem (hs : Shows ρ s h) (hv : s.Holds v) (c i : Nat) :
    Shows ρ ⟨s.heap.setItem c i v, s.functions⟩ (h.setItem c i v) := by
  have hlists : (h.setItem c i v).lists = (s.heap.setItem c i v).lists := by
    rw [Heap.setItem, Heap.setItem, hs.lists]
  refine hs.cells hlists hs.objects hs.holes rfl rfl rfl rfl (fun c w hw => ?_)
    (fun _ _ _ => hs.holdsField)
  rcases Heap.mem_list_setItem hw with hw | rfl | rfl
  · exact hs.holdsItem w hw
  · trivial
  · exact hv

theorem setField (hs : Shows ρ s h) (hv : s.Holds v) (c : Nat) (name : String) :
    Shows ρ ⟨s.heap.setField c name v, s.functions⟩ (h.setField c name v) := by
  refine hs.cells hs.lists (congrArg (Array.modify · c _) hs.objects) hs.holes rfl rfl rfl rfl
    (fun _ => hs.holdsItem) (fun c x w hw => ?_)
  rcases Heap.get?_object_setField hw with hw | rfl
  · exact hs.holdsField hw
  · exact hv

/-- A function has been created. -/
theorem newFunction (hs : Shows ρ s h) {f : Function} {c : Closure} (hc : f.Compiled ρ c)
    (he : f.environment < s.heap.environments.size) :
    Shows ρ ⟨s.heap, s.functions.push f⟩ (h.newClosure c).2 := by
  have hmono : ∀ {v}, s.Holds v → Store.Holds ⟨s.heap, s.functions.push f⟩ v := fun hv =>
    hv.mono (by
      show _ ≤ (s.functions.push f).size
      rw [Array.size_push]
      exact Nat.le_succ _)
  refine ⟨hs.lists, hs.objects, hs.holes, ?_, fun {i g} hg => ?_, fun {i g} hg => ?_, hs.place,
    hs.values, hs.parent, hs.outer, hs.increasing, fun v hv => hmono (hs.holdsItem v hv),
    fun hv => hmono (hs.holdsField hv), fun hv => hmono (hs.holdsName hv)⟩
  · show (h.closures.push c).size = (s.functions.push f).size
    rw [Array.size_push, Array.size_push, hs.closures]
  · change (s.functions.push f)[i]? = some g at hg
    rw [Heap.closure, Heap.newClosure]
    dsimp only
    rw [Array.getD_eq_getD_getElem?, Array.getElem?_push, hs.closures]
    rw [Array.getElem?_push] at hg
    split at hg
    next heq =>
      cases hg
      rw [if_pos heq]
      exact hc
    next hne =>
      rw [if_neg hne]
      have := hs.compiled hg
      rw [Heap.closure, Array.getD_eq_getD_getElem?] at this
      exact this
  · change (s.functions.push f)[i]? = some g at hg
    rw [Array.getElem?_push] at hg
    split at hg
    next =>
      cases hg
      exact he
    next => exact hs.inside hg

theorem moves_newFunction (ρ : Nat → Nat) (s : Store) (f : Function) :
    Moves ρ s ρ ⟨s.heap, s.functions.push f⟩ := by
  refine ⟨Nat.le_refl _, ?_, fun _ => rfl, fun _ => rfl, fun _ => Nat.le_refl _⟩
  show _ ≤ (s.functions.push f).size
  rw [Array.size_push]
  exact Nat.le_succ _

end Shows

end Reified
