import Reified.Proofs.Isolation.Instructions

/-!
# Calls behind an older machine

A call, the creation of a function and the end of a block do behind an older machine what they do on a new one,
and so does every step. Whoever waits for the value of a block does so at a position where the register for the
value holds no cell under construction.

## Main definitions

* `Run.Stands` — what is known about a run between two steps
* `Run.Yields` — what is known when the value of a run is there, or not yet

## Main results

* `Exec.follows_call`, `Exec.follows_newFunction`, `Exec.follows_leave`
* `Exec.follows_step` — **every step is followed** behind an older machine
-/

namespace Reified

/-- What is known about a run that stands at a position of its block: which registers hold cells under construction
there, and how many frames are open. -/
structure Run.Stands (owners : Owners) (pending : Nat → List Nat) (depths : Nat → Depths) (base D : Nat) (r : Run) :
    Prop where
  fills : r.top.block.Fills pending
  balanced : r.top.block.Balanced depths
  nests : r.top.Nests
  deep : base + (depths r.top.position).frames ≤ D
  kept : r.Kept owners (pending r.top.position) base D

/-- What is known about a run between two steps. -/
def Run.Standing (r : Run) : Prop := ∃ owners pending depths base D, r.Stands owners pending depths base D

/-- What is known when the value of a run is there, or not yet. -/
def Run.Yields : Option Value → Run → Prop
  | none, r => r.Standing
  | some v, r => r.machine.Clean ∧ v.Within r.machine.extent ∧
      ∃ owners, r.machine.heap.Kept owners r.machine.table.size

/-! ## Entering a block -/

theorem Activation.enter_move (o : Extent) (B : Block) (p e : Nat) (args : Array Value) (resume : Resume) :
    enter B p (o.environment e) (args.map (Value.move o)) resume = (enter B p e args resume).move o := by
  simp only [enter, move, Array.map_append, Array.map_replicate, Array.size_map, Value.move]

theorem Registers.kept_enter {owners : Owners} {n : Extent} {args : Array Value}
    (hargs : ∀ v ∈ args, v.Settled n owners) (k count : Nat) :
    Registers.Kept owners k [] n (args ++ Array.replicate count .unit) := by
  have hsettled {i : Nat} {v : Value} (hv : (args ++ Array.replicate count Value.unit)[i]? = some v) :
      v.Settled n owners := by
    rcases Array.mem_append.mp (Array.mem_of_getElem? hv) with hv | hv
    · exact hargs v hv
    · obtain ⟨-, rfl⟩ := Array.mem_replicate.mp hv
      exact Value.settled_of_cell?_eq_none trivial rfl
  exact ⟨fun hv => (hsettled hv).within, fun hv _ => hsettled hv, fun _ hi => absurd hi List.not_mem_nil⟩

namespace Exec

variable {α β : Type} {m : Machine} {r r' : Run} {D base : Nat} {owners : Owners} {S : List Nat}
  {pending : Nat → List Nat} {depths : Nat → Depths} {v w : Value} {ss : List Scopes}

namespace Follows

variable {f : α → β} {P : α → Run → Prop} {x y : Exec α} {x' y' : Exec β}

/-- The same actions in another state. -/
theorem congr (hx : x r = y r') (hx' : x' (r.behind m) = y' (r'.behind m)) (h : Follows m r' y y' f P) :
    Follows m r x x' f P := by
  rw [Follows, hx, hx']
  exact h

/-- What is known about the action itself. -/
theorem and {Q : α → Run → Prop} (h : Follows m r x x' f P) (hQ : ∀ a r', x r = .ok a r' → Q a r') :
    Follows m r x x' f fun a r' => P a r' ∧ Q a r' := by
  unfold Follows at h ⊢
  cases hx : x r with
  | ok a r' =>
    rw [hx] at h
    exact ⟨h.1, h.2, hQ _ _ hx⟩
  | error e r' =>
    rw [hx] at h
    exact h

end Follows

/-- A settled value is written at the end of a call. -/
theorem follows_deliver (hr : r.Stands owners pending depths base D) {dst : Register}
    (hdst : dst.index ∉ pending r.top.position) (hv : v.Settled r.machine.extent owners)
    (hw : w = v.move m.extent) : Follows m r (write dst v) (write dst w) id fun _ r' => r'.Standing := by
  subst hw
  have hnests : Activation.Nests { r.top with registers := r.top.registers.setIfInBounds dst.index v } :=
    ⟨hr.nests.nested, hr.nests.signature⟩
  refine .write hr.kept.clean ⟨owners, pending, depths, base, D, hr.fills, hr.balanced, hnests, hr.deep, ?_⟩
  exact { hr.kept with top := hr.kept.top.set hdst hv }

/-- A new function is written at the end of a call. -/
theorem follows_deliverClosure (hr : r.Stands owners pending depths base D) {dst : Register}
    (hdst : dst.index ∉ pending r.top.position) {k : Closure}
    (hk : Table.Below r.machine.table.size k.signature) (hblock : k.block.Everywhere Block.IsFilling) :
    Follows m r (create dst (·.newClosure k)) (create dst (·.newClosure (k.move m.extent))) id
      fun _ r' => r'.Standing := by
  refine (Follows.onHeap (Heap.newClosure_behind k)).bind ?_
  rintro v r' ⟨rfl, rfl⟩
  have hsize : r.machine.heap.closures.size < (r.machine.heap.newClosure k).2.closures.size :=
    Nat.lt_of_lt_of_eq (Nat.lt_succ_self _) (Array.size_push _).symm
  have hkept := hr.kept.withHeap (hr.kept.heap.newClosure hk hblock) ⟨Nat.le_refl _, Nat.le_refl _, Nat.le_refl _,
    hsize.le, Nat.le_refl _, Nat.le_refl _⟩ fun _ _ => rfl
  have hr' : Run.Stands owners pending depths base D (r.withHeap (r.machine.heap.newClosure k).2) :=
    ⟨hr.fills, hr.balanced, hr.nests, hr.deep, hkept⟩
  exact follows_deliver hr' hdst (Value.settled_of_cell?_eq_none hsize rfl) rfl

/-- **A block is entered** from which the caller expects a value. -/
theorem follows_enter (hr : r.Stands owners pending depths base D) {B : Block} (hB : B.Everywhere Block.IsFilling)
    (hbalanced : B.Everywhere Block.IsBalanced) {p : Nat} (hp : p = 0 ∨ p = B.codeStart.toNat) (outer : Nat)
    {args : Array Value} (hargs : ∀ v ∈ args, v.Settled r.machine.extent owners) {resume : Resume}
    (hfree : ∀ dst, resume.dst? = some dst → dst.index ∉ pending r.top.position)
    (hsignature : ∀ dst B', resume = .signature dst B' → B'.Everywhere Block.IsFilling) :
    Follows m r (onHeap (·.newEnvironment (some outer)) >>= fun e => enter (.enter B p e args resume))
      (onHeap (·.newEnvironment (some (m.extent.environment outer))) >>= fun e =>
        enter (.enter B p e (args.map (Value.move m.extent)) resume)) id fun _ r' => r'.Standing := by
  refine (Follows.onHeap (Heap.newEnvironment_behind hr.kept.heap.known outer)).bind ?_
  rintro e r' ⟨rfl, rfl⟩
  have hle : r.machine.heap.extent r.machine.table.size ≤
      (r.machine.heap.newEnvironment (some outer)).2.extent r.machine.table.size := ⟨Nat.le_refl _, Nat.le_refl _,
    Nat.le_refl _, Nat.le_refl _, Nat.le_refl _, (r.machine.heap.later_newEnvironment _).size⟩
  have hkept := hr.kept.withHeap (hr.kept.heap.newEnvironment (some outer)) hle fun _ _ => rfl
  obtain ⟨pending', hfills'⟩ := hB.here
  obtain ⟨depths', hbalanced'⟩ := hbalanced.here
  have hpending : pending' p = [] := by
    rcases hp with rfl | rfl
    · exact hfills'.signature
    · exact hfills'.code
  have hdepths : depths' p = ⟨0, 0⟩ := by
    rcases hp with rfl | rfl
    · exact hbalanced'.signature
    · exact hbalanced'.code
  refine .of_ok rfl ?_ ⟨owners, pending', depths', base + (depths r.top.position).frames, D, hfills', hbalanced',
    ⟨fun _ hf => hB.nested hf, hsignature⟩, ?_, ?_⟩
  · rw [Activation.enter_move]
    rfl
  · show _ + (depths' p).frames ≤ D
    rw [hdepths]
    exact hr.deep
  · refine { hkept with top := ?_, callers := ?_ }
    · show Registers.Kept _ _ (pending' p) _ _
      rw [hpending]
      exact Registers.kept_enter (fun v hv => (hargs v hv).mono hle) _ _
    · exact .cons hr.fills hr.balanced hkept.top hfree hr.nests hkept.callers

/-! ## Calls -/

/-- The result of an operator is no cell. -/
theorem settled_onNumbers (op : Operator) (x y : Number) (n : Extent) :
    (op.onNumbers x y).Settled n owners ∧ ∀ o, (op.onNumbers x y).move o = op.onNumbers x y := by
  cases op <;> exact ⟨Value.settled_of_cell?_eq_none trivial rfl, fun _ => rfl⟩

/-- Every operator but one is only defined on numbers. -/
theorem apply_of_ne {op : Operator} (hop : op ≠ .notEqual) (h : Heap) (a b : Value) : op.apply h a b =
    match a, b with
    | .number x, .number y => .ok (op.onNumbers x y)
    | a, b => .error (.operands op.symbol (h.text a) (h.text b)) := by
  cases op <;> first | rfl | exact absurd rfl hop

/-- **The application of an operator.** -/
theorem follows_apply (hr : r.Stands owners pending depths base D) {dst : Register}
    (hdst : dst.index ∉ pending r.top.position) (op : Operator) {a b : Value}
    (ha : a.Within r.machine.extent) (hb : b.Within r.machine.extent) :
    Follows m r
      (match op.apply r.machine.heap a b with
        | .ok v => write dst v
        | .error e => throw e)
      (match op.apply (r.machine.heap.behind m.heap m.table.size) (a.move m.extent) (b.move m.extent) with
        | .ok v => write dst v
        | .error e => throw e) id fun _ r' => r'.Standing := by
  by_cases hop : op = .notEqual
  · subst hop
    simp only [Operator.apply, Value.same_move]
    exact follows_deliver (v := .bool _) hr hdst (Value.settled_of_cell?_eq_none trivial rfl) rfl
  have hfail : @Follows Unit Unit m r
      (throw (.operands op.symbol (r.machine.heap.text a) (r.machine.heap.text b)))
      (throw (.operands op.symbol ((r.machine.heap.behind m.heap m.table.size).text (a.move m.extent))
        ((r.machine.heap.behind m.heap m.table.size).text (b.move m.extent)))) id fun _ r' => r'.Standing := by
    rw [text_moved hr.kept.heap ha, text_moved hr.kept.heap hb]
    exact .of_error hr.kept.clean rfl (.operands op.symbol a b) rfl
  rw [apply_of_ne hop, apply_of_ne hop]
  cases a with
  | number x =>
    cases b with
    | number y =>
      obtain ⟨hsettled, hmove⟩ := settled_onNumbers op x y r.machine.extent
      exact follows_deliver hr hdst hsettled (hmove m.extent).symm
    | _ => exact hfail
  | _ => exact hfail

/-- **A call.** -/
theorem follows_call (hr : r.Stands owners pending depths base D) (hbalanced : r.machine.heap.Balanced)
    {dst callee first : Register} {argc : UInt32}
    (hregisters : ∀ x ∈ [dst, callee, first], x.Above (pending r.top.position)) :
    Follows m r (call dst callee argc first) (call dst callee argc first) id fun _ r' => r'.Standing := by
  obtain ⟨hdst, hcallee, hfirst⟩ := above_of₃ hregisters
  have hclean := hr.kept.clean
  have hdst := not_mem_of_above hdst
  refine .read hclean fun f hf => .readRange hclean fun args hargs => ?_
  have hf := hr.kept.settled hcallee hf
  have hargs (v : Value) (hv : v ∈ args) := settled_of_range hr.kept hfirst hargs hv
  cases f with
  | function c =>
    let k := r.machine.heap.closure c
    obtain ⟨hsignature, hblock⟩ := hr.kept.heap.closures c hf.within
    show Follows m r
      (completeArgs k args >>= fun args => onHeap (·.newEnvironment (some k.environment)) >>= fun e =>
        enter (.enter k.block k.block.codeStart.toNat e args (.store dst)))
      (completeArgs ((r.machine.heap.behind m.heap m.table.size).closure (c + m.extent.closures))
        (args.map (Value.move m.extent)) >>= fun args => onHeap (·.newEnvironment
          (some ((r.machine.heap.behind m.heap m.table.size).closure (c + m.extent.closures)).environment)) >>= fun e =>
        enter (.enter ((r.machine.heap.behind m.heap m.table.size).closure (c + m.extent.closures)).block
          ((r.machine.heap.behind m.heap m.table.size).closure (c + m.extent.closures)).block.codeStart.toNat e args
          (.store dst))) _ _
    rw [Heap.closure_behind hf.within]
    refine .types hr.kept (mirrors_completeArgs hr.kept.heap hsignature hargs) fun args' F T hkept _ hargs' => ?_
    have hr' : (r.withTypes F T).Stands owners pending depths base D :=
      ⟨hr.fills, hr.balanced, hr.nests, hr.deep, hkept⟩
    refine follows_enter hr' hblock (hbalanced.block c) (.inr rfl) _ hargs' (fun dst' h => ?_) ?_
    · cases h
      exact hdst
    · rintro _ _ ⟨⟩
  | builtin op =>
    have hlist (v : Value) (hv : v ∈ args.toList) := hargs v (Array.mem_toList_iff.mp hv)
    rw [Value.move]
    dsimp only
    rw [Array.toList_map, Array.size_map]
    rcases hlength : args.toList with _ | ⟨a, _ | ⟨b, _ | ⟨c, rest⟩⟩⟩
    case cons.cons.nil =>
      rw [hlength] at hlist
      exact follows_apply hr hdst op (hlist a List.mem_cons_self).within
        (hlist b (List.mem_cons_of_mem _ List.mem_cons_self)).within
    all_goals exact .throw hclean id
  | _ => exact follows_throwText hr.kept hf.within (.notCallable _)

/-- **The creation of a function.** -/
theorem follows_newFunction (hr : r.Stands owners pending depths base D)
    (hbalanced : ∀ B ∈ r.top.block.functions, B.Everywhere Block.IsBalanced) {dst : Register} {j : UInt32}
    (hdst : dst.Above (pending r.top.position)) :
    Follows m r (newFunction dst j) (newFunction dst j) id fun _ r' => r'.Standing := by
  have hdst := not_mem_of_above hdst
  refine .nested hr.kept.clean fun B hB => ?_
  have hmem : B ∈ r.top.block.functions := Array.mem_of_getElem? hB
  have hfilling := hr.nests.nested B hmem
  let e := r.top.environment
  show Follows m r
    (if B.codeStart = 0 then freshVars [] B.parameterCount.toNat >>= fun ps => freshVar >>= fun t =>
        create dst (·.newClosure ⟨B, e, .fn ps t 0⟩)
      else onHeap (·.newEnvironment (some e)) >>= fun e => enter (.enter B 0 e #[] (.signature dst B)))
    (if B.codeStart = 0 then freshVars [] B.parameterCount.toNat >>= fun ps => freshVar >>= fun t =>
        create dst (·.newClosure ⟨B, m.extent.environment e, .fn ps t 0⟩)
      else onHeap (·.newEnvironment (some (m.extent.environment e))) >>= fun e =>
        enter (.enter B 0 e #[] (.signature dst B))) _ _
  refine .ite (fun _ => ?_) fun _ => ?_
  · refine .types hr.kept (mirrors_freshVars _ (List.forall_mem_nil _))
      fun ps F T hkept _ hps => .types hkept mirrors_freshVar fun t F' T' hkept' hsize ht => ?_
    have hr' : (r.withTypes F' T').Stands owners pending depths base D :=
      ⟨hr.fills, hr.balanced, hr.nests, hr.deep, hkept'⟩
    have hbelow : Table.Below T'.size (.fn ps t 0) := below_fn (fun p hp => below_mono hsize (hps p hp)) ht
    have h := follows_deliverClosure (m := m) hr' hdst (k := ⟨B, e, .fn ps t 0⟩) hbelow hfilling
    rwa [Closure.move, Ty.shift_fn] at h
  · have hfree (dst' : Register) (h : (Resume.signature dst B).dst? = some dst') :
        dst'.index ∉ pending r.top.position := by
      cases h
      exact hdst
    have hsignature (dst' : Register) (B' : Block) (h : Resume.signature dst B = .signature dst' B') :
        B'.Everywhere Block.IsFilling := by
      cases h
      exact hfilling
    have h := follows_enter (m := m) hr hfilling (hbalanced B hmem) (.inl rfl) e
      (fun v hv => absurd hv (Array.not_mem_empty v)) hfree hsignature
    rwa [Array.map_empty] at h

/-! ## Leaving a block -/

/-- **The end of a block.** -/
theorem follows_leave (hr : r.Kept owners S base D) (hD : base ≤ D) (hnests : r.top.Nests) {src : Register}
    (hsrc : src.Above S) :
    Follows m r (leave src) (leave src) (Option.map (Value.move m.extent)) Run.Yields := by
  refine .read hr.clean fun v hv => ?_
  have hv := hr.settled hsrc hv
  obtain ⟨M, ⟨block, position, registers, environment, resume⟩, callers⟩ := r
  have hclean : M.Clean := hr.clean
  obtain ⟨htypes, hdepth, hglobals, hheap, -, hawaited⟩ := hr
  cases callers with
  | nil => exact .of_ok rfl rfl ⟨hclean, hv.within, owners, hheap⟩
  | cons caller callers =>
    cases hawaited with
    | @cons _ _ _ base pending depths fills balanced hregisters free nests hcallers =>
    have hr' : Run.Stands owners pending depths base D ⟨M, caller, callers⟩ :=
      ⟨fills, balanced, nests, hD, htypes, hdepth, hglobals, hheap, hregisters, hcallers⟩
    have hdone {x x' : Exec Unit} (h : Follows m ⟨M, caller, callers⟩ x x' id fun _ r' => r'.Standing) :
        Follows m ⟨M, caller, callers⟩ (x >>= fun _ => pure none) (x' >>= fun _ => pure none)
          (Option.map (Value.move m.extent)) Run.Yields :=
      h.bind fun _ _ hr' => .pure rfl hr'
    cases resume with
    | answer => exact .of_ok rfl rfl ⟨owners, pending, depths, base, D, hr'⟩
    | store dst => exact .congr rfl rfl (hdone (follows_deliver hr' (free dst rfl) hv rfl))
    | signature dst B =>
      cases v with
      | type t =>
        have hsignature := hnests.signature dst B rfl
        exact .congr rfl rfl (hdone (follows_deliverClosure (k := ⟨B, caller.environment, t⟩) hr' (free dst rfl)
          hv.within hsignature))
      | _ =>
        exact .congr rfl rfl (follows_throwText (f := Option.map (Value.move m.extent)) (P := Run.Yields) hr'.kept
          hv.within (.signatureValue B.name _))

/-! ## Steps -/

/-- Where an instruction that stays in its block leads. -/
theorem instr_place {i : Instr} (hi : i.Stays) (h : instr i r.advance = .ok () r') :
    r'.top.block = r.top.block ∧ r'.top.resume = r.top.resume ∧ r'.callers = r.callers ∧
      i.Leads r.top.position r'.top.position := by
  by_cases hpush : i = .pushScope
  · subst hpush
    cases h
    exact ⟨rfl, rfl, rfl, .next id⟩
  by_cases hpop : i = .popScope
  · subst hpop
    obtain ⟨outer, rfl⟩ := Run.popScope_eq_ok h
    exact ⟨rfl, rfl, rfl, .next id⟩
  have hstays := (stays_instr (d := True) (φ := fun _ => True) hpush hpop (fun _ _ _ => trivial)
    fun _ _ _ => trivial).ok h
  exact ⟨hstays.block, hstays.resume, hstays.callers, Run.leads_instr hi hpush hpop h⟩

theorem fetch_of_none (hi : r.next? = none) :
    fetch r = .error (.pointerOutOfRange r.top.position r.top.block.name) r := by
  have hi : r.top.block.code[r.top.position]? = none := hi
  simp only [fetch, hi]

theorem fetch_of_some {i : Instr} (hi : r.next? = some i) : fetch r = .ok i r.advance := by
  have hi : r.top.block.code[r.top.position]? = some i := hi
  simp only [fetch, hi]
  rfl

/-- **Every step is followed** behind an older machine. -/
theorem follows_step (hm : m.Clean) (hr : r.Standing) (hs : r.Scoped 0 ss) :
    Follows m r step step (Option.map (Value.move m.extent)) Run.Yields := by
  obtain ⟨owners, pending, depths, base, D, hr⟩ := hr
  have hclean := hr.kept.clean
  cases hi : r.next? with
  | none =>
    have hfetch' : fetch (r.behind m) = .error (.pointerOutOfRange r.top.position r.top.block.name) (r.behind m) :=
      fetch_of_none hi
    exact .of_error hclean (bind_error (fetch_of_none hi)) (.same id) (bind_error hfetch')
  | some i =>
    have hfetch' : fetch (r.behind m) = .ok i (r.advance.behind m) := fetch_of_some hi
    refine .congr (bind_ok (fetch_of_some hi)) (bind_ok hfetch') ?_
    obtain ⟨S', hS', hpending⟩ := hr.fills.step hi
    obtain ⟨d, hd, hdepths⟩ := hr.balanced.step hi
    have hkept : r.advance.Kept owners (pending r.top.position) base D := { hr.kept with }
    cases hs with
    | mk _ _ hbalanced hactivations =>
    cases hactivations with
    | @cons _ s _ _ htop _ =>
    obtain ⟨-, hpositive, hknown⟩ := htop.newer _ htop.mem_own
    have hstays (hi : i.Stays) : Follows m r.advance (instr i >>= fun _ => pure none)
        (instr i >>= fun _ => pure none) (Option.map (Value.move m.extent)) Run.Yields := by
      refine ((follows_instr hm hkept hr.deep hS' hd (Nat.ne_of_gt hpositive) hknown).and fun _ r' h =>
        instr_place hi h).bind ?_
      rintro _ r' ⟨⟨owners', D', hD', hkept'⟩, hblock, hresume, -, hleads⟩
      refine .pure rfl ⟨owners'.release r'.callers.length (pending r'.top.position), pending, depths, base, D',
        hblock ▸ hr.fills, hblock ▸ hr.balanced, ⟨hblock ▸ hr.nests.nested, hresume ▸ hr.nests.signature⟩, ?_,
        hkept'.release (hpending _ hleads)⟩
      rw [hdepths _ hleads]
      exact hD'
    -- Behind a call the block goes on at the next position, but it waits there already while the call is made.
    have hcalls (hplain : S' = pending r.top.position) (hd : d = depths r.top.position) (hends : ¬i.Ends) :
        r.advance.Stands (owners.release r.callers.length (pending (r.top.position + 1))) pending depths base D := by
      refine ⟨hr.fills, hr.balanced, ⟨hr.nests.nested, hr.nests.signature⟩, ?_,
        hkept.release (hplain ▸ hpending _ (.next hends))⟩
      show base + (depths (r.top.position + 1)).frames ≤ D
      rw [hdepths _ (.next hends), hd]
      exact hr.deep
    have habove (hplain : S' = pending r.top.position) (hends : ¬i.Ends) {x : Register}
        (hx : x.Above (pending r.top.position)) : x.Above (pending (r.top.position + 1)) := fun s hs =>
      hx s (hplain ▸ hpending _ (.next hends) hs)
    cases i with
    | leave src =>
      cases hS' with
      | other _ hregisters =>
        exact follows_leave hkept (Nat.le_trans (Nat.le_add_right _ _) hr.deep)
          ⟨hr.nests.nested, hr.nests.signature⟩ (above_of₁ hregisters)
    | call dst callee argc first =>
      cases hS' with
      | other _ hregisters =>
        exact (follows_call (hcalls rfl (Option.some.inj hd).symm id) hbalanced fun x hx =>
          habove rfl id (hregisters x hx)).bind fun _ _ hr' => .pure rfl hr'
    | newFunction dst j =>
      cases hS' with
      | other _ hregisters =>
        exact (follows_newFunction (hcalls rfl (Option.some.inj hd).symm id) htop.nested
          (habove rfl id (above_of₁ hregisters))).bind fun _ _ hr' => .pure rfl hr'
    | _ => exact hstays trivial

end Exec

end Reified
