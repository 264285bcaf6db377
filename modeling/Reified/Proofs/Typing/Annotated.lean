import Mathlib
import Reified.Proofs.Typing.Accesses
import Reified.Proofs.Typing.Shape

/-!
# Annotations are complete and final

In the accepted declarations of a checked program every expression has a type, every function a signature with
one type for each parameter, and every call a list of inferred arguments if its callee was known to be a
function when the check came to the call. Whatever was recorded in the program before is replaced. No recorded
type mentions a variable that has become bound: all that the check has found out is in the tree.

## Main definitions

* `Table.Settled` — no variable of the type is bound
* `Expr.Annotated`, `FnHead.Annotated` — what is recorded on expressions and functions
* `Checker.Begins`, `Checker.Comes` — where the check of a program comes by
* `Check.CallsFunction`, `Expr.SlotsMatch` — the callee of a call is inferred to be a function

## Main results

* `Check.slotted_function` — the slots of a signature are the leading inferred parameters
* `Checker.answered_accepted` — the expressions in accepted declarations come from answers of the check
* `Program.annotated` — annotations are complete and final
-/

namespace Reified

/-! ## What is recorded -/

/-- No variable that the type mentions is bound. -/
def Table.Settled (T : Table) (t : Ty) : Prop := ∀ v ∈ t.vars, T.binding? v.id = none

/-- What the table says of a type is settled, also in a later table that says the same. -/
theorem Table.Same.settled {F T : Table} (h : F.Same T) (hF : F.Acyclic) (t : Ty) : T.Settled (F.deep t) :=
  fun _ hv => h.unbound_iff.mpr (Table.unbound_of_mem_vars_deep hF hv)

/-- A type is recorded on the expression. Neither it nor a recorded argument mentions a bound variable. -/
structure Expr.Annotated (T : Table) (e : Expr) : Prop where
  type : ∃ t, e.ty? = some t ∧ T.Settled t
  slots : ∀ {n callee args ts}, e = .call n callee args (some ts) → ∀ t ∈ ts, T.Settled t

/-! ## Signatures -/

/-- The type for an inferred parameter is a slot under its name. -/
def Param.Takes (p : Param) (t : Ty) : Prop := p.inferred = true → ∃ u, t = .binding p.name u

/-- The signature has a type for each parameter. Its slots are those of the inferred parameters, which lead. -/
def FnHead.Slotted (head : FnHead) : Prop :=
  ∃ types result implicit explicit, head.signature = some (.fn types result implicit) ∧
    List.Forall₂ Param.Takes head.params types ∧
    head.params.map (·.inferred) = List.replicate implicit true ++ List.replicate explicit false

/-- Such a signature is recorded on the function, and it mentions no bound variable. -/
structure FnHead.Annotated (T : Table) (head : FnHead) : Prop where
  slotted : head.Slotted
  settled : ∀ t ∈ head.signature, T.Settled t

theorem Param.Takes.replaceVarsM {S : Type} {p : Param} {t : Ty} (h : p.Takes t) (rule : TyVar → StateM S Ty)
    (s : S) : p.Takes (Ty.replaceVarsM rule t s).1 := fun hp => by
  obtain ⟨u, rfl⟩ := h hp
  exact ⟨_, rfl⟩

theorem takes_replaceListM {S : Type} {ps : List Param} {ts : List Ty} (h : List.Forall₂ Param.Takes ps ts)
    (rule : TyVar → StateM S Ty) : ∀ s, List.Forall₂ Param.Takes ps (Ty.replaceListM rule ts s).1 := by
  induction h with
  | nil => exact fun _ => .nil
  | cons ht _ ih => exact fun s => .cons (ht.replaceVarsM rule s) (ih _)

theorem FnHead.Slotted.retype {F : Table} {head : FnHead} (h : head.Slotted) :
    (head.retype (.map F.deep)).Slotted := by
  obtain ⟨types, result, implicit, explicit, hsignature, htypes, hparams⟩ := h
  refine ⟨types.map F.deep, F.deep result, implicit, explicit, ?_, ?_, hparams⟩
  · rw [FnHead.retype, hsignature, Retyping.type_map, Option.map_some, Table.deep_fn]
  · refine List.forall₂_map_right_iff.mpr (htypes.imp fun p t ht hp => ?_)
    obtain ⟨u, rfl⟩ := ht hp
    exact ⟨_, F.deep_binding p.name u⟩

namespace Check

/-- Only the leading parameters are inferred, or the check fails. -/
theorem slots_paramTypes : (ps : List Param) → ∀ {done : List Ty} {implicit : Nat}, implicit ≤ done.length →
    Makes (fun r => ∃ types k explicit, r = (done.reverse ++ types, implicit + k) ∧
      List.Forall₂ Param.Takes ps types ∧
      ps.map (·.inferred) = List.replicate k true ++ List.replicate explicit false ∧
      (implicit < done.length → k = 0)) (paramTypes done implicit ps)
  | [], done, implicit, _ => by
    rw [paramTypes]
    exact .pure ⟨[], 0, 0, by rw [List.append_nil, Nat.add_zero], .nil, rfl, fun _ => rfl⟩
  | p :: ps, done, implicit, hle => by
    rw [paramTypes]
    split
    · next hp =>
      have hnext : implicit = done.length → ∀ {v : Ty}, Makes (fun r => ∃ types k explicit,
          r = (done.reverse ++ types, implicit + k) ∧ List.Forall₂ Param.Takes (p :: ps) types ∧
          (p :: ps).map (·.inferred) = List.replicate k true ++ List.replicate explicit false ∧
          (implicit < done.length → k = 0)) (paramTypes (.binding p.name v :: done) (implicit + 1) ps) :=
        fun heq v => (slots_paramTypes ps (by rw [heq, List.length_cons])).mono fun r hr => by
          obtain ⟨types, k, explicit, rfl, htypes, hflags, -⟩ := hr
          refine ⟨.binding p.name v :: types, k + 1, explicit, ?_, .cons (fun _ => ⟨v, rfl⟩) htypes, ?_, ?_⟩
          · rw [List.reverse_cons, List.append_assoc, List.singleton_append, Nat.add_assoc, Nat.add_comm 1 k]
          · rw [List.map_cons, hp, hflags, List.replicate_succ, List.cons_append]
          · exact fun hlt => absurd heq hlt.ne
      split
      · exact .bind (.fail _ _ : Makes (fun _ => False) _) fun _ h => h.elim
      · next hnot => exact .bind .any fun _ _ => .bind .any fun _ _ => hnext (not_not.mp hnot)
    · next hp =>
      refine .bind .any fun t _ => (slots_paramTypes ps (hle.trans (Nat.le_succ _))).mono fun r hr => ?_
      obtain ⟨types, k, explicit, rfl, htypes, hflags, hk⟩ := hr
      obtain rfl : k = 0 := hk (Nat.lt_succ_of_le hle)
      refine ⟨t :: types, 0, explicit + 1, ?_, .cons (fun h => absurd h hp) htypes, ?_, fun _ => rfl⟩
      · rw [List.reverse_cons, List.append_assoc, List.singleton_append]
      · rw [List.map_cons, hflags, Bool.eq_false_iff.mpr hp]
        rfl

/-- **The slots of the signature of a checked function are its leading inferred parameters.** -/
theorem slotted_function : MakesHeads FnHead.Slotted := fun {head body} => by
  unfold function
  refine .bind .any fun _ _ => .bind .any fun _ _ => .bind .any fun _ _ => ?_
  refine .bind (slots_paramTypes head.params le_rfl) fun r hr => ?_
  obtain ⟨types, implicit, explicit, rfl, htypes, hflags, -⟩ := hr
  refine .bind .any fun result _ => .bind .any fun _ _ => .bind .any fun _ _ => ?_
  refine .bind .any fun loopDepth _ => .bind .any fun body' _ => ?_
  refine .bind .any fun _ _ => .bind .any fun _ _ => .bind .any fun _ _ => ?_
  have hsignature : Makes (fun t => ∃ types' result', t = .fn types' result' implicit ∧
      List.Forall₂ Param.Takes head.params types') (resolveDeep (.fn types result implicit)) :=
    fun s _ => ⟨trivial, _, _, rfl, takes_replaceListM htypes _ _⟩
  simp only [List.reverse_nil, List.nil_append, Nat.zero_add]
  refine .bind hsignature fun signature h => .bind .any fun _ _ => ?_
  obtain ⟨types', result', rfl, htypes'⟩ := h
  exact .pure ⟨types', result', implicit, explicit, rfl, htypes', hflags⟩

end Check

/-! ## Calls -/

section calls

variable [Check.Policy]

/-- The callee of a call is inferred to be a function when the check gets there, with the state `s` before the
call and the type `x` expected of it. -/
def Check.CallsFunction (x : Option Ty) (callee : Expr) (s : Checker) : Prop :=
  ∃ form s₁ t callee' s₂ params result implicit, Check.expectedForm x s = .ok form s₁ ∧
    Check.infer callee s₁ = .ok (t, callee') s₂ ∧ (s₂.table.resolve t).1 = .fn params result implicit

/-- **A checked call has a list of inferred arguments exactly if its callee was inferred to be a function.** -/
theorem Check.slots_typing_call {x : Option Ty} {n n' : Note} {callee callee' : Expr} {args args' : List Expr}
    {slots slots' : Option (List Ty)} {s s' : Checker} {t : Ty}
    (h : Check.typing x (.call n callee args slots) s = .ok (t, .call n' callee' args' slots') s') :
    slots'.isSome = true ↔ Check.CallsFunction x callee s := by
  rw [Check.typing] at h
  obtain ⟨form, s₁, hform, h⟩ := Check.bind_eq_ok h
  obtain ⟨⟨u, found⟩, s₂, hcallee, h⟩ := Check.bind_eq_ok h
  obtain ⟨w, s₃, hresolve, h⟩ := Check.bind_eq_ok h
  have hw : w = (s₂.table.resolve u).1 := by
    cases hresolve
    rfl
  split at h
  · next params result implicit =>
    have hcalls : Check.CallsFunction x callee s :=
      ⟨form, s₁, u, found, s₂, params, result, implicit, hform, hcallee, hw.symm⟩
    dsimp only at h
    split at h
    · obtain ⟨_, _, hfail, _⟩ := Check.bind_eq_ok h
      cases hfail
    · obtain ⟨r, s₄, -, h⟩ := Check.bind_eq_ok h
      obtain ⟨b, s₅, -, h⟩ := Check.bind_eq_ok h
      have hanswer := (Prod.mk.inj (Check.conclude_eq_ok h)).2
      cases hanswer
      exact iff_of_true rfl hcalls
  · next v =>
    obtain ⟨b, s₄, -, h⟩ := Check.bind_eq_ok h
    obtain ⟨t', s₅, -, h⟩ := Check.bind_eq_ok h
    have hanswer := (Prod.mk.inj (Check.conclude_eq_ok h)).2
    cases hanswer
    refine iff_of_false Bool.false_ne_true ?_
    rintro ⟨form', s₁', u', found', s₂', params, result, implicit, hform', hcallee', hfn⟩
    cases hform.symm.trans hform'
    cases hcallee.symm.trans hcallee'
    cases hw.trans hfn
  · obtain ⟨_, _, _, hfail⟩ := Check.bind_eq_ok h
    cases hfail

end calls

/-! ## Where the check of a program comes by -/

namespace Checker

section places

variable [Check.Policy]

/-- The check of a program has come to the declaration at a position, with the ones from there on to go. -/
inductive Begins (s : Checker) (program : Program) : Nat → List Decl → Checker → Prop
  | first : Begins s program 0 program (s.after (openProgram program))
  | accepted {index : Nat} {d d' : Decl} {ds : List Decl} {s₁ s₂ : Checker} :
      Begins s program index (d :: ds) s₁ → checkTopLevel d s₁ = .ok d' s₂ → Begins s program (index + 1) ds s₂
  | rejected {index : Nat} {d : Decl} {ds : List Decl} {e : CheckError} {s₁ s₂ : Checker} :
      Begins s program index (d :: ds) s₁ → checkTopLevel d s₁ = .error e s₂ →
      Begins s program (index + 1) ds (s₁.recover index d e s₂)

/-- The check of a program comes to a part of an expression. -/
inductive Comes (s : Checker) (program : Program) : Check.Focus → Checker → Prop
  | opens {index : Nat} {d : Decl} {ds : List Decl} {P : Check.Subject} {Q : Check.Focus} {s₀ s₁ s₂ : Checker} :
      Begins s program index (d :: ds) s₀ → Visits d s₀ P s₁ → Check.Opens P s₁ Q s₂ → Comes s program Q s₂
  | enters {P Q : Check.Focus} {s₁ s₂ : Checker} : Comes s program P s₁ → Check.Enters P s₁ Q s₂ →
      Comes s program Q s₂

variable {s s₀ : Checker} {program : Program} {index : Nat} {d : Decl} {ds : List Decl}

theorem Begins.closed (h : Begins s program index (d :: ds) s₀) :
    Check.Closed (Visits d s₀) (Comes s program) where
  leads hvisits hleads hact := .step hvisits hleads hact
  opens hvisits hopens := .opens h hvisits hopens
  enters hcomes henters := .enters hcomes henters

theorem Begins.answered {d' : Decl} {s₁ : Checker} (h : Begins s program index (d :: ds) s₀)
    (hok : checkTopLevel d s₀ = .ok d' s₁) : d'.Exprs (Check.Answered (Comes s program)) := by
  obtain ⟨t, s₂, hfresh, hdecl⟩ := Check.bind_eq_ok hok
  exact Check.answered_decl h.closed d (.start hfresh) hdecl

theorem answered_checkDecls {s₀ : Checker} (h : Begins s program index ds s₀) {done : List (Decl × Bool)}
    (hdone : ∀ d ∈ done, d.2 = true → d.1.Exprs (Check.Answered (Comes s program))) :
    ∀ d ∈ (checkDecls index done ds s₀).1, d.2 = true → d.1.Exprs (Check.Answered (Comes s program)) := by
  induction ds generalizing index s₀ done with
  | nil => exact fun d hd => hdone d (List.mem_reverse.mp hd)
  | cons d ds ih =>
    cases hact : checkTopLevel d s₀ with
    | ok d' s₁ =>
      rw [checkDecls, hact]
      exact ih (h.accepted hact) (List.forall_mem_cons.mpr ⟨fun _ => h.answered hact, hdone⟩)
    | error e s₁ =>
      rw [checkDecls_rejected hact]
      exact ih (h.rejected hact) (List.forall_mem_cons.mpr ⟨(absurd · Bool.false_ne_true), hdone⟩)

end places

end Checker

theorem Table.Same.annotated_head {F T : Table} (h : F.Same T) (hF : F.Acyclic) {head : FnHead}
    (hhead : head.Slotted) : (head.retype (.map F.deep)).Annotated T := by
  refine ⟨hhead.retype, fun t ht => ?_⟩
  obtain ⟨u, -, rfl⟩ := Option.map_eq_some_iff.mp (Option.mem_def.mp ht)
  exact h.settled hF u

section annotated

variable [Check.Policy] {V : Check.Focus → Checker → Prop} {e : Expr}

theorem Check.Answered.final {F T : Table} (h : Check.Answered V e) (hT : F.Same T) (hF : F.Acyclic) :
    (e.retype (.map F.deep)).Annotated T := by
  obtain ⟨x, source, s, t, s', -, hok⟩ := h
  refine ⟨⟨F.deep t, ?_, hT.settled hF t⟩, fun {n callee args ts} heq u hu => ?_⟩
  · rw [e.ty?_retype, (Check.annotates_of_ok hok).ty]
    rfl
  · cases e with
    | call m f es slots =>
      obtain ⟨-, -, -, hslots⟩ := Expr.call.inj heq
      obtain ⟨us, -, rfl⟩ := Option.map_eq_some_iff.mp hslots
      obtain ⟨w, -, rfl⟩ := List.mem_map.mp hu
      exact hT.settled hF w
    | _ => cases heq

/-- If the expression is a call, it is the final form of a call to which the check of the program has come, and
it has a list of inferred arguments exactly if the callee was inferred to be a function there. -/
def Expr.SlotsMatch (program : Program) (e : Expr) : Prop :=
  ∀ {n callee args slots}, e = .call n callee args slots → ∃ x n₀ callee₀ args₀ slots₀ s,
    Checker.Comes .initial program (.expr x (.call n₀ callee₀ args₀ slots₀)) s ∧
      (Expr.call n₀ callee₀ args₀ slots₀).bare = e.bare ∧
      (slots.isSome = true ↔ Check.CallsFunction x callee₀ s)

theorem Check.Answered.slotsMatch {program : Program} {f : Ty → Ty}
    (h : Check.Answered (Checker.Comes .initial program) e) : (e.retype (.map f)).SlotsMatch program := by
  obtain ⟨x, source, s, t, s', hcomes, hok⟩ := h
  intro n callee args slots heq
  have hbare : e.bare = source.bare := (Check.annotates_of_ok hok).bare
  rw [e.bare_retype, hbare]
  -- the answer of the check is a call, so what was checked is one
  cases e with
  | call n₁ callee₁ args₁ slots₁ =>
    obtain ⟨-, -, -, rfl⟩ := Expr.call.inj heq
    cases source with
    | call n₀ callee₀ args₀ slots₀ =>
      refine ⟨x, n₀, callee₀, args₀, slots₀, s, hcomes, rfl, ?_⟩
      rw [Retyping.slots_map, Option.isSome_map]
      exact Check.slots_typing_call hok
    | _ => cases hbare
  | _ => cases heq

end annotated

/-! ## Programs -/

/-- **Annotations are complete and final.** A checked program is the given one but for what is recorded in it. Every
expression in its accepted declarations has a type, and every function in them a signature with one type for each
parameter, whose slots are exactly the leading inferred parameters. No recorded type mentions a bound variable.
And every call has a list of inferred arguments exactly if its callee was inferred to be a function when the
check came to it. -/
theorem Program.annotated (program : Program) :
    (Checker.initial.checkProgram program).1.program.map Decl.bare = program.map Decl.bare ∧
      Decl.ExprsList (fun e => e.Annotated (Checker.initial.checkProgram program).2.table ∧ e.SlotsMatch program)
        (Checker.initial.checkProgram program).1.accepted ∧
      Decl.HeadsList (FnHead.Annotated (Checker.initial.checkProgram program).2.table)
        (Checker.initial.checkProgram program).1.accepted := by
  have hF := (Checker.grows_beforeFinish Checker.tame_initial program).tame.acyclic
  obtain ⟨hsame, haccepted⟩ := Checker.exists_of_mem_accepted_checkProgram hF
  have hbegins : Checker.Begins .initial program 0 program _ := .first
  have hanswered := Checker.answered_checkDecls hbegins (List.forall_mem_nil _)
  have hslotted := Checker.heads_checkDecls Check.slotted_function program 0
    (Checker.initial.after (Checker.openProgram program)) (List.forall_mem_nil _)
  refine ⟨Checker.bare_checkProgram hF, Decl.exprsList_iff.mpr fun d hd => ?_, Decl.headsList_iff.mpr fun d hd => ?_⟩
  · obtain ⟨d₀, hd₀, rfl⟩ := haccepted d hd
    refine d₀.exprs_retype.mpr (Decl.Exprs.mono (fun e he => ?_) d₀ (hanswered _ hd₀ rfl))
    exact ⟨he.final hsame hF, he.slotsMatch⟩
  · obtain ⟨d₀, hd₀, rfl⟩ := haccepted d hd
    exact d₀.heads_retype.mpr (Decl.Heads.mono (fun _ => hsame.annotated_head hF) d₀ (hslotted _ hd₀ rfl))

end Reified
