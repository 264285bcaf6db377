import Reified.Lowering.Expr
import Reified.Proofs.Typing.Spared

/-!
# Functions before their declarations

The functions of a program, a block or a body are known from its start on. Until its declaration is reached, the
name of a function stands for a variable about which nothing is known. The variable is an ordinary one: an
expression that uses it as an operand or as an argument may bind it, and then the uses that follow are checked
against what it was bound to.

If the name is used for accesses only, as what is called, indexed or asked for a field, wherever it stands for the
variable, then this remains unbound to the end of the program. Every call through the name is accepted if its
arguments are, and its code finds out what is called when it runs.

## Main definitions

* `Checker.Hoists` — the check of a program has come to a list of declarations whose functions are known from now on
* `Checker.OnlyAccessed` — the name is used for accesses only wherever it stands for the variable
* `Lower.openCall`, `Expr.CallsOpenly` — the code of a call that finds out what is called when it runs
* `Check.AcceptsCalls` — calls are accepted whatever their arguments are

## Main results

* `Checker.Held.spares_hoist` — from the start a function stands for a variable of its own
* `Checker.Hoists.spares` — which is spared to the end of the program
* `Check.accepts_calls` — a call through a name for a variable
* `Checker.Hoists.stays_open` — the variable remains unbound, and every call through the name is open
* `Checker.Hoists.stays_open_fails` — a use that is not an access may bind the variable
-/

namespace Reified

/-- The declaration is one of a function with the given name. -/
def Decl.DeclaresFn (f : String) : Decl → Prop
  | .fn head _ => head.name = f
  | _ => False

namespace Scope

variable {S : Scope} {name other : String} {t : Ty}

theorem lookup_insert_self (h : S.frames ≠ []) (name : String) (t : Ty) : (S.insert name t).lookup name = some t := by
  obtain ⟨frames⟩ := S
  cases frames with
  | nil => exact absurd rfl h
  | cons frame frames => simp [lookup, insert, Fields.get?_insert_self]

theorem lookup_insert_of_ne (h : other ≠ name) (t : Ty) : (S.insert name t).lookup other = S.lookup other := by
  obtain ⟨frames⟩ := S
  cases frames with
  | nil => rfl
  | cons frame frames =>
    simp only [lookup, insert, List.findSome?_cons]
    rw [Fields.get?_insert_of_ne h]

end Scope

namespace Checker

open Check (Subject Focus EndsIn Ensures hoist freshVar bindValue)

variable {f : String} {v : TyVar} {B : Base} {p : Position} {s s' s₁ s₂ : Checker} {ds : List Decl}

/-! ## Placeholders -/

/-- A name that is not declared stands for what it stood for. -/
theorem lookup_hoist (ds : List Decl) (hds : ∀ d ∈ ds, ¬ d.DeclaresFn f) {s s' : Checker}
    (hok : hoist ds s = .ok () s') : s'.scope.lookup f = s.scope.lookup f := by
  induction ds generalizing s with
  | nil =>
    cases hok
    rfl
  | cons d ds ih =>
    obtain ⟨hd, hrest⟩ := List.forall_mem_cons.mp hds
    cases d with
    | fn head body =>
      rw [hoist] at hok
      obtain ⟨t, s₁, hfresh, hok⟩ := Check.bind_eq_ok hok
      obtain ⟨⟨⟩, s₂, hbind, hok⟩ := Check.bind_eq_ok hok
      cases hfresh
      cases hbind
      exact (ih hrest hok).trans (Scope.lookup_insert_of_ne (Ne.symm hd) _)
    | letDecl d => exact ih hrest hok
    | stmt st => exact ih hrest hok

/-- A new variable is spared when a name is bound to it. -/
theorem Held.spares_new (h : Held B p.inScope s) {t : Ty} (hfresh : freshVar f s = .ok t s₁)
    (hbind : bindValue f t s₁ = .ok () s₂) :
    ∃ w, w.id = s.table.size ∧ s₂.Spares f w ∧ s₂.scope.lookup f = some (.var w) := by
  cases hfresh
  cases hbind
  have hne : s.scope.frames ≠ [] := (h.idle (Nat.succ_pos _)).scopes
  have hbelow : ∀ {t : Ty}, (∀ w ∈ t.vars, w.id < s.table.size) → t.Omits s.table.size := fun ht w hw => (ht w hw).ne
  refine ⟨⟨s.table.size, f, false, false⟩, rfl, ⟨?_, ?_, ?_⟩, Scope.lookup_insert_self hne f _⟩
  · exact Table.omits_newVar h.healthy f false false s.frames.depth
  · refine Scope.Spares.insert ⟨fun frame hframe x hx => .inl ?_, fun frame hframe x hx => ?_⟩ (.inr rfl)
    · exact hbelow (h.covers.values frame hframe x hx).below
    · exact hbelow (h.covers.types frame hframe x hx).below
  · exact fun t ht => hbelow (h.results t ht).below

/-- **A function stands for a variable that is spared** until its declaration is reached. -/
theorem Held.spares_hoist (h : Held B p.inScope s) (hok : hoist ds s = .ok () s')
    (hf : ∃ d ∈ ds, d.DeclaresFn f) (hv : s'.scope.lookup f = some (.var v)) :
    s.table.size ≤ v.id ∧ s'.Spares f v := by
  induction ds generalizing s with
  | nil => exact absurd hf (by simp)
  | cons d ds ih =>
    cases d with
    | fn head body =>
      rw [hoist] at hok
      obtain ⟨t, s₁, hfresh, hok⟩ := Check.bind_eq_ok hok
      obtain ⟨⟨⟩, s₂, hbind, hok⟩ := Check.bind_eq_ok hok
      obtain ⟨h₁, hev₁, ht⟩ := h.run (Check.contains_freshVar head.name) hfresh
      obtain ⟨h₂, hev₂, -⟩ := h₁.run (Check.contains_bindValue head.name fun _ hT =>
        (hT.live _ le_rfl _ ht).scheme) hbind
      by_cases hlater : ∃ d ∈ ds, d.DeclaresFn f
      · obtain ⟨hsize, hspares⟩ := ih h₂ hok hlater
        exact ⟨(hev₁.size.trans hev₂.size).trans hsize, hspares⟩
      · -- the last function of the name
        obtain ⟨d, hd, hdeclares⟩ := hf
        obtain rfl : head.name = f := by
          rcases List.mem_cons.mp hd with rfl | hd
          · exact hdeclares
          · exact absurd ⟨d, hd, hdeclares⟩ hlater
        obtain ⟨w, hw, hspares, hlookup⟩ := h.spares_new hfresh hbind
        have hspares' := (Check.spares_hoist ds).ends hspares
        rw [hok] at hspares'
        have hsame := lookup_hoist ds (fun d hd hdeclares => hlater ⟨d, hd, hdeclares⟩) hok
        rw [hv, hlookup] at hsame
        cases hsame
        exact ⟨hw.ge, hspares'.1⟩
    | letDecl d => exact ih h hok (by simpa [Decl.DeclaresFn] using hf)
    | stmt st => exact ih h hok (by simpa [Decl.DeclaresFn] using hf)

/-- The functions of a block stand for variables that are spared. -/
theorem Held.spares_openBlock {t u : Ty} {span : Span} (h : Held B p s)
    (hopen : Check.openBlock t ds span s = .ok u s') (hf : ∃ d ∈ ds, d.DeclaresFn f)
    (hv : s'.scope.lookup f = some (.var v)) : s.table.size ≤ v.id ∧ s'.Spares f v := by
  unfold Check.openBlock at hopen
  obtain ⟨⟨⟩, s₁, hpush, hopen⟩ := Check.bind_eq_ok hopen
  obtain ⟨⟨⟩, s₂, hhoist, hopen⟩ := Check.bind_eq_ok hopen
  obtain ⟨h₁, hev, -⟩ := h.run Check.contains_pushScope hpush
  -- there is a function, so the block is not empty
  have hne : ds.isEmpty = false := by
    obtain ⟨d, hd, -⟩ := hf
    cases ds with
    | nil => cases hd
    | cons d ds => rfl
  rw [hne] at hopen
  cases hopen
  obtain ⟨hsize, hspares⟩ := h₁.spares_hoist hhoist hf hv
  exact ⟨hev.size.trans hsize, hspares⟩

/-! ## Programs -/

theorem Ensures.after {keep : Checker → Prop} {post : Unit → Prop} {act : Check Unit} (h : Ensures keep post act)
    (hs : keep s) : keep (s.after act) := by
  have hends := h.ends hs
  unfold Checker.after
  cases hact : act s with
  | ok a s' =>
    rw [hact] at hends
    exact hends.1
  | error e s' =>
    rw [hact] at hends
    exact hends

theorem omits_closeFrames {id : Nat} (depth n : Nat) (F : Frames) {T : Table} (h : T.Omits id) :
    (closeFrames depth n F T).2.Omits id := by
  induction n generalizing F T with
  | zero => exact h
  | succ n ih =>
    rw [closeFrames]
    split
    · exact ih _ (Check.omits_pop F h)
    · exact h

variable [Check.Policy] {program : Program} {index : Nat} {d : Decl} {P : Subject}

/-- The check of a program has just made known the functions of the program, of a block or of the body of a
function. -/
inductive Hoists (s : Checker) (program : Program) : List Decl → Checker → Prop
  | program : Hoists s program program (s.after (openProgram program))
  | block {index : Nat} {d : Decl} {ds body : List Decl} {t u : Ty} {span : Span} {s₀ s₁ s₂ : Checker} :
      Begins s program index (d :: ds) s₀ → Visits d s₀ (.stmt t (.block body span)) s₁ →
      Check.openBlock t body span s₁ = .ok u s₂ → Hoists s program body s₂
  | body {index : Nat} {d : Decl} {ds body : List Decl} {head : FnHead} {t u : Ty} {s₀ s₁ s₂ : Checker} :
      Begins s program index (d :: ds) s₀ → Visits d s₀ (.decl t (.fn head body)) s₁ →
      Check.openBody head body s₁ = .ok u s₂ → Hoists s program body s₂

/-- The check of a program comes to an expression that stands in a statement or declaration. -/
inductive Stands (s : Checker) (program : Program) (e : Expr) : Checker → Prop
  | mk {index : Nat} {d : Decl} {ds : List Decl} {P : Subject} {x : Option Ty} {s₀ s₁ s₂ : Checker} :
      Begins s program index (d :: ds) s₀ → Visits d s₀ P s₁ → Check.Opens P s₁ (.expr x e) s₂ →
      Stands s program e s₂

/-- Wherever the name stands for the variable, it is used for accesses only. -/
def OnlyAccessed (s : Checker) (program : Program) (f : String) (v : TyVar) : Prop :=
  ∀ {e s₁}, s.Stands program e s₁ → s₁.scope.lookup f = some (.var v) → e.OnlyAccesses f

theorem OnlyAccessed.sparing {s₀ : Checker} (h : s.OnlyAccessed program f v)
    (hbegins : Begins s program index (d :: ds) s₀) : Check.Sparing f v (Visits d s₀) where
  leads := .step
  opens hvisits hopens := h (.mk hbegins hvisits hopens)

omit [Check.Policy] in
/-- A rejected declaration leaves the variable alone. -/
theorem Spares.recover (h : s₂.Spares f v) (index : Nat) (d : Decl) (e : CheckError) :
    (s₁.recover index d e s₂).Spares f v := by
  have hbind : Ensures (Spares f v) (fun _ => True) (bindRejected d) := by
    unfold bindRejected
    split
    · exact (Check.spares_freshVar _).bind fun _ ht => Check.spares_bindValue _ ht
    · exact .pure trivial
  refine Ensures.after hbind ⟨?_, h.scope.truncate _, fun t ht => h.returns t (List.mem_of_mem_drop ht)⟩
  exact omits_closeFrames _ _ _ h.table

theorem lasting_spares (honly : s.OnlyAccessed program f v) : Lasting (Spares f v) s program where
  checks hbegins hs := by
    unfold checkTopLevel
    refine ((Check.spares_freshVar "").ends hs).bind fun t s₂ hfresh hs₂ ht => ?_
    exact Check.spares_decl (honly.sparing hbegins) _ (.start hfresh) ht hs₂
  recovers index d e hs := hs.recover index d e
  closes hs := Ensures.after (Check.spares_popScope.bind fun _ _ => Check.spares_popFrame) hs

/-- From a place where the variable is spared from now on it is spared to the end of the program. -/
theorem OnlyAccessed.spares {s₀ : Checker} (honly : s.OnlyAccessed program f v) (hs : s.Idle)
    (hbegins : Begins s program index (d :: ds) s₀) (hvisits : Visits d s₀ P s₁) (hsize : s₁.table.size ≤ v.id)
    (hin : P.Ends (Spares f v) s₁) : (s.beforeFinish program).Spares f v := by
  refine (lasting_spares honly).beforeFinish hbegins ?_
  exact hvisits.ends (Check.maintains_spares (honly.sparing hbegins)) (hbegins.idle hs)
    (fun ht w hw => ((ht w hw).trans_le hsize).ne) hin

/-- **The variable of a function that is not yet declared is spared to the end**, if its name is used for accesses
only wherever it stands for it. -/
theorem Hoists.spares (hs : s.Idle) (h : Hoists s program ds s₁) (hf : ∃ d ∈ ds, d.DeclaresFn f)
    (hv : s₁.scope.lookup f = some (.var v)) (honly : s.OnlyAccessed program f v) :
    (s.beforeFinish program).Spares f v := by
  have homits : ∀ {T : Table} {t : Ty}, Table.Below T.size t → T.size ≤ v.id → t.Omits v.id :=
    fun ht hsize w hw => ((ht w hw).trans_le hsize).ne
  cases h with
  | program =>
    let s₀ : Checker := { s with frames := s.frames.push }
    obtain ⟨s₁, hhoist⟩ := hoist_ok ds { s₀ with scope := s₀.scope.push }
    have hopen : s.after (openProgram ds) = s₁ := by
      have hok : openProgram ds s = .ok () s₁ := hhoist
      rw [after, hok]
    obtain ⟨hpushed, -, -⟩ := hs.held.inFrame.run Check.contains_pushScope (rfl : Check.pushScope s₀ = .ok () _)
    rw [hopen] at hv
    have hspares := (hpushed.spares_hoist hhoist hf hv).2
    exact (lasting_spares honly).closes ((lasting_spares honly).checkDecls .first (hopen ▸ hspares))
  | @block index d rest _ t u span s₀ s₂ _ hbegins hvisits hopen =>
    have hsound := hvisits.sound (hbegins.idle hs)
    have hkeep := Check.maintains_spares (honly.sparing hbegins)
    obtain ⟨hsize, hspares⟩ := hsound.idle.held.spares_openBlock hopen hf hv
    have ht : t.Omits v.id := homits (hsound.live t (List.mem_singleton_self t)).below hsize
    have hsingle : ∀ u ∈ [t], u.Omits v.id := fun u hu => List.eq_of_mem_singleton hu ▸ ht
    obtain rfl := Check.openBlock_eq_ok hopen
    have hleads := @Check.Leads.block _ u ds span
    have hin := hkeep.part (hvisits.step hleads hopen) hsingle hspares
    refine honly.spares hs hbegins hvisits hsize (hleads.ends hkeep hvisits hsingle ?_ hopen hin)
    rintro _ _ _ _ _ _ ⟨⟩
  | @body index d rest _ head t u s₀ s₂ _ hbegins hvisits hopen =>
    have hsound := hvisits.sound (hbegins.idle hs)
    have hkeep := Check.maintains_spares (honly.sparing hbegins)
    have hleads := @Check.Leads.body _ t head ds
    have hplace := hvisits.step hleads hopen
    obtain ⟨⟨⟩, s₃, hpush, hrest⟩ := Check.bind_eq_ok hopen
    obtain ⟨⟨signature, result, loopDepth⟩, s₄, henter, hblock⟩ := Check.bind_eq_ok hrest
    cases hpush
    obtain ⟨B, hreserves, hsignature, hresult, -⟩ := hsound.idle.held.inFrame.enterFunction henter
    obtain ⟨hsize, hspares⟩ := hreserves.held.spares_openBlock hblock hf hv
    obtain rfl := Check.openBlock_eq_ok hblock
    have hin := hkeep.part hplace
      (fun w hw => List.eq_of_mem_singleton hw ▸ homits hresult.below hsize) hspares
    have hearlier := hreserves.evolves.size.trans hsize
    have ht : t.Omits v.id := homits (hsound.live t (List.mem_singleton_self t)).below hearlier
    refine honly.spares hs hbegins hvisits hearlier (hleads.ends hkeep hvisits
      (fun w hw => List.eq_of_mem_singleton hw ▸ ht) ?_ hopen hin)
    rintro w head' body' s₅ s₆ a ⟨⟩ hpush' henter'
    cases hpush'
    cases henter.symm.trans henter'
    exact homits hsignature.below hsize

end Checker

/-! ## Open calls -/

/-- What stands for an unbound variable later does so from the start. -/
theorem Table.Grows.deep_eq_var {T F : Table} (h : T.Grows F) {v : TyVar} (hv : F.binding? v.id = none) :
    ∃ u, T.deep (.var v) = .var u := by
  have hdeep := h.deep (.var v)
  rw [Table.deep_var_of_unbound hv, Table.deep_eq_subst] at hdeep
  cases hT : T.deep (.var v) with
  | var u => exact ⟨u, rfl⟩
  | _ =>
    rw [hT] at hdeep
    simp [Ty.subst] at hdeep

/-- The code of a call that finds out what is called when it runs. -/
def Lower.openCall (params : ImplicitParams) (callee : Expr) (args : List Expr) (dst : Register) : Lower Unit := do
  let f ← allocate
  expr params callee f
  let first ← allocateRange args.length
  each params first.offset (fun _ => pure ()) 0 args
  callOrHole dst f args.length first

/-- Whatever types are recorded in the end, the code of the expression is that of an open call of the callee with
the arguments. -/
def Expr.CallsOpenly (e callee : Expr) (args : List Expr) : Prop :=
  ∀ (g : Ty → Ty) params dst, Lower.expr params (e.retype (.map g)) dst =
    Lower.openCall params (callee.retype (.map g)) (Expr.retypeList (.map g) args) dst

theorem Expr.callsOpenly (n : Note) (callee : Expr) (args : List Expr) (t : Ty) :
    ((Expr.call n callee args none).annotate t).CallsOpenly callee args := fun g params dst => by
  show Lower.expr params (.call _ (callee.retype (.map g)) (Expr.retypeList (.map g) args) none) dst = _
  rw [Lower.expr]
  rfl

namespace Check

open Checker (Ready Held)

variable {f : String} {v : TyVar} {s s' : Checker} {x : Option Ty} {n : Note} {callee : Expr}

/-- A call is accepted if its arguments are, whatever they are, and its code is that of an open call. -/
def AcceptsCalls (x : Option Ty) (n : Note) (callee : Expr) (s : Checker) : Prop :=
  ∃ c s₁, ∀ args slots, match typingList [] [] [] args s₁ with
    | .ok r _ => ∃ t e s₂, typing x (.call n callee args slots) s = .ok (t, e) s₂ ∧ e.CallsOpenly c r.2
    | .error e s₂ => typing x (.call n callee args slots) s = .error e s₂

/-- An instance of what stands for a variable is an unbound variable. -/
theorem instantiate_eq_ok {u : TyVar} (hT : s.table.Acyclic) (hu : s.table.deep (.var v) = .var u) :
    ∃ w s', instantiate (.var v) s = .ok (.var w) s' ∧ s'.table.binding? w.id = none := by
  obtain ⟨w, hw, hunbound⟩ := Table.instantiate_var hT hu s.frames.depth
  refine ⟨w, { s with table := (s.frames.instantiate s.table (.var v)).2.2
                      frames := (s.frames.instantiate s.table (.var v)).2.1 }, ?_, hunbound⟩
  rw [← hw]
  rfl

/-- The form of the expected type is known, and nothing changes when it is looked up. -/
theorem expectedForm_eq_ok (hT : s.table.Acyclic) (x : Option Ty) :
    ∃ form s₁, expectedForm x s = .ok form s₁ ∧ s₁.scope = s.scope ∧ s.table.Alike s₁.table := by
  cases x with
  | none => exact ⟨none, s, rfl, rfl, .refl hT⟩
  | some t =>
    exact ⟨some (s.table.resolve t).1, { s with table := (s.table.resolve t).2 }, rfl, rfl, .resolve hT t⟩

/-- A name for a variable has an unbound variable for a type. -/
theorem names_eq_ok {u : TyVar} : (e : Expr) → e.Names f → ∀ {s : Checker}, s.scope.lookup f = some (.var v) →
    s.table.Acyclic → s.table.deep (.var v) = .var u →
    ∃ w c s', typing none e s = .ok (.var w, c) s' ∧ s'.table.binding? w.id = none
  | .ident n name, he, s, hf, hT, hu => by
    obtain rfl : name = f := he
    obtain ⟨w, s', hok, hw⟩ := instantiate_eq_ok hT hu
    have hform : expectedForm none s = .ok none s := rfl
    have hlookup : lookup name n.span s = .ok (.var w) s' := by
      rw [lookup_eq, hf, ← hok]
    refine ⟨w, (Expr.ident n name).annotate (.var w), s', ?_, hw⟩
    rw [typing, bind_of_ok hform]
    dsimp only
    rw [bind_of_ok hlookup]
    rfl
  | .paren n e, he, s, hf, hT, hu => by
    obtain ⟨w, c, s', hok, hw⟩ := names_eq_ok e he hf hT hu
    have hform : expectedForm none s = .ok none s := rfl
    refine ⟨w, .paren ⟨n.span, some (.var w)⟩ c, s', ?_, hw⟩
    rw [typing, bind_of_ok hform]
    dsimp only
    rw [bind_of_ok hok]
    rfl

/-- **A call through a name for a variable is accepted.** -/
theorem accepts_calls {u : TyVar} (hs : s.Idle) (hx : ∀ t ∈ x, s.around.Live s.table t) (he : callee.Names f)
    (hf : s.scope.lookup f = some (.var v)) (hu : s.table.deep (.var v) = .var u) : AcceptsCalls x n callee s := by
  obtain ⟨form, s₁, hform, hscope, halike⟩ := expectedForm_eq_ok hs.held.placed.tame.acyclic x
  obtain ⟨w, c, s₂, hcallee, hw⟩ := names_eq_ok callee he (hscope ▸ hf) halike.acyclic' ((halike.deep _).trans hu)
  have hresolve : resolve (.var w) s₂ = .ok (.var w) s₂ := by
    have hself : s₂.table.resolve (.var w) = (.var w, s₂.table) := Table.follow_of_unbound hw _
    show EStateM.Result.ok (s₂.table.resolve (.var w)).1 { s₂ with table := (s₂.table.resolve (.var w)).2 } = _
    rw [hself]
  obtain ⟨h₁, hev₁, -⟩ := hs.held.run (contains_expectedForm (Checker.expecting hx)) hform
  obtain ⟨h₂, hev₂, -⟩ := h₁.infer hcallee
  refine ⟨c, s₂, fun args slots => ?_⟩
  -- the check of the call is that of its arguments, and of a hole
  have hcall : typing x (.call n callee args slots) s = (do
      let r ← typingList [] [] [] args
      conclude x (← hole "" n.span) (.call n c r.2 none) : Check (Ty × Expr)) s₂ := by
    rw [typing, bind_of_ok hform]
    dsimp only
    rw [bind_of_ok hcallee]
    dsimp only
    rw [bind_of_ok hresolve]
  rw [hcall]
  cases hargs : typingList [] [] [] args s₂ with
  | error e s₃ => exact bind_of_error hargs
  | ok r s₃ =>
    obtain ⟨h₃, hev₃, -⟩ := h₂.run (contains_typingList args (fun _ _ => List.forall_mem_nil _)
      fun _ _ => List.forall_mem_nil _) hargs
    let u : TyVar := ⟨s₃.table.size, "", false, false⟩
    let s₄ : Checker := { s₃ with table := (s₃.table.newVar "" false false s₃.frames.depth).2
                                  frames := s₃.frames.record s₃.table.size }
    have hhole : hole "" n.span s₃ = .ok (.var u) s₄ := rfl
    rw [bind_of_ok hargs]
    dsimp only
    rw [bind_of_ok hhole]
    cases x with
    | none => exact ⟨.var u, _, s₄, rfl, Expr.callsOpenly n c r.2 _⟩
    | some t =>
      have ht : t.Omits s₃.table.size := fun y hy => by
        have hlive := ((hev₁.trans hev₂).trans hev₃).live _ le_rfl _ (hx t rfl)
        exact (hlive.below y hy).ne
      have homits := Table.omits_newVar h₃.healthy "" false false s₃.frames.depth
      obtain ⟨T, hT⟩ := homits.unify_self ht (v := u) rfl rfl
      have hunify : unify t (.var u) n.span s₄ = .ok () { s₄ with table := T } := by
        simp only [unify, s₄]
        rw [hT]
      refine ⟨.var u, (Expr.call n c r.2 none).annotate (.var u), { s₄ with table := T }, ?_,
        Expr.callsOpenly n c r.2 (.var u)⟩
      show (unify t (.var u) n.span >>= fun _ => pure (Ty.var u, _)) s₄ = _
      rw [bind_of_ok hunify]
      rfl

end Check

namespace Checker

variable {s s₁ : Checker} {program : Program} {ds : List Decl} {f : String} {v : TyVar}

/-- **A function that is used before its declaration remains unknown**, if its name is only called, indexed and asked
for fields while it stands for the variable: this is unbound when the whole program is checked, and every call
through the name is accepted whatever its arguments are, and compiled as an open call. -/
theorem Hoists.stays_open (hs : s.Idle) (h : Hoists s program ds s₁) (hf : ∃ d ∈ ds, d.DeclaresFn f)
    (hv : s₁.scope.lookup f = some (.var v)) (honly : s.OnlyAccessed program f v) :
    (s.checkProgram program).2.table.binding? v.id = none ∧
      ∀ {x n callee args slots s₂}, Comes s program (.expr x (.call n callee args slots)) s₂ → callee.Names f →
        s₂.scope.lookup f = some (.var v) → Check.AcceptsCalls x n callee s₂ := by
  have hspares := h.spares hs hf hv honly
  have hF := hspares.table.tame.acyclic
  refine ⟨((exists_of_mem_accepted_checkProgram hF).1.unbound_iff).mpr hspares.table.unbound, ?_⟩
  intro x n callee args slots s₂ hcomes hcallee hf₂
  have hready := hcomes.ready hs
  obtain ⟨u, hu⟩ := (hcomes.grows hs).deep_eq_var hspares.table.unbound
  exact Check.accepts_calls hready.idle (fun t ht => hready.live t (Option.mem_toList.mpr ht)) hcallee hf₂ hu

/-- The declarations that are still to be checked are the last ones of the program. -/
theorem Begins.suffix [Check.Policy] {index : Nat} (h : Begins s program index ds s₁) : ds <:+ program := by
  induction h with
  | first => exact List.suffix_rfl
  | accepted _ _ ih | rejected _ _ ih => exact (List.suffix_cons _ _).trans ih

/-- A call of a function that is declared later. -/
def callOfF : Expr := .call default (.ident default "f") [.literal default (.bool true)] none

/-- In the program with the call and the declaration the name is used for the call only. -/
theorem onlyAccessed_callOfF : initial.OnlyAccessed [.stmt (.expr callOfF), declOfF] "f" v := by
  rintro e s₁ ⟨hbegins, hvisits, hopens⟩ -
  have hmem := hbegins.suffix.subset List.mem_cons_self
  -- the places are the two declarations, the statement and the empty body
  have hplaces : ∀ {d : Decl} {P : Check.Subject} {s₀ s₁ : Checker}, Visits d s₀ P s₁ →
      d ∈ [.stmt (.expr callOfF), declOfF] → ∃ t, P = .decl t (.stmt (.expr callOfF)) ∨ P = .decl t declOfF ∨
        P = .stmt t (.expr callOfF) ∨ P = .decls t [] := fun hvisits hd => by
    induction hvisits with
    | @start t s hfresh =>
      refine ⟨t, ?_⟩
      rcases List.mem_pair.mp hd with rfl | rfl
      · exact .inl rfl
      · exact .inr (.inl rfl)
    | step _ hleads _ ih =>
      obtain ⟨t, rfl | rfl | rfl | rfl⟩ := ih
      · cases hleads
        exact ⟨_, .inr (.inr (.inl rfl))⟩
      · cases hleads
        exact ⟨_, .inr (.inr (.inr rfl))⟩
      · cases hleads
      · cases hleads
  obtain ⟨t, rfl | rfl | rfl | rfl⟩ := hplaces hvisits hmem
  · cases hopens
  · cases hopens
  · cases hopens
    exact ⟨.inl rfl, trivial, trivial⟩
  · cases hopens

/-- The call comes before the declaration, and the function remains unknown to it. -/
theorem Hoists.stays_open_callOfF :
    (initial.after (openProgram [.stmt (.expr callOfF), declOfF])).scope.lookup "f" = some placeholderOfF ∧
      initial.OnlyAccessed [.stmt (.expr callOfF), declOfF] "f" ⟨10, "f", false, false⟩ ∧
      (initial.checkProgram [.stmt (.expr callOfF), declOfF]).2.table.binding? 10 = none ∧
      (initial.checkProgram [.stmt (.expr callOfF), declOfF]).1.rejected = [] := by
  have hlookup : (initial.after (openProgram [.stmt (.expr callOfF), declOfF])).scope.lookup "f" =
      some placeholderOfF := by cbv
  have hopen := Hoists.stays_open idle_initial .program ⟨declOfF, by simp, rfl⟩ hlookup onlyAccessed_callOfF
  exact ⟨hlookup, onlyAccessed_callOfF, hopen.1, by cbv⟩

/-- A comparison of a function that is declared later with a truth value. -/
def equalOfF : Expr := .binary default .equal (.ident default "f") (.literal default (.bool true))

/-- The comparison is accepted, but after it the call is rejected. -/
theorem rejected_callOfF : (match checkTopLevel (.stmt (.expr equalOfF))
      (initial.after (openProgram [.stmt (.expr equalOfF), .stmt (.expr callOfF), declOfF])) with
    | .ok _ s₁ => match checkTopLevel (.stmt (.expr callOfF)) s₁ with
      | .ok _ _ => false
      | .error _ _ => true
    | .error _ _ => false) = true := by
  cbv

/-- **A use that is not an access may bind the variable.** In a comparison the function is taken for a truth value,
and the call that follows is rejected. -/
theorem Hoists.stays_open_fails :
    (¬ ∀ (program ds : Program) (s₁ : Checker) (f : String) (v : TyVar), Hoists initial program ds s₁ →
      (∃ d ∈ ds, d.DeclaresFn f) → s₁.scope.lookup f = some (.var v) →
        (initial.checkProgram program).2.table.binding? v.id = none) ∧
      ∃ s₁ e s₂, Begins initial [.stmt (.expr equalOfF), .stmt (.expr callOfF), declOfF] 1
        [.stmt (.expr callOfF), declOfF] s₁ ∧ checkTopLevel (.stmt (.expr callOfF)) s₁ = .error e s₂ := by
  constructor
  · intro h
    have hlookup : (initial.after (openProgram [.stmt (.expr equalOfF), declOfF])).scope.lookup "f" =
        some placeholderOfF := by cbv
    have hunbound := h _ _ _ "f" _ .program ⟨declOfF, by simp, rfl⟩ hlookup
    have hbound : ((initial.checkProgram [.stmt (.expr equalOfF), declOfF]).2.table.binding? 10).isSome = true := by
      cbv
    rw [hunbound] at hbound
    cases hbound
  · have hrejected := rejected_callOfF
    have hbegins : Begins initial [.stmt (.expr equalOfF), .stmt (.expr callOfF), declOfF] 0 _ _ := .first
    cases hequal : checkTopLevel (.stmt (.expr equalOfF))
        (initial.after (openProgram [.stmt (.expr equalOfF), .stmt (.expr callOfF), declOfF])) with
    | error e s₁ =>
      rw [hequal] at hrejected
      cases hrejected
    | ok d s₁ =>
      rw [hequal] at hrejected
      dsimp only at hrejected
      cases hcall : checkTopLevel (.stmt (.expr callOfF)) s₁ with
      | error e s₂ => exact ⟨s₁, e, s₂, hbegins.accepted hequal, hcall⟩
      | ok d' s₂ =>
        rw [hcall] at hrejected
        cases hrejected

end Checker

end Reified
