import Reified.Proofs.Typing.Plain
import Reified.Lowering.Program

/-!
# Checked programs are plain

Resolving the recorded types at the end keeps a tree plain, since a signature stays one of as many
parameters. So the accepted declarations of a checked program without inferred parameters are plain,
whatever was rejected on the way: a failed check leaves an explicit checker, too.

## Main results

* `Decl.plain_finish` — final types keep a declaration plain
* `Checker.plain_accepted` — the accepted declarations of a checked program are plain
-/

namespace Reified

/-! ## Final types -/

section finish

variable {α β : Type}

/-- What the action answers satisfies a predicate, whatever the table. -/
def Answers (post : α → Prop) (act : StateM Table α) : Prop :=
  ∀ T, post (act T).1

namespace Answers

variable {post : α → Prop} {post' : β → Prop} {act : StateM Table α}

theorem pure {a : α} (h : post a) : Answers post (Pure.pure a) := fun _ => h

theorem bind {next : α → StateM Table β} (h : Answers post act)
    (hnext : ∀ a, post a → Answers post' (next a)) : Answers post' (act >>= next) :=
  fun T => hnext _ (h T) (act T).2

theorem map {f : α → β} (h : Answers post act) (hpost : ∀ a, post a → post' (f a)) :
    Answers post' (f <$> act) :=
  fun T => hpost _ (h T)

theorem any : Answers (fun _ => True) act := fun _ => trivial

end Answers

theorem answers_implicit {implicit : Option (List Ty)} (h : implicit.getD [] = []) :
    Answers (fun ts : Option (List Ty) => ts.getD [] = []) (implicit.mapM (finishTys [])) := by
  cases implicit with
  | none => exact .pure rfl
  | some ts =>
    obtain rfl : ts = [] := h
    exact fun _ => rfl

mutual

/-- Final types keep an expression plain. -/
theorem Expr.plain_finish : (e : Expr) → e.Plain → Answers Expr.Plain e.finish
  | .ident n x, _ => by
    rw [finish]
    exact .bind .any fun _ _ => .pure trivial
  | .literal n v, _ => by
    rw [finish]
    exact .bind .any fun _ _ => .pure trivial
  | .binary n op l r, h => by
    rw [finish]
    refine .bind .any fun _ _ => .bind (plain_finish l h.1) fun _ hl => ?_
    exact .bind (plain_finish r h.2) fun _ hr => .pure ⟨hl, hr⟩
  | .paren n e, h => by
    rw [finish]
    exact .bind .any fun _ _ => .bind (plain_finish e h) fun _ he => .pure he
  | .object n fs, h => by
    rw [finish]
    exact .bind .any fun _ _ => .bind (plain_finishFields fs h nofun) fun _ hfs => .pure hfs
  | .array n es, h => by
    rw [finish]
    exact .bind .any fun _ _ => .bind (plain_finishList es h nofun) fun _ hes => .pure hes
  | .tuple n es, h => by
    rw [finish]
    exact .bind .any fun _ _ => .bind (plain_finishList es h nofun) fun _ hes => .pure hes
  | .call n f es implicit, h => by
    rw [finish]
    refine .bind .any fun _ _ => .bind (plain_finish f h.1) fun _ hf => ?_
    refine .bind (plain_finishList es h.2.1 nofun) fun _ hes => ?_
    exact .bind (answers_implicit h.2.2) fun _ hi => .pure ⟨hf, hes, hi⟩
  | .subscript n t i, h => by
    rw [finish]
    refine .bind .any fun _ _ => .bind (plain_finish t h.1) fun _ ht => ?_
    exact .bind (plain_finish i h.2) fun _ hi => .pure ⟨ht, hi⟩
  | .member n o x, h => by
    rw [finish]
    exact .bind .any fun _ _ => .bind (plain_finish o h) fun _ ho => .pure ho
  | .type n t, h => by
    rw [finish]
    exact .bind .any fun _ _ => .pure h

theorem Expr.plain_finishList : (es : List Expr) → Expr.PlainList es → ∀ {done : List Expr},
    (∀ e ∈ done, e.Plain) → Answers Expr.PlainList (Expr.finishList done es)
  | [], _, done, hdone => by
    rw [finishList]
    exact .pure (Expr.plainList_iff.mpr fun e he => hdone e (List.mem_reverse.mp he))
  | e :: es, h, done, hdone => by
    rw [finishList]
    refine .bind (plain_finish e h.1) fun _ he => ?_
    exact plain_finishList es h.2 (List.forall_mem_cons.mpr ⟨he, hdone⟩)

theorem Expr.plain_finishFields : (fs : List (String × Expr)) → Expr.PlainFields fs →
    ∀ {done : List (String × Expr)}, (∀ f ∈ done, f.2.Plain) →
    Answers Expr.PlainFields (Expr.finishFields done fs)
  | [], _, done, hdone => by
    rw [finishFields]
    exact .pure (Expr.plainFields_iff.mpr fun f hf => hdone f (List.mem_reverse.mp hf))
  | (name, e) :: fs, h, done, hdone => by
    rw [finishFields]
    refine .bind (plain_finish e h.1) fun _ he => ?_
    exact plain_finishFields fs h.2 (List.forall_mem_cons.mpr ⟨he, hdone⟩)

end

theorem Expr.plainOption_finish {e : Option Expr} (h : Expr.PlainOption e) :
    Answers Expr.PlainOption (e.mapM Expr.finish) := by
  cases e with
  | none => exact .pure trivial
  | some e => exact (e.plain_finish h).map fun _ he => he

theorem LetDecl.plain_finish {d : LetDecl} (h : d.init.Plain) :
    Answers (fun d' : LetDecl => d'.init.Plain) d.finish :=
  .bind (d.init.plain_finish h) fun _ he => .pure he

theorem ForInit.plain_finish {init : ForInit} (h : init.Plain) :
    Answers ForInit.Plain init.finish := by
  cases init with
  | expr e => exact .bind (e.plain_finish h) fun _ he => .pure he
  | letDecl d => exact .bind (LetDecl.plain_finish h) fun _ hd => .pure hd

theorem ForInit.plain_finish_option {init : Option ForInit} (h : ∀ i ∈ init, i.Plain) :
    Answers (fun init' : Option ForInit => ∀ i ∈ init', i.Plain) (init.mapM ForInit.finish) := by
  cases init with
  | none => exact .pure nofun
  | some init =>
    refine .map (ForInit.plain_finish (h init rfl)) fun _ hi => ?_
    rintro _ ⟨⟩
    exact hi

/-- Final types keep a signature without implicit parameters. -/
theorem FnHead.plain_finish {head : FnHead} (h : head.Plain) : Answers FnHead.Plain head.finish := by
  obtain ⟨⟨types, result, hsignature, hlength⟩, hparams⟩ := h
  intro T
  obtain ⟨types', result', heq, hlength'⟩ := T.resolveDeep_fn types result 0
  refine ⟨⟨types', result', ?_, hlength'.trans hlength⟩, hparams⟩
  rw [finish, hsignature]
  exact congrArg some heq

mutual

/-- Final types keep a statement plain. -/
theorem Stmt.plain_finish : (s : Stmt) → s.Plain → Answers Stmt.Plain s.finish
  | .empty span, _ => by
    rw [Stmt.finish]
    exact .pure trivial
  | .block body span, h => by
    rw [Stmt.finish]
    exact .bind (Stmt.plain_finishDecls body h nofun) fun _ hbody => .pure hbody
  | .ret value span, h => by
    rw [Stmt.finish]
    exact .bind (Expr.plainOption_finish h) fun _ hvalue => .pure hvalue
  | .cond c s none span, h => by
    rw [Stmt.finish]
    refine .bind (c.plain_finish h.1) fun _ hc => .bind (Stmt.plain_finish s h.2) fun _ hs => ?_
    exact .pure ⟨hc, hs⟩
  | .cond c s (some t) span, h => by
    rw [Stmt.finish]
    refine .bind (c.plain_finish h.1) fun _ hc => .bind (Stmt.plain_finish s h.2.1) fun _ hs => ?_
    exact .bind (Stmt.plain_finish t h.2.2) fun _ ht => .pure ⟨hc, hs, ht⟩
  | .whileLoop c body span, h => by
    rw [Stmt.finish]
    refine .bind (c.plain_finish h.1) fun _ hc => .bind (Stmt.plain_finish body h.2) fun _ hbody => ?_
    exact .pure ⟨hc, hbody⟩
  | .forLoop init c increment body span, h => by
    rw [Stmt.finish]
    refine .bind (ForInit.plain_finish_option h.1) fun _ hinit => ?_
    refine .bind (Expr.plainOption_finish h.2.1) fun _ hc => ?_
    refine .bind (Expr.plainOption_finish h.2.2.1) fun _ hi => ?_
    exact .bind (Stmt.plain_finish body h.2.2.2) fun _ hbody => .pure ⟨hinit, hc, hi, hbody⟩
  | .breakLoop span, _ => by
    rw [Stmt.finish]
    exact .pure trivial
  | .continueLoop span, _ => by
    rw [Stmt.finish]
    exact .pure trivial
  | .cases scrutinee cs none span, h => by
    rw [Stmt.finish]
    refine .bind (scrutinee.plain_finish h.1) fun _ hs => ?_
    exact .bind (Stmt.plain_finishCases cs h.2 nofun) fun _ hcs => .pure ⟨hs, hcs⟩
  | .cases scrutinee cs (some default) span, h => by
    rw [Stmt.finish]
    refine .bind (scrutinee.plain_finish h.1) fun _ hs => ?_
    refine .bind (Stmt.plain_finishCases cs h.2.1 nofun) fun _ hcs => ?_
    exact .bind (Stmt.plain_finish default h.2.2) fun _ hd => .pure ⟨hs, hcs, hd⟩
  | .expr e, h => by
    rw [Stmt.finish]
    exact .bind (e.plain_finish h) fun _ he => .pure he

theorem Stmt.plain_finishCases : (cs : List (Pattern × Stmt)) → Stmt.PlainCases cs →
    ∀ {done : List (Pattern × Stmt)}, (∀ c ∈ done, c.2.Plain) →
    Answers Stmt.PlainCases (finishCases done cs)
  | [], _, done, hdone => by
    rw [finishCases]
    exact .pure (Stmt.plainCases_iff.mpr fun c hc => hdone c (List.mem_reverse.mp hc))
  | (p, s) :: cs, h, done, hdone => by
    rw [finishCases]
    refine .bind (Stmt.plain_finish s h.1) fun _ hs => ?_
    exact Stmt.plain_finishCases cs h.2 (List.forall_mem_cons.mpr ⟨hs, hdone⟩)

theorem Stmt.plain_finishDecls : (ds : List Decl) → Decl.PlainList ds → ∀ {done : List Decl},
    (∀ d ∈ done, d.Plain) → Answers Decl.PlainList (finishDecls done ds)
  | [], _, done, hdone => by
    rw [finishDecls]
    exact .pure (Decl.plainList_iff.mpr fun d hd => hdone d (List.mem_reverse.mp hd))
  | d :: ds, h, done, hdone => by
    rw [finishDecls]
    refine .bind (Decl.plain_finish d h.1) fun _ hd => ?_
    exact Stmt.plain_finishDecls ds h.2 (List.forall_mem_cons.mpr ⟨hd, hdone⟩)

/-- Final types keep a declaration plain. -/
theorem Decl.plain_finish : (d : Decl) → d.Plain → Answers Decl.Plain d.finish
  | .letDecl d, h => by
    rw [Decl.finish]
    exact .bind (LetDecl.plain_finish h) fun _ hd => .pure hd
  | .fn head body, h => by
    rw [Decl.finish]
    refine .bind (FnHead.plain_finish h.1) fun _ hhead => ?_
    exact .bind (Stmt.plain_finishDecls body h.2 nofun) fun _ hbody => .pure ⟨hhead, hbody⟩
  | .stmt s, h => by
    rw [Decl.finish]
    exact .bind (Stmt.plain_finish s h) fun _ hs => .pure hs

end

end finish

/-! ## Programs -/

namespace Checker

variable {s : Checker}

/-- Whatever an action answers, the state that it leaves is explicit. -/
theorem Explicit.after {act : Check Unit} (hs : s.Explicit)
    (h : Check.Ensures Explicit (fun _ => True) act) : (s.after act).Explicit := by
  have h1 := h s hs
  unfold Checker.after
  cases hact : act s with
  | ok a s' =>
    rw [hact] at h1
    exact h1.1
  | error e s' =>
    rw [hact] at h1
    exact h1

theorem ensures_declareOperators : (ops : List Operator) →
    Check.Ensures Explicit (fun _ => True) (declareOperators ops)
  | [] => .pure trivial
  | op :: ops => by
    refine .bind (Check.ensures_freshVar "a") fun t ht => ?_
    have hsort : ∀ sort : OperandSort, (sort.ty t).Explicit := fun sort => by
      cases sort
      · trivial
      · trivial
      · exact ht
    have hop : (op.signature t).Explicit :=
      ⟨⟨hsort _, hsort _, trivial⟩, hsort _, rfl⟩
    exact .bind (Check.ensures_bindValue op.symbol hop) fun _ _ => ensures_declareOperators ops

/-- The checker that knows the operators only is explicit. -/
theorem explicit_initial : initial.Explicit := by
  have hblank : blank.Explicit := ⟨.empty, ⟨nofun, nofun⟩, nofun⟩
  have hbuiltins : Check.Ensures Explicit (fun _ => True) declareBuiltins :=
    .bind Check.ensures_pushScope fun _ _ => .bind Check.ensures_pushFrame fun _ _ =>
      .bind (ensures_declareOperators _) fun _ _ => Check.ensures_popFrame
  exact hblank.after hbuiltins

theorem explicit_closeFrames (depth n : Nat) (F : Frames) {T : Table} (h : T.Explicit) :
    (closeFrames depth n F T).2.Explicit := by
  induction n generalizing F T with
  | zero => exact h
  | succ n ih =>
    rw [closeFrames]
    split
    · exact ih _ (Check.explicit_pop F h)
    · exact h

theorem Explicit.unwind (hs : s.Explicit) (scopeDepth frameDepth returnDepth loopDepth : Nat) :
    (s.unwind scopeDepth frameDepth returnDepth loopDepth).Explicit where
  table := explicit_closeFrames _ _ _ hs.table
  scope := hs.scope.truncate scopeDepth
  returns t ht := hs.returns t (List.mem_of_mem_drop ht)

theorem ensures_bindRejected (d : Decl) : Check.Ensures Explicit (fun _ => True) (bindRejected d) := by
  cases d with
  | letDecl d =>
    exact .bind (Check.ensures_freshVar d.name) fun _ ht => Check.ensures_bindValue d.name ht
  | fn | stmt => exact .pure trivial

/-- Each accepted declaration is plain once it is checked. -/
theorem plain_checkDecls (ds : Program) (hds : Decl.ExplicitList ds) (index : Nat)
    {done : List (Decl × Bool)} (hdone : ∀ d ∈ done, d.2 = true → d.1.Plain) (hs : s.Explicit) :
    ∀ d ∈ (checkDecls index done ds s).1, d.2 = true → d.1.Plain := by
  induction ds generalizing index done s with
  | nil => exact fun d hd => hdone d (List.mem_reverse.mp hd)
  | cons d ds ih =>
    have htop : Check.Ensures Explicit Decl.Plain (checkTopLevel d) :=
      .bind (Check.ensures_freshVar "") fun t ht => Check.ensures_decl d hds.1 ht
    have h1 := htop s hs
    rw [checkDecls]
    cases hact : checkTopLevel d s with
    | ok d' s' =>
      rw [hact] at h1
      exact ih hds.2 _ (List.forall_mem_cons.mpr ⟨fun _ => h1.2, hdone⟩) h1.1
    | error e s' =>
      rw [hact] at h1
      refine ih hds.2 _ (List.forall_mem_cons.mpr ⟨nofun, hdone⟩) ?_
      have hreport : (s'.report index e).Explicit := ⟨h1.table, h1.scope, h1.returns⟩
      exact (hreport.unwind _ _ _ _).after (ensures_bindRejected d)

theorem plain_finishAccepted (ds : List (Decl × Bool)) (hds : ∀ d ∈ ds, d.2 = true → d.1.Plain)
    {done : List (Decl × Bool)} (hdone : ∀ d ∈ done, d.2 = true → d.1.Plain) :
    Answers (fun ds' => ∀ d ∈ ds', d.2 = true → d.1.Plain) (finishAccepted done ds) := by
  induction ds generalizing done with
  | nil => exact .pure fun d hd => hdone d (List.mem_reverse.mp hd)
  | cons d ds ih =>
    obtain ⟨d, accepted⟩ := d
    obtain ⟨hd, hrest⟩ := List.forall_mem_cons.mp hds
    rw [finishAccepted]
    cases accepted with
    | true =>
      refine .bind (Decl.plain_finish d (hd rfl)) fun d' hd' => ?_
      exact ih hrest (List.forall_mem_cons.mpr ⟨fun _ => hd', hdone⟩)
    | false =>
      refine .bind (.pure trivial : Answers (fun _ => True) _) fun d' _ => ?_
      exact ih hrest (List.forall_mem_cons.mpr ⟨nofun, hdone⟩)

theorem mem_rejectedFrom {ds : List (Decl × Bool)} {d : Decl} {i : Nat}
    (h : ds[i]? = some (d, false)) (index : Nat) : index + i ∈ rejectedFrom index ds := by
  induction ds generalizing index i with
  | nil => simp at h
  | cons x ds ih =>
    obtain ⟨d', accepted⟩ := x
    cases i with
    | zero =>
      cases h
      exact List.mem_cons_self
    | succ i =>
      have hrest := ih h (index + 1)
      rw [Nat.add_right_comm, Nat.add_assoc] at hrest
      cases accepted with
      | true => exact hrest
      | false => exact List.mem_cons_of_mem _ hrest

/-- The accepted declarations are those that were accepted. -/
theorem exists_of_mem_accepted {ds : List (Decl × Bool)} {d : Decl}
    (h : d ∈ Program.accepted (rejectedFrom 0 ds) (ds.map Prod.fst)) : (d, true) ∈ ds := by
  simp only [Program.accepted, List.mem_filterMap, id_eq, exists_eq_right] at h
  obtain ⟨i, hi, hd⟩ := List.mem_mapIdx.mp h
  split at hd
  · cases hd
  · next hrejected =>
    have hlt : i < ds.length := by simpa using hi
    cases hx : ds[i] with | mk d' accepted => ?_
    simp only [List.getElem_map, hx, Option.some.injEq] at hd
    subst hd
    cases accepted with
    | true => exact hx ▸ List.getElem_mem hlt
    | false =>
      have hmem := mem_rejectedFrom (List.getElem?_eq_some_iff.mpr ⟨hlt, hx⟩) 0
      rw [Nat.zero_add] at hmem
      exact absurd (List.contains_iff_mem.mpr hmem) hrejected

/-- **The accepted declarations of a checked program are plain**, if none of its functions has
inferred parameters. -/
theorem plain_accepted {program : Program} (h : Decl.ExplicitList program) (hs : s.Explicit) :
    Decl.PlainList
      ((s.checkProgram program).1.program.accepted (s.checkProgram program).1.rejected) := by
  have hopen : (s.after (openProgram program)).Explicit :=
    hs.after (.bind Check.ensures_pushFrame fun _ _ => .bind Check.ensures_pushScope fun _ _ =>
      Check.ensures_hoist program)
  have hnone : ∀ d ∈ ([] : List (Decl × Bool)), d.2 = true → d.1.Plain := by simp
  have hchecked := plain_checkDecls program h 0 hnone hopen
  refine Decl.plainList_iff.mpr fun d hd => ?_
  have hmem := exists_of_mem_accepted hd
  exact plain_finishAccepted _ hchecked hnone _ _ hmem rfl

end Checker

end Reified
