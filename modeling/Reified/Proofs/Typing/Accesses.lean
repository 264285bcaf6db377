import Mathlib
import Reified.Compilation
import Reified.Proofs.Typing.Direct
import Reified.Proofs.Typing.Final

/-!
# Final types of accesses

Resolving the recorded types replaces each by what it stands for in the last table, so an access that is
direct in view of that table is direct in the resolved tree: its type is the one found in the type of
what is accessed.

The converse fails. Where nothing was known about what is accessed, the access got a fresh variable
for its type, and nothing connects that variable with what is found out later. The final types then
look as if the access were direct, while its type may be any.

## Main results

* `Checker.direct_accepted` — the accesses of which something must be known are direct
* `CheckedProgram.direct_of_known` — so are those at which it makes no difference to demand that
* `CheckedProgram.direct_annotatedAccess` — others need not be
-/

namespace Reified

/-! ## Final types -/

open Check (Refused) in
/-- An access that is direct in view of a table is direct once the types are resolved in it. -/
theorem Expr.refused_retype [Check.Policy] {F : Table} : (e : Expr) → Refused F.deep e →
    Refused id (e.retype (.map F.deep))
  | .ident .., _ | .literal .., _ | .binary .., _ | .paren .., _ | .object .., _ | .array .., _ | .tuple .., _
  | .call .., _ | .type .., _ => fun _ => trivial
  | .member n o x, h => fun hrefused => by
    have hdirect := h hrefused
    rw [retype, DirectIn]
    rw [DirectIn] at hdirect
    simpa only [o.ty?_retype, Note.retype, Retyping.type_map, Option.map_id, id] using hdirect
  | .subscript n t i, h => fun hrefused => by
    have hdirect := h hrefused
    rw [retype, DirectIn]
    rw [DirectIn] at hdirect
    simpa only [t.ty?_retype, i.literalIndex?_retype, Note.retype, Retyping.type_map, Option.map_id, id] using hdirect

/-! ## Programs -/

namespace Checker

open Check (Refused)

variable {F : Table} {s : Checker}

/-- Whatever an action answers, the table learns. -/
theorem grows_after {act : Check Unit} (hs : s.table.Tame) (h : Check.LearnsOnly act) :
    s.table.Grows (s.after act).table := by
  have h1 := @h s.table True s hs
  unfold Checker.after
  cases hact : act s with
  | ok a s' =>
    rw [hact] at h1
    exact h1.1
  | error e s' =>
    rw [hact] at h1
    exact h1

theorem grows_closeFrames (depth n : Nat) (R : Frames) {T : Table} (hT : T.Tame) :
    T.Grows (closeFrames depth n R T).2 := by
  induction n generalizing R T with
  | zero => exact .refl hT
  | succ n ih =>
    rw [closeFrames]
    split
    · have h := Check.grows_pop R hT
      exact h.trans (ih _ h.tame)
    · exact .refl hT

theorem learns_bindRejected (d : Decl) : Check.LearnsOnly (bindRejected d) := by
  intro F known
  unfold bindRejected
  split
  · exact (Check.learns_freshVar _).bind fun t => Check.learns_bindValue _ t
  · exact .pure fun _ => trivial

variable [Check.Policy]

theorem learns_checkTopLevel {known : Prop} (d : Decl) :
    Check.Learns F known (Decl.Exprs (Refused F.deep)) (checkTopLevel d) :=
  (Check.learns_freshVar "").bind fun _ => Check.learns_decl d

/-- The table learns from one declaration to the next, whether it is accepted or not. In view of any
later table, the accesses in accepted declarations are as they should be. -/
theorem learns_checkDecls (ds : Program) (index : Nat) (hs : s.table.Tame)
    {done : List (Decl × Bool)} :
    s.table.Grows (checkDecls index done ds s).2.table ∧
      ∀ F, (checkDecls index done ds s).2.table.Grows F →
        (∀ d ∈ done, d.2 = true → d.1.Exprs (Refused F.deep)) →
          ∀ d ∈ (checkDecls index done ds s).1, d.2 = true → d.1.Exprs (Refused F.deep) := by
  induction ds generalizing index done s with
  | nil => exact ⟨.refl hs, fun F _ hdone d hd => hdone d (List.mem_reverse.mp hd)⟩
  | cons d ds ih =>
    rw [checkDecls]
    have htop := fun F => (learns_checkTopLevel d : Check.Learns F True _ _) s hs
    cases hact : checkTopLevel d s with
    | ok d' s' =>
      simp only [hact] at htop
      obtain ⟨hgrows, hrest⟩ := @ih s' (index + 1) (htop s.table).1.tame ((d', true) :: done)
      refine ⟨(htop s.table).1.trans hgrows, fun F hF hdone => hrest F hF ?_⟩
      exact List.forall_mem_cons.mpr ⟨fun _ => (htop F).2 trivial (hgrows.trans hF), hdone⟩
    | error e s' =>
      simp only [hact] at htop
      have hunwind : s'.table.Grows ((s'.report index e).unwind s.scope.depth s.frames.depth
          s.returns.length s.loopDepth).table :=
        grows_closeFrames _ _ _ (htop s.table).tame
      have hstep := ((htop s.table).trans hunwind).trans
        (grows_after hunwind.tame (learns_bindRejected d))
      obtain ⟨hgrows, hrest⟩ := @ih _ (index + 1) hstep.tame ((d, false) :: done)
      refine ⟨hstep.trans hgrows, fun F hF hdone => hrest F hF ?_⟩
      exact List.forall_mem_cons.mpr ⟨(absurd · Bool.false_ne_true), hdone⟩

omit [Check.Policy] in
theorem tame_openProgram (hs : s.table.Tame) (program : Program) :
    (s.after (openProgram program)).table.Tame :=
  (@grows_after s (openProgram program) hs <|
    Check.learns_pushFrame.bind fun _ => Check.learns_pushScope.bind fun _ => Check.learns_hoist program).tame

/-- The last table of the check of a program. -/
theorem grows_beforeFinish (hs : s.table.Tame) (program : Program) :
    (checkDecls 0 [] program (s.after (openProgram program))).2.table.Grows (s.beforeFinish program).table :=
  grows_after (@learns_checkDecls _ _ program 0 (tame_openProgram hs program) []).1.tame <|
    Check.learns_popScope.bind fun _ => Check.learns_popFrame

/-- **The accesses of which a policy demands that something is known are direct**, once the recorded
types are resolved. -/
theorem direct_accepted (hs : s.table.Tame) (program : Program) :
    Decl.ExprsList (Refused id)
      ((s.checkProgram program).1.program.accepted (s.checkProgram program).1.rejected) := by
  obtain ⟨-, hchecked⟩ := @learns_checkDecls _ _ program 0 (tame_openProgram hs program) []
  have hlast := grows_beforeFinish hs program
  refine Decl.exprsList_iff.mpr fun d hd => ?_
  obtain ⟨d₀, hd₀, rfl⟩ := (exists_of_mem_accepted_checkProgram hlast.tame.acyclic).2 d hd
  exact d₀.exprs_retype.mpr (Decl.Exprs.mono Expr.refused_retype d₀ (hchecked _ hlast (by simp) _ hd₀ rfl))

omit [Check.Policy] in
theorem learns_declareOperators (ops : List Operator) : Check.LearnsOnly (declareOperators ops) := by
  intro F known
  induction ops generalizing known with
  | nil => exact .pure fun _ => trivial
  | cons op ops ih =>
    rw [declareOperators]
    refine (Check.learns_freshVar "a").bind fun t => ?_
    exact (Check.learns_bindValue op.symbol _).bind fun _ => ih

omit [Check.Policy] in
/-- The table of a new checker is tame. -/
theorem tame_initial : Checker.initial.table.Tame := by
  have hblank : blank.table.Tame := by
    refine ⟨⟨fun _ => 0, fun v t h => ?_⟩, fun _ => rfl⟩
    rw [Table.binding?_of_size_le (Nat.zero_le v)] at h
    cases h
  exact (@grows_after _ declareBuiltins hblank <|
    Check.learns_pushScope.bind fun _ => Check.learns_pushFrame.bind fun _ =>
      (learns_declareOperators Operator.all).bind fun _ => Check.learns_popFrame).tame

end Checker

namespace CheckedProgram

/-- The accepted declarations of a checked program. -/
def accepted (c : CheckedProgram) : List Decl := c.program.accepted c.rejected

/-- **An access that checking typed directly has the type that is found in what is accessed.** If
checking gives the same result when it refuses to leave the accesses at some places to the run, then
in every accepted declaration the recorded types of the member and element accesses at these places are
the ones found in the recorded types of what is accessed. -/
theorem direct_of_known (refuses : Span → Bool) (program : Program)
    (h : (@Checker.checkProgram ⟨refuses⟩ .initial program).1 =
      (Checker.initial.checkProgram program).1) :
    Decl.ExprsList (fun e => refuses e.span = true → e.Direct)
      (Checker.initial.checkProgram program).1.accepted := by
  have hdirect := @Checker.direct_accepted .initial ⟨refuses⟩ Checker.tame_initial program
  rw [h] at hdirect
  exact hdirect

/-- A field of an object whose type is known. -/
theorem direct_knownAccess :
    ∃ program : Program, program = [
        .letDecl ⟨"x", none, .object default [("a", .literal default (.bool true))], default⟩,
        .stmt (.expr (.member default (.ident default "x") "a"))] ∧
      (@Checker.checkProgram ⟨fun _ => true⟩ .initial program).1 =
        (Checker.initial.checkProgram program).1 ∧
      (Checker.initial.checkProgram program).1.accepted.length = 2 ∧
      Decl.ExprsList (fun e => true = true → e.Direct)
        (Checker.initial.checkProgram program).1.accepted := by
  refine ⟨[.letDecl ⟨"x", none, .object default [("a", .literal default (.bool true))], default⟩,
    .stmt (.expr (.member default (.ident default "x") "a"))], rfl, ?_, ?_, ?_⟩
  · cbv
  · cbv
  · refine direct_of_known (fun _ => true) _ ?_
    cbv

/-- What is recorded of the access to a field with which the first function begins: the type of the object, the type
of the access, and the name of the field. -/
def firstAccess : List Decl → Option (Option Ty × Option Ty × String)
  | .fn _ (.letDecl ⟨_, _, .member n o x, _⟩ :: _) :: _ => some (o.ty?, n.ty, x)
  | _ => none

theorem eq_of_firstAccess {ds : List Decl} {t u : Option Ty} {x : String} (h : firstAccess ds = some (t, u, x)) :
    ∃ head name annotation n o span body rest,
      ds = .fn head (.letDecl ⟨name, annotation, .member n o x, span⟩ :: body) :: rest ∧ o.ty? = t ∧ n.ty = u := by
  unfold firstAccess at h
  split at h
  · obtain ⟨rfl, rfl, rfl⟩ := h
    exact ⟨_, _, _, _, _, _, _, _, rfl, rfl, rfl⟩
  · cases h

/-- A field of a parameter of which nothing is known when it is accessed: afterwards the parameter turns
out to be an object whose field is a truth value, while the access is recorded as a string. -/
theorem direct_annotatedAccess :
    let object : Expr := .object default [("a", .literal default (.bool true))]
    let access : Expr := .member default (.ident default "x") "a"
    let f : FnHead := ⟨"f", default, [], [⟨"x", none, false, default⟩], none, default, default, none⟩
    let program : Program := [.fn f [
        .letDecl ⟨"y", some (.name "String" default), access, default⟩,
        .stmt (.expr (.binary default .equal (.ident default "x") object)),
        .stmt (.expr (.ident default "y"))],
      .stmt (.expr (.call default (.ident default "f") [object] none))]
    ¬ Decl.ExprsList Expr.Direct (Checker.initial.checkProgram program).1.accepted := by
  intro object access f program
  have hfirst : firstAccess (Checker.initial.checkProgram program).1.accepted =
      some (some (.record [("a", .bool)]), some .string, "a") := by cbv
  obtain ⟨_, _, _, n, o, _, _, _, haccepted, hobject, haccess⟩ := eq_of_firstAccess hfirst
  rw [haccepted]
  intro hdirect
  have hmember := hdirect.1.1.1 [("a", .bool)] .bool (by rw [Option.map_id]; exact hobject) rfl
  rw [haccess] at hmember
  exact absurd (Option.some.inj hmember) (by decide)

end CheckedProgram

end Reified
