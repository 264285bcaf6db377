import Reified.Proofs.Typing.Checked

/-!
# Signatures of checked functions

Whatever a program is like, each function in its accepted declarations has a signature, which is the
type of a function with as many parameters as the function has: checking makes one type for each
parameter, and resolving the recorded types at the end keeps their number.

## Main definitions

* `FnHead.Signed` — the function has such a signature
* `Stmt.Heads`, `Decl.Heads` — a property of all functions in a tree

## Main results

* `Check.heads_decl` — a property that the check gives to functions holds of all in a declaration
* `Checker.signed_accepted` — all functions in accepted declarations have signatures
-/

namespace Reified

/-- The signature of the function is the type of a function with as many parameters. -/
def FnHead.Signed (head : FnHead) : Prop :=
  ∃ types result implicit, head.signature = some (.fn types result implicit) ∧
    types.length = head.params.length

/-! ## All functions of a tree -/

mutual

/-- All functions in the statement have the property. -/
def Stmt.Heads (P : FnHead → Prop) : Stmt → Prop
  | .empty _ | .breakLoop _ | .continueLoop _ | .ret .. | .expr _ => True
  | .block body _ => Decl.HeadsList P body
  | .cond _ s none _ => s.Heads P
  | .cond _ s (some t) _ => s.Heads P ∧ t.Heads P
  | .whileLoop _ body _ => body.Heads P
  | .forLoop _ _ _ body _ => body.Heads P
  | .cases _ cs none _ => Stmt.HeadsCases P cs
  | .cases _ cs (some s) _ => Stmt.HeadsCases P cs ∧ s.Heads P

/-- `Stmt.Heads` for the statement of each case. -/
def Stmt.HeadsCases (P : FnHead → Prop) : List (Pattern × Stmt) → Prop
  | [] => True
  | (_, s) :: cs => s.Heads P ∧ Stmt.HeadsCases P cs

/-- All functions in the declaration have the property. -/
def Decl.Heads (P : FnHead → Prop) : Decl → Prop
  | .letDecl _ => True
  | .fn head body => P head ∧ Decl.HeadsList P body
  | .stmt s => s.Heads P

/-- `Decl.Heads` for each declaration of a list. -/
def Decl.HeadsList (P : FnHead → Prop) : List Decl → Prop
  | [] => True
  | d :: ds => d.Heads P ∧ Decl.HeadsList P ds

end

section

variable {P Q : FnHead → Prop}

mutual

theorem Stmt.Heads.mono (h : ∀ head, P head → Q head) : (s : Stmt) → s.Heads P → s.Heads Q
  | .empty _, _ | .breakLoop _, _ | .continueLoop _, _ | .ret .., _ | .expr _, _ => trivial
  | .block body _, hs => Decl.HeadsList.mono h body hs
  | .cond _ s none _, hs => Stmt.Heads.mono h s hs
  | .cond _ s (some t) _, hs => ⟨Stmt.Heads.mono h s hs.1, Stmt.Heads.mono h t hs.2⟩
  | .whileLoop _ body _, hs | .forLoop _ _ _ body _, hs => Stmt.Heads.mono h body hs
  | .cases _ cs none _, hs => Stmt.HeadsCases.mono h cs hs
  | .cases _ cs (some s) _, hs => ⟨Stmt.HeadsCases.mono h cs hs.1, Stmt.Heads.mono h s hs.2⟩

theorem Stmt.HeadsCases.mono (h : ∀ head, P head → Q head) :
    (cs : List (Pattern × Stmt)) → Stmt.HeadsCases P cs → Stmt.HeadsCases Q cs
  | [], _ => trivial
  | (_, s) :: cs, hs => ⟨Stmt.Heads.mono h s hs.1, Stmt.HeadsCases.mono h cs hs.2⟩

theorem Decl.Heads.mono (h : ∀ head, P head → Q head) : (d : Decl) → d.Heads P → d.Heads Q
  | .letDecl _, _ => trivial
  | .fn head body, hd => ⟨h head hd.1, Decl.HeadsList.mono h body hd.2⟩
  | .stmt s, hd => Stmt.Heads.mono h s hd

theorem Decl.HeadsList.mono (h : ∀ head, P head → Q head) :
    (ds : List Decl) → Decl.HeadsList P ds → Decl.HeadsList Q ds
  | [], _ => trivial
  | d :: ds, hds => ⟨Decl.Heads.mono h d hds.1, Decl.HeadsList.mono h ds hds.2⟩

end

theorem Stmt.headsCases_iff {cs : List (Pattern × Stmt)} :
    Stmt.HeadsCases P cs ↔ ∀ c ∈ cs, c.2.Heads P := by
  induction cs with
  | nil => simp [Stmt.HeadsCases]
  | cons c cs ih => obtain ⟨p, s⟩ := c; simp [Stmt.HeadsCases, ih]

theorem Decl.headsList_iff {ds : List Decl} : Decl.HeadsList P ds ↔ ∀ d ∈ ds, d.Heads P := by
  induction ds with
  | nil => simp [Decl.HeadsList]
  | cons d ds ih => simp [Decl.HeadsList, ih]

end

/-! ## Checking -/

namespace Check

/-- The answer of the action has the property. -/
abbrev Makes {α : Type} (post : α → Prop) (act : Check α) : Prop := Ensures (fun _ => True) post act

theorem Ensures.any {α : Type} {act : Check α} : Makes (fun _ => True) act := by
  intro s _
  split <;> trivial

theorem Ensures.and {α : Type} {post post' : α → Prop} {act : Check α} (h : Makes post act)
    (h' : Makes post' act) : Makes (fun a => post a ∧ post' a) act := by
  intro s hs
  have h1 := h s hs
  have h2 := h' s hs
  cases hact : act s with
  | ok a s' =>
    rw [hact] at h1 h2
    exact ⟨trivial, h1.2, h2.2⟩
  | error e s' => trivial

/-- There is one type for each parameter. -/
theorem length_paramTypes : (ps : List Param) → ∀ {done : List Ty} {implicit : Nat},
    Makes (fun r => r.1.length = done.length + ps.length) (paramTypes done implicit ps)
  | [], done, implicit => by
    rw [paramTypes]
    exact .pure (by simp)
  | p :: ps, done, implicit => by
    have hnext : ∀ {t : Ty} {implicit : Nat}, Makes
        (fun r => r.1.length = done.length + (p :: ps).length)
        (paramTypes (t :: done) implicit ps) := fun {t implicit} =>
      (length_paramTypes ps).mono fun r hr => by
        rw [hr, List.length_cons, List.length_cons]
        omega
    rw [paramTypes]
    split
    · split
      · exact .bind .any fun _ _ => .bind .any fun _ _ => .bind .any fun _ _ => hnext
      · exact .bind .any fun _ _ => .bind .any fun _ _ => hnext
    · exact .bind .any fun _ _ => hnext

theorem signed_resolveDeep {params : List Ty} {result : Ty} {implicit : Nat} :
    Makes (fun t => ∃ types result', t = .fn types result' implicit ∧ types.length = params.length)
      (resolveDeep (.fn params result implicit)) :=
  fun s _ => ⟨trivial, s.table.resolveDeep_fn params result implicit⟩

theorem signed_function {head : FnHead} {body : Ty → Check (List Decl)} :
    Makes (fun r => r.1.Signed) (function head body) := by
  unfold function
  refine .bind .any fun _ _ => .bind .any fun _ _ => .bind .any fun _ _ => ?_
  refine .bind (length_paramTypes head.params) fun r hlength => ?_
  obtain ⟨params, implicit⟩ := r
  refine .bind .any fun result _ => .bind .any fun _ _ => .bind .any fun _ _ => ?_
  refine .bind .any fun loopDepth _ => .bind .any fun body' _ => ?_
  refine .bind .any fun _ _ => .bind .any fun _ _ => .bind .any fun _ _ => ?_
  refine .bind signed_resolveDeep fun signature hsignature => .bind .any fun _ _ => ?_
  obtain ⟨types, result', rfl, htypes⟩ := hsignature
  refine .pure ⟨types, result', implicit, rfl, htypes.trans (hlength.trans ?_)⟩
  rw [List.length_nil, Nat.zero_add]

section heads

variable {P : FnHead → Prop}

/-- Checking a function answers one with the property. -/
def MakesHeads (P : FnHead → Prop) : Prop :=
  ∀ {head : FnHead} {body : Ty → Check (List Decl)}, Makes (fun r => P r.1) (function head body)

theorem heads_function {head : FnHead} {body : Ty → Check (List Decl)} (hP : MakesHeads P)
    (hbody : ∀ t, Makes (Decl.HeadsList P) (body t)) :
    Makes (fun r => P r.1 ∧ Decl.HeadsList P r.2) (function head body) := by
  refine hP.and ?_
  unfold function
  refine .bind .any fun _ _ => .bind .any fun _ _ => .bind .any fun _ _ => .bind .any fun _ _ => ?_
  refine .bind .any fun result _ => .bind .any fun _ _ => .bind .any fun _ _ => ?_
  refine .bind .any fun loopDepth _ => .bind (hbody result) fun body' hbody' => ?_
  refine .bind .any fun _ _ => .bind .any fun _ _ => .bind .any fun _ _ => ?_
  exact .bind .any fun _ _ => .bind .any fun _ _ => .pure hbody'

theorem heads_inBlock {t : Ty} {body : List Decl} {span : Span} {declarations : Check (List Decl)}
    (h : Makes (Decl.HeadsList P) declarations) :
    Makes (Decl.HeadsList P) (inBlock t body span declarations) := by
  have hrest : Makes (Decl.HeadsList P) (do
      let body ← declarations
      popScope
      return body) :=
    .bind h fun _ hbody => .bind .any fun _ _ => .pure hbody
  unfold inBlock
  refine .bind .any fun _ _ => .bind .any fun _ _ => ?_
  split
  · exact .bind .any fun _ _ => hrest
  · exact hrest

mutual

theorem heads_stmt (hP : MakesHeads P) : (s : Stmt) → ∀ {t : Ty}, Makes (Stmt.Heads P) (stmt t s)
  | .empty span, t => by
    rw [stmt]
    exact .bind .any fun _ _ => .pure trivial
  | .block body span, t => by
    rw [stmt]
    exact .bind (heads_inBlock (heads_decls hP body nofun)) fun _ hbody => .pure hbody
  | .ret value span, t => by
    rw [stmt]
    refine .bind .any fun s _ => ?_
    split
    · exact .fail _ _
    · split
      · exact .bind .any fun _ _ => .pure trivial
      · exact .bind .any fun _ _ => .pure trivial
  | .cond c s none span, t => by
    rw [stmt]
    refine .bind .any fun _ _ => .bind .any fun _ _ => .bind (heads_stmt hP s) fun _ hs => ?_
    exact .bind .any fun _ _ => .pure hs
  | .cond c s (some alternate) span, t => by
    rw [stmt]
    refine .bind .any fun _ _ => .bind (heads_stmt hP s) fun _ hs => ?_
    exact .bind (heads_stmt hP alternate) fun _ ha => .pure ⟨hs, ha⟩
  | .whileLoop c body span, t => by
    rw [stmt]
    refine .bind .any fun _ _ => .bind .any fun _ _ => .bind .any fun _ _ => ?_
    refine .bind (heads_stmt hP body) fun _ hbody => .bind .any fun _ _ => ?_
    split
    · exact .pure hbody
    · exact .bind .any fun _ _ => .pure hbody
  | .forLoop init c increment body span, t => by
    rw [stmt]
    refine .bind .any fun _ _ => .bind .any fun _ _ => .bind .any fun _ _ => ?_
    refine .bind .any fun _ _ => .bind .any fun _ _ => .bind .any fun _ _ => ?_
    refine .bind (heads_stmt hP body) fun _ hbody => .bind .any fun _ _ => .bind .any fun _ _ => ?_
    split
    · exact .pure hbody
    · exact .bind .any fun _ _ => .pure hbody
  | .breakLoop span, t => by
    rw [stmt]
    exact .bind .any fun _ _ => .pure trivial
  | .continueLoop span, t => by
    rw [stmt]
    exact .bind .any fun _ _ => .pure trivial
  | .cases scrutinee cs none span, t => by
    rw [stmt]
    refine .bind .any fun r _ => ?_
    exact .bind (heads_matchCases hP cs nofun) fun _ hcs => .pure hcs
  | .cases scrutinee cs (some default) span, t => by
    rw [stmt]
    refine .bind .any fun r _ => .bind (heads_matchCases hP cs nofun) fun _ hcs => ?_
    exact .bind (heads_stmt hP default) fun _ hs => .pure ⟨hcs, hs⟩
  | .expr e, t => by
    rw [stmt]
    exact .bind .any fun _ _ => .pure trivial

theorem heads_matchCases (hP : MakesHeads P) : (cs : List (Pattern × Stmt)) → ∀ {t scrutinee : Ty}
    {done : List (Pattern × Stmt)}, (∀ c ∈ done, c.2.Heads P) →
    Makes (Stmt.HeadsCases P) (matchCases t scrutinee done cs)
  | [], t, scrutinee, done, hdone => by
    rw [matchCases]
    exact .pure (Stmt.headsCases_iff.mpr fun c hc => hdone c (List.mem_reverse.mp hc))
  | (p, s) :: cs, t, scrutinee, done, hdone => by
    rw [matchCases]
    refine .bind .any fun _ _ => .bind .any fun _ _ => .bind (heads_stmt hP s) fun s' hs' => ?_
    exact .bind .any fun _ _ => heads_matchCases hP cs (List.forall_mem_cons.mpr ⟨hs', hdone⟩)

theorem heads_decls (hP : MakesHeads P) : (ds : List Decl) → ∀ {t : Ty} {done : List Decl},
    (∀ d ∈ done, d.Heads P) → Makes (Decl.HeadsList P) (decls t done ds)
  | [], t, done, hdone => by
    rw [decls]
    exact .pure (Decl.headsList_iff.mpr fun d hd => hdone d (List.mem_reverse.mp hd))
  | d :: ds, t, done, hdone => by
    rw [decls]
    refine .bind .any fun _ _ => .bind (heads_decl hP d) fun d' hd => ?_
    exact heads_decls hP ds (List.forall_mem_cons.mpr ⟨hd, hdone⟩)

/-- Checking a declaration answers one all of whose functions have the property. -/
theorem heads_decl (hP : MakesHeads P) : (d : Decl) → ∀ {t : Ty}, Makes (Decl.Heads P) (decl t d)
  | .letDecl d, t => by
    rw [decl]
    exact .bind .any fun _ _ => .bind .any fun _ _ => .pure trivial
  | .fn head body, t => by
    rw [decl]
    refine .bind (heads_function hP fun u => heads_inBlock (heads_decls hP body nofun)) fun r hr => ?_
    exact .bind .any fun _ _ => .pure hr
  | .stmt s, t => by
    rw [decl]
    exact .bind (heads_stmt hP s) fun _ hs => .pure hs

end

end heads

end Check

/-! ## Final types -/

theorem FnHead.signed_finish {head : FnHead} (h : head.Signed) :
    Answers FnHead.Signed head.finish := by
  obtain ⟨types, result, implicit, hsignature, hlength⟩ := h
  intro T
  obtain ⟨types', result', heq, hlength'⟩ := T.resolveDeep_fn types result implicit
  refine ⟨types', result', implicit, ?_, hlength'.trans hlength⟩
  rw [finish, hsignature]
  exact congrArg some heq

mutual

theorem Stmt.signed_finish : (s : Stmt) → s.Heads FnHead.Signed →
    Answers (Stmt.Heads FnHead.Signed) s.finish
  | .empty span, _ => by
    rw [Stmt.finish]
    exact .pure trivial
  | .block body span, h => by
    rw [Stmt.finish]
    exact .bind (Decl.signed_finishDecls body h nofun) fun _ hbody => .pure hbody
  | .ret value span, _ => by
    rw [Stmt.finish]
    exact .bind .any fun _ _ => .pure trivial
  | .cond c s none span, h => by
    rw [Stmt.finish]
    exact .bind .any fun _ _ => .bind (Stmt.signed_finish s h) fun _ hs => .pure hs
  | .cond c s (some t) span, h => by
    rw [Stmt.finish]
    refine .bind .any fun _ _ => .bind (Stmt.signed_finish s h.1) fun _ hs => ?_
    exact .bind (Stmt.signed_finish t h.2) fun _ ht => .pure ⟨hs, ht⟩
  | .whileLoop c body span, h => by
    rw [Stmt.finish]
    exact .bind .any fun _ _ => .bind (Stmt.signed_finish body h) fun _ hbody => .pure hbody
  | .forLoop init c increment body span, h => by
    rw [Stmt.finish]
    refine .bind .any fun _ _ => .bind .any fun _ _ => .bind .any fun _ _ => ?_
    exact .bind (Stmt.signed_finish body h) fun _ hbody => .pure hbody
  | .breakLoop span, _ => by
    rw [Stmt.finish]
    exact .pure trivial
  | .continueLoop span, _ => by
    rw [Stmt.finish]
    exact .pure trivial
  | .cases scrutinee cs none span, h => by
    rw [Stmt.finish]
    exact .bind .any fun _ _ => .bind (Stmt.signed_finishCases cs h nofun) fun _ hcs => .pure hcs
  | .cases scrutinee cs (some default) span, h => by
    rw [Stmt.finish]
    refine .bind .any fun _ _ => .bind (Stmt.signed_finishCases cs h.1 nofun) fun _ hcs => ?_
    exact .bind (Stmt.signed_finish default h.2) fun _ hd => .pure ⟨hcs, hd⟩
  | .expr e, _ => by
    rw [Stmt.finish]
    exact .bind .any fun _ _ => .pure trivial

theorem Stmt.signed_finishCases : (cs : List (Pattern × Stmt)) → Stmt.HeadsCases FnHead.Signed cs →
    ∀ {done : List (Pattern × Stmt)}, (∀ c ∈ done, c.2.Heads FnHead.Signed) →
    Answers (Stmt.HeadsCases FnHead.Signed) (finishCases done cs)
  | [], _, done, hdone => by
    rw [finishCases]
    exact .pure (Stmt.headsCases_iff.mpr fun c hc => hdone c (List.mem_reverse.mp hc))
  | (p, s) :: cs, h, done, hdone => by
    rw [finishCases]
    refine .bind (Stmt.signed_finish s h.1) fun _ hs => ?_
    exact Stmt.signed_finishCases cs h.2 (List.forall_mem_cons.mpr ⟨hs, hdone⟩)

theorem Decl.signed_finishDecls : (ds : List Decl) → Decl.HeadsList FnHead.Signed ds →
    ∀ {done : List Decl}, (∀ d ∈ done, d.Heads FnHead.Signed) →
    Answers (Decl.HeadsList FnHead.Signed) (finishDecls done ds)
  | [], _, done, hdone => by
    rw [finishDecls]
    exact .pure (Decl.headsList_iff.mpr fun d hd => hdone d (List.mem_reverse.mp hd))
  | d :: ds, h, done, hdone => by
    rw [finishDecls]
    refine .bind (Decl.signed_finish d h.1) fun _ hd => ?_
    exact Decl.signed_finishDecls ds h.2 (List.forall_mem_cons.mpr ⟨hd, hdone⟩)

/-- Final types keep signatures. -/
theorem Decl.signed_finish : (d : Decl) → d.Heads FnHead.Signed →
    Answers (Decl.Heads FnHead.Signed) d.finish
  | .letDecl d, _ => by
    rw [Decl.finish]
    exact .bind .any fun _ _ => .pure trivial
  | .fn head body, h => by
    rw [Decl.finish]
    refine .bind (FnHead.signed_finish h.1) fun _ hhead => ?_
    exact .bind (Decl.signed_finishDecls body h.2 nofun) fun _ hbody => .pure ⟨hhead, hbody⟩
  | .stmt s, h => by
    rw [Decl.finish]
    exact .bind (Stmt.signed_finish s h) fun _ hs => .pure hs

end

/-! ## Programs -/

namespace Checker

theorem heads_checkDecls {P : FnHead → Prop} (hP : Check.MakesHeads P) (ds : Program) (index : Nat)
    (s : Checker) {done : List (Decl × Bool)} (hdone : ∀ d ∈ done, d.2 = true → d.1.Heads P) :
    ∀ d ∈ (checkDecls index done ds s).1, d.2 = true → d.1.Heads P := by
  induction ds generalizing index done s with
  | nil => exact fun d hd => hdone d (List.mem_reverse.mp hd)
  | cons d ds ih =>
    have htop : Check.Makes (Decl.Heads P) (checkTopLevel d) :=
      .bind .any fun t _ => Check.heads_decl hP d
    have h1 := htop s trivial
    rw [checkDecls]
    cases hact : checkTopLevel d s with
    | ok d' s' =>
      rw [hact] at h1
      exact ih _ _ (List.forall_mem_cons.mpr ⟨fun _ => h1.2, hdone⟩)
    | error e s' => exact ih _ _ (List.forall_mem_cons.mpr ⟨(absurd · Bool.false_ne_true), hdone⟩)

theorem signed_finishAccepted (ds : List (Decl × Bool))
    (hds : ∀ d ∈ ds, d.2 = true → d.1.Heads FnHead.Signed) {done : List (Decl × Bool)}
    (hdone : ∀ d ∈ done, d.2 = true → d.1.Heads FnHead.Signed) :
    Answers (fun ds' => ∀ d ∈ ds', d.2 = true → d.1.Heads FnHead.Signed)
      (finishAccepted done ds) := by
  induction ds generalizing done with
  | nil => exact .pure fun d hd => hdone d (List.mem_reverse.mp hd)
  | cons d ds ih =>
    obtain ⟨d, accepted⟩ := d
    obtain ⟨hd, hrest⟩ := List.forall_mem_cons.mp hds
    rw [finishAccepted]
    cases accepted with
    | true =>
      refine .bind (Decl.signed_finish d (hd rfl)) fun d' hd' => ?_
      exact ih hrest (List.forall_mem_cons.mpr ⟨fun _ => hd', hdone⟩)
    | false =>
      refine .bind .any fun d' _ => ?_
      exact ih hrest (List.forall_mem_cons.mpr ⟨(absurd · Bool.false_ne_true), hdone⟩)

/-- **All functions in the accepted declarations of a checked program have signatures.** -/
theorem signed_accepted (s : Checker) (program : Program) :
    Decl.HeadsList FnHead.Signed
      ((s.checkProgram program).1.program.accepted (s.checkProgram program).1.rejected) := by
  have hnone : ∀ d ∈ ([] : List (Decl × Bool)), d.2 = true → d.1.Heads FnHead.Signed := by simp
  have hchecked := heads_checkDecls Check.signed_function program 0 (s.after (openProgram program)) hnone
  refine Decl.headsList_iff.mpr fun d hd => ?_
  exact signed_finishAccepted _ hchecked hnone _ _ (exists_of_mem_accepted hd) rfl

end Checker

end Reified
