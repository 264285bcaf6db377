import Reified.Proofs.Completion.Falls

/-!
# Every declaration has its code

The code of the declarations and statements inside a statement is a part of the code of the statement, but for
the bodies of functions, which are code of a nested block. So wherever a declaration of a program is, in blocks,
branches, loops, cases or functions, its code is in the block of the program or in one nested in it.

## Main definitions

* `Decl.inner` — the parts of a declaration that have code of their own
* `Site.Has`, `Site.Creates` — the code of a declaration, the creation of a function

## Main results

* `Site.Emitted.inner`, `Site.Emitted.function` — the code of the parts
-/

namespace Reified

open Lower

/-! ## Parts of a statement -/

/-- The parts of a statement with code of their own, in the same block. -/
def Stmt.inner : Stmt → List Decl
  | .block body _ => body
  | .cond _ s t _ => .stmt s :: t.toList.map .stmt
  | .whileLoop _ body _ => [.stmt body]
  | .forLoop (some (.letDecl d)) _ _ body _ => [.letDecl d, .stmt body]
  | .forLoop _ _ _ body _ => [.stmt body]
  | .cases _ cs default _ => cs.map (fun c => .stmt c.2) ++ default.toList.map .stmt
  | _ => []

namespace Site

/-- The declaration has its code in the block of the last builder. -/
def Has (F : Builder) (d : Decl) : Prop := ∃ y : Site, y.Emitted ∧ y.declaration = d ∧ y.last = F

/-- The body of a function is the code of the block, which is left with what the body leaves in its register. -/
def Runs (F : Builder) (body : List Decl) : Prop :=
  ∃ y : Site, y.Emitted ∧ y.declaration = .stmt (.block body default) ∧ y.last = F ∧
    F.finish.code[y.stop]? = some (.leave y.register)

/-- A function is created in the block of a builder; its own block is that of another one, and the body is the
code of this block. -/
structure Creates (F : Builder) (head : FnHead) (body : List Decl) (F' : Builder) : Prop where
  instruction : ∃ (q : Nat) (r : Register) (i : UInt32), F.finish.code[q]? = some (.newFunction r i) ∧
    F.finish.function? i = some F'.finish ∧ r.index < F.finish.registerCount.toNat
  block : ∃ checks b b', functionBlock checks head (fnBody body) b = .ok F'.finish b'
  runs : Runs F' body

theorem Creates.mem {F F' : Builder} {head : FnHead} {body : List Decl} (h : Creates F head body F') :
    F'.finish ∈ F.finish.functions := by
  obtain ⟨-, -, i, -, hi, -⟩ := h.instruction
  exact Array.mem_of_getElem? hi

variable {F b b' : Builder} {p : Place} {dst : Register}

theorem Has.intro {d : Decl} (h : decl p d dst b = .ok () b') (hF : b'.Before F)
    (hlabels : ∀ l ∈ p.labels, l.number < b.labels.size) (hfits : F.finish.Fits) : Has F d :=
  ⟨⟨p, d, dst, b, b', F⟩, ⟨h, hF, hlabels, hfits⟩, rfl, rfl⟩

theorem Has.of_stmt {s : Stmt} (h : stmt p s dst b = .ok () b') (hF : b'.Before F)
    (hlabels : ∀ l ∈ p.labels, l.number < b.labels.size) (hfits : F.finish.Fits) : Has F (.stmt s) :=
  .intro (by rwa [decl]) hF hlabels hfits

/-- The declarations of a list, in turn. -/
theorem has_decls (hfits : F.finish.Fits) : (ds : List Decl) → ∀ {b b' : Builder},
    decls p ds dst b = .ok () b' → b'.Before F → (∀ l ∈ p.labels, l.number < b.labels.size) →
    ∀ d ∈ ds, Has F d
  | [], _, _, _, _, _ => List.forall_mem_nil _
  | d :: ds, b, b', h, hF, hlabels => by
    rw [decls] at h
    obtain ⟨m, b₁, h₁, h⟩ := bind_eq_ok h
    obtain ⟨_, b₂, h₂, h⟩ := bind_eq_ok h
    obtain ⟨_, b₃, h₃, h₄⟩ := bind_eq_ok h
    obtain ⟨rfl, rfl⟩ := mark_spec h₁
    have hx₂ := Tame.extends (fun _ _ => safe_decl d p dst) h₂
    have hF₃ := Tame.before (fun _ _ => safe_decls ds p dst) h₄ hF
    obtain ⟨hF₂, -, -⟩ := release_spec h₃ hF₃
    have hsize₃ : b₃.labels = b₂.labels := by
      cases h₃
      rfl
    exact List.forall_mem_cons.mpr ⟨.intro h₂ hF₂ hlabels hfits,
      has_decls hfits ds h₄ hF fun l hl => hsize₃ ▸ Nat.lt_of_lt_of_le (hlabels l hl) hx₂.size⟩

/-- The labels of a loop are there before its body. -/
theorem inLoop_labels {exit next : Label} {n : Nat} (hexit : exit.number < n) (hnext : next.number < n) :
    ∀ l ∈ (p.inLoop exit next).labels, l.number < n :=
  List.forall_mem_cons.mpr ⟨hexit, List.forall_mem_singleton.mpr hnext⟩

/-- The body of a loop. -/
theorem Has.of_loopBody {s : Stmt} (h : loopBody (fun scratch => stmt p s scratch) b = .ok () b')
    (hF : b'.Before F) (hlabels : ∀ l ∈ p.labels, l.number < b.labels.size) (hfits : F.finish.Fits) :
    Has F (.stmt s) := by
  obtain ⟨m, b₁, h₁, h⟩ := bind_eq_ok h
  obtain ⟨scratch, b₂, h₂, h⟩ := bind_eq_ok h
  obtain ⟨_, b₃, h₃, h₄⟩ := bind_eq_ok h
  obtain ⟨rfl, rfl⟩ := mark_spec h₁
  have hx₂ := Tame.extends (fun _ _ => Safe.allocate) h₂
  exact .of_stmt h₃ (release_spec h₄ hF).1 (fun l hl => Nat.lt_of_lt_of_le (hlabels l hl) hx₂.size) hfits

/-- The cases of a match. -/
theorem has_matchCases (hfits : F.finish.Fits) {scrutinee : Register} {done : Label} :
    (cs : List (Pattern × Stmt)) → ∀ {b b' : Builder}, matchCases p scrutinee done cs dst b = .ok () b' →
    b'.Before F → (∀ l ∈ p.labels, l.number < b.labels.size) → ∀ c ∈ cs, Has F (.stmt c.2)
  | [], _, _, _, _, _ => List.forall_mem_nil _
  | (pat, s) :: cs, b, b', h, hF, hlabels => by
    rw [matchCases] at h
    obtain ⟨m, b₀, h₀, h⟩ := bind_eq_ok h
    obtain ⟨failed, b₁, h₁, h⟩ := bind_eq_ok h
    obtain ⟨_, b₂, h₂, h⟩ := bind_eq_ok h
    obtain ⟨_, b₃, h₃, h⟩ := bind_eq_ok h
    obtain ⟨_, b₄, h₄, h⟩ := bind_eq_ok h
    obtain ⟨_, b₅, h₅, h⟩ := bind_eq_ok h
    obtain ⟨_, b₆, h₆, h⟩ := bind_eq_ok h
    obtain ⟨_, b₇, h₇, h⟩ := bind_eq_ok h
    obtain ⟨_, b₈, h₈, h⟩ := bind_eq_ok h
    obtain ⟨_, b₉, h₉, h₁₀⟩ := bind_eq_ok h
    obtain ⟨rfl, rfl⟩ := mark_spec h₀
    have hx₁ := newLabel_extends h₁
    have hx₂ := Tame.extends (fun _ _ => Safe.emit _) h₂
    have hx₃ := Tame.extends (fun _ _ => safe_pattern pat scrutinee failed) h₃
    have hx₄ := Tame.extends (fun _ _ => safe_stmt s p.deeper dst) h₄
    have hx₅ := Tame.extends (fun _ _ => Safe.emit _) h₅
    have hx₆ := Tame.extends (fun _ _ => Safe.jump done) h₆
    have hF₉ := Tame.before (fun _ _ => safe_matchCases cs p scrutinee done dst) h₁₀ hF
    have hF₈ := (release_spec h₉ hF₉).1
    have hF₇ := (emit_spec h₈ hF₈).1
    have hfailed := hx₆.unbound (hx₅.unbound (hx₄.unbound (hx₃.unbound (hx₂.unbound
      (newLabel_unbound h₁).1))))
    have hF₆ := (bind_spec h₇ hfailed hF₇ hfits).1
    have hF₄ := (hx₅.before.trans hx₆.before).trans hF₆
    have hsize₃ := ((hx₁.size.trans hx₂.size).trans hx₃.size)
    refine List.forall_mem_cons.mpr ⟨.of_stmt h₄ hF₄ (fun l hl => Nat.lt_of_lt_of_le (hlabels l hl) hsize₃)
      hfits, has_matchCases hfits cs h₁₀ hF fun l hl => Nat.lt_of_lt_of_le (hlabels l hl) ?_⟩
    have hsize₉ : b₉.labels.size = b₇.labels.size := by
      cases h₉
      cases h₈
      rfl
    exact (hsize₉.trans (size_labels_bind h₇)) ▸ (((hsize₃.trans hx₄.size).trans hx₅.size).trans hx₆.size)

/-- The body of a function has its code in the block of the function. -/
theorem has_body {checks : Bool} {head : FnHead} {body : List Decl} {B : Block}
    (h : functionBlock checks head (fnBody body) b = .ok B b') (hfits : B.Fits) :
    ∃ F, B = F.finish ∧ Runs F body := by
  obtain ⟨types, result, implicit, F, -, hcode, rfl⟩ := functionBlock_spec h
  obtain ⟨b₁, b₂, b₃, b₄, b₅, value, -, -, -, -, hbody, hleave⟩ := functionCode_spec hcode
  let place : Place := ⟨checks, implicitParams [] (types.take implicit), 0, none⟩
  have hdecl : decl place (.stmt (.block body default)) value b₄ = .ok () b₅ := by
    rw [decl, stmt]
    exact hbody
  obtain ⟨hF₅, hcode, -, -⟩ := emit_spec hleave (.refl F)
  exact ⟨F, rfl, ⟨place, _, value, b₄, b₅, F⟩, ⟨hdecl, hF₅, nofun, hfits⟩, rfl, rfl, hcode⟩

/-- The functions among some declarations are created in the block. -/
theorem has_functions (hfits : F.finish.Fits) : (ds : List Decl) → ∀ {b b' : Builder},
    functions p ds b = .ok () b' → b'.Before F → ∀ head body, .fn head body ∈ ds → ∃ F', Creates F head body F'
  | [], _, _, _, _ => fun _ _ h => absurd h List.not_mem_nil
  | .letDecl d :: ds, b, b', h, hF => by
    rw [functions_letDecl] at h
    intro head body hmem
    exact has_functions hfits ds h hF head body ((List.mem_cons.mp hmem).resolve_left fun h => by cases h)
  | .stmt s :: ds, b, b', h, hF => by
    rw [functions_stmt] at h
    intro head body hmem
    exact has_functions hfits ds h hF head body ((List.mem_cons.mp hmem).resolve_left fun h => by cases h)
  | .fn head body :: ds, b, b', h, hF => by
    rw [functions] at h
    obtain ⟨B, b₁, hB, h⟩ := bind_eq_ok h
    obtain ⟨_, b₂, hcreate, hrest⟩ := bind_eq_ok h
    have hF₂ := Tame.before (fun _ _ => safe_functions ds p) hrest hF
    obtain ⟨j, b₃, h₃, hcreate⟩ := bind_eq_ok hcreate
    obtain ⟨m, b₄, h₄, hcreate⟩ := bind_eq_ok hcreate
    obtain ⟨r, b₅, h₅, hcreate⟩ := bind_eq_ok hcreate
    obtain ⟨_, b₆, h₆, hcreate⟩ := bind_eq_ok hcreate
    obtain ⟨x, b₇, h₇, hcreate⟩ := bind_eq_ok hcreate
    obtain ⟨_, b₈, h₈, h₉⟩ := bind_eq_ok hcreate
    obtain ⟨rfl, rfl⟩ := mark_spec h₄
    obtain ⟨hF₈, -⟩ := release_spec h₉ hF₂
    obtain ⟨hF₇, -⟩ := emit_spec h₈ hF₈
    obtain ⟨hF₆, -⟩ := identifier_spec h₇ hF₇ hfits
    obtain ⟨hF₅, hcode, -⟩ := emit_spec h₆ hF₆
    obtain ⟨hF₃, hindex, -, -, hfile, -⟩ := allocate_spec h₅ hF₅
    obtain ⟨-, hj, -⟩ := function_spec h₃ hF₃ hfits
    intro head' body' hfn
    rcases List.mem_cons.mp hfn with heq | hfn
    · cases heq
      obtain ⟨F', rfl, hbody⟩ := has_body hB (hfits.of_mem (Array.mem_of_getElem? hj))
      exact ⟨F', ⟨_, r, j, hcode, hj, hindex ▸ hfile⟩, ⟨_, _, _, hB⟩, hbody⟩
    · exact has_functions hfits ds hrest hF head' body' hfn

/-- The code of a list of declarations: the functions are created, and all declarations have their code. -/
theorem has_body_of {ds : List Decl} (hfits : F.finish.Fits) (h : Lower.body p ds dst b = .ok () b')
    (hF : b'.Before F) (hlabels : ∀ l ∈ p.labels, l.number < b.labels.size) :
    (∀ d ∈ ds, Has F d) ∧ ∀ head body, .fn head body ∈ ds → ∃ F', Creates F head body F' := by
  obtain ⟨_, b₁, h₁, h₂⟩ := bind_eq_ok h
  have hx₁ := Tame.extends (fun _ _ => safe_functions ds p) h₁
  have hF₁ : b₁.Before F := Tame.before (fun _ _ => .ite (.loadUnit dst) (safe_decls ds p dst)) h₂ hF
  refine ⟨?_, has_functions hfits ds h₁ hF₁⟩
  cases ds with
  | nil => exact List.forall_mem_nil _
  | cons d ds =>
    exact has_decls hfits _ h₂ hF fun l hl => Nat.lt_of_lt_of_le (hlabels l hl) hx₁.size

/-- The body of a `while` loop. -/
theorem has_whileLoop {c : Expr} {body : Stmt} {span : Span}
    (h : stmt p (.whileLoop c body span) dst b = .ok () b') (hF : b'.Before F) (hfits : F.finish.Fits) :
    Has F (.stmt body) := by
  rw [stmt] at h
  obtain ⟨first, b₁, h₁, h⟩ := bind_eq_ok h
  obtain ⟨exit, b₂, h₂, h⟩ := bind_eq_ok h
  obtain ⟨_, b₃, h₃, h⟩ := bind_eq_ok h
  obtain ⟨r, b₄, h₄, h⟩ := bind_eq_ok h
  obtain ⟨_, b₅, h₅, h⟩ := bind_eq_ok h
  obtain ⟨_, b₆, h₆, h⟩ := bind_eq_ok h
  obtain ⟨_, b₇, h₇, h⟩ := bind_eq_ok h
  obtain ⟨_, b₈, h₈, h⟩ := bind_eq_ok h
  obtain ⟨_, b₉, h₉, h₁₀⟩ := bind_eq_ok h
  have hx₂ := newLabel_extends h₂
  have hx₄ := Tame.extends (fun _ _ => Safe.allocate) h₄
  have hx₅ := Tame.extends (fun _ _ => safe_expr c r) h₅
  have hx₆ := Tame.extends (fun _ _ => Safe.jumpIfFalse r exit) h₆
  have hx₇ := Tame.extends (fun _ _ => safe_loopBody fun r => safe_stmt body _ r) h₇
  have hx₈ := Tame.extends (fun _ _ => Safe.jump first) h₈
  obtain ⟨hfirst₁, -⟩ := newLabel_unbound h₁
  obtain ⟨hexit₂, hnumber₂⟩ := newLabel_unbound h₂
  have hlt₁ := hfirst₁.lt
  have hlt₂ := hexit₂.lt
  have hexit₆ := hx₆.unbound (hx₅.unbound (hx₄.unbound (bind_unbound h₃ hexit₂ (by omega))))
  have hF₉ := Tame.before (fun _ _ => Safe.loadUnit dst) h₁₀ hF
  obtain ⟨hF₈, -⟩ := bind_spec h₉ (hx₈.unbound (hx₇.unbound hexit₆)) hF₉ hfits
  have hsize₂ := hx₂.size
  have hsize₃ := size_labels_bind h₃
  have hsize₆ := (hx₄.size.trans hx₅.size).trans hx₆.size
  exact .of_loopBody h₇ (hx₈.before.trans hF₈) (inLoop_labels (by omega) (by omega)) hfits

/-- The variable and the body of a `for` loop. -/
theorem has_forLoop {init : Option ForInit} {c increment : Option Expr} {body : Stmt} {span : Span}
    (h : stmt p (.forLoop init c increment body span) dst b = .ok () b') (hF : b'.Before F)
    (hlabels : ∀ l ∈ p.labels, l.number < b.labels.size) (hfits : F.finish.Fits) :
    Has F (.stmt body) ∧ ∀ d, init = some (.letDecl d) → Has F (.letDecl d) := by
  rw [stmt] at h
  obtain ⟨_, b₁, h₁, h⟩ := bind_eq_ok h
  obtain ⟨r, b₂, h₂, h⟩ := bind_eq_ok h
  obtain ⟨_, b₃, h₃, h⟩ := bind_eq_ok h
  obtain ⟨first, b₄, h₄, h⟩ := bind_eq_ok h
  obtain ⟨next, b₅, h₅, h⟩ := bind_eq_ok h
  obtain ⟨exit, b₆, h₆, h⟩ := bind_eq_ok h
  obtain ⟨_, b₇, h₇, h⟩ := bind_eq_ok h
  obtain ⟨_, b₈, h₈, h⟩ := bind_eq_ok h
  obtain ⟨_, b₉, h₉, h⟩ := bind_eq_ok h
  obtain ⟨_, b₁₀, h₁₀, h⟩ := bind_eq_ok h
  obtain ⟨_, b₁₁, h₁₁, h⟩ := bind_eq_ok h
  obtain ⟨_, b₁₂, h₁₂, h⟩ := bind_eq_ok h
  obtain ⟨_, b₁₃, h₁₃, h⟩ := bind_eq_ok h
  obtain ⟨_, b₁₄, h₁₄, h₁₅⟩ := bind_eq_ok h
  have hx₁ := Tame.extends (fun _ _ => Safe.emit _) h₁
  have hx₂ := Tame.extends (fun _ _ => Safe.allocate) h₂
  have hx₅ := newLabel_extends h₅
  have hx₆ := newLabel_extends h₆
  have hx₈ := Tame.extends (fun _ _ => safe_loopTest r exit c) h₈
  have hx₉ := Tame.extends (fun _ _ => safe_loopBody fun r => safe_stmt body _ r) h₉
  have hx₁₁ := Tame.extends (fun _ _ => safe_forNext r increment) h₁₁
  have hx₁₂ := Tame.extends (fun _ _ => Safe.jump first) h₁₂
  obtain ⟨hfirst₄, hnumber₄⟩ := newLabel_unbound h₄
  obtain ⟨hnext₅, hnumber₅⟩ := newLabel_unbound h₅
  obtain ⟨hexit₆, hnumber₆⟩ := newLabel_unbound h₆
  have hlt₄ := hfirst₄.lt
  have hlt₅ := hnext₅.lt
  have hlt₆ := hexit₆.lt
  have hsize₅ := hx₅.size
  have hfirst := hx₆.unbound (hx₅.unbound hfirst₄)
  have hnext := hx₉.unbound (hx₈.unbound (bind_unbound h₇ (hx₆.unbound hnext₅) (by omega)))
  have hexit := hx₁₂.unbound (hx₁₁.unbound (bind_unbound h₁₀
    (hx₉.unbound (hx₈.unbound (bind_unbound h₇ hexit₆ (by omega)))) (by omega)))
  have hF₁₄ := Tame.before (fun _ _ => Safe.loadUnit dst) h₁₅ hF
  obtain ⟨hF₁₂, -⟩ := bind_spec h₁₃ hexit (emit_spec h₁₄ hF₁₄).1 hfits
  have hF₁₀ := (hx₁₁.before.trans hx₁₂.before).trans hF₁₂
  obtain ⟨hF₉, -⟩ := bind_spec h₁₀ hnext hF₁₀ hfits
  obtain ⟨hF₆, -⟩ := bind_spec h₇ hfirst ((hx₈.before.trans hx₉.before).trans hF₉) hfits
  have hF₃ := (newLabel_spec h₄ (newLabel_spec h₅ (newLabel_spec h₆ hF₆).1).1).1
  have hsize₇ := size_labels_bind h₇
  have hsize₈ := hx₈.size
  refine ⟨.of_loopBody h₉ hF₉ (inLoop_labels (by omega) (by omega)) hfits, fun d hd => ?_⟩
  subst hd
  have hinit : decl p.deeper (.letDecl d) r b₂ = .ok () b₃ := by
    rw [decl]
    exact h₃
  exact .intro hinit hF₃ (fun l hl => Nat.lt_of_lt_of_le (hlabels l hl) (hx₁.size.trans hx₂.size)) hfits

/-- The cases of a match, and what is executed if none matches. -/
theorem has_cases {scrutinee : Expr} {cs : List (Pattern × Stmt)} {rest : Lower Unit} (hrest : Tame rest)
    (h : (do
      let r ← allocate
      expr p.implicit scrutinee r
      let done ← newLabel
      matchCases p r done cs dst
      rest
      Lower.bind done) b = .ok () b') (hF : b'.Before F)
    (hlabels : ∀ l ∈ p.labels, l.number < b.labels.size) (hfits : F.finish.Fits) :
    (∀ d ∈ cs.map (fun c => Decl.stmt c.2), Has F d) ∧
      ∃ b₁ b₂, rest b₁ = .ok () b₂ ∧ b₂.Before F ∧ b.labels.size ≤ b₁.labels.size := by
  obtain ⟨r, b₁, h₁, h⟩ := bind_eq_ok h
  obtain ⟨_, b₂, h₂, h⟩ := bind_eq_ok h
  obtain ⟨done, b₃, h₃, h⟩ := bind_eq_ok h
  obtain ⟨_, b₄, h₄, h⟩ := bind_eq_ok h
  obtain ⟨_, b₅, h₅, h₆⟩ := bind_eq_ok h
  have hx₁ := Tame.extends (fun _ _ => Safe.allocate) h₁
  have hx₂ := Tame.extends (fun _ _ => safe_expr scrutinee r) h₂
  have hx₃ := newLabel_extends h₃
  have hx₄ := Tame.extends (fun _ _ => safe_matchCases cs p r done dst) h₄
  have hx₅ := hrest.extends h₅
  have hdone := hx₅.unbound (hx₄.unbound (newLabel_unbound h₃).1)
  obtain ⟨hF₅, -⟩ := bind_spec h₆ hdone hF hfits
  have hsize₃ := (hx₁.size.trans hx₂.size).trans hx₃.size
  refine ⟨List.forall_mem_map.mpr ?_, b₄, b₅, h₅, hF₅, hsize₃.trans hx₄.size⟩
  exact has_matchCases hfits cs h₄ (hx₅.before.trans hF₅) fun l hl =>
    Nat.lt_of_lt_of_le (hlabels l hl) hsize₃

/-- **The parts of a statement** have their code in the same block. -/
theorem Emitted.inner {s : Site} {t : Stmt} (hs : s.Emitted) (hd : s.declaration = .stmt t) :
    ∀ d ∈ t.inner, Has s.last d := by
  obtain ⟨p, d, dst, b, b', F⟩ := s
  obtain ⟨h, hF, hlabels, hfits⟩ := hs
  obtain rfl : d = _ := hd
  dsimp only at *
  rw [Lower.decl] at h
  cases t with
  | empty | ret | breakLoop | continueLoop | expr => nofun
  | block body span =>
    rw [stmt] at h
    obtain ⟨_, b₁, h₁, h⟩ := bind_eq_ok h
    obtain ⟨_, b₂, h₂, h₃⟩ := bind_eq_ok h
    have hx₁ := Tame.extends (fun _ _ => Safe.emit _) h₁
    exact (has_body_of (p := p.deeper) hfits h₂ (emit_spec h₃ hF).1 fun l hl =>
      Nat.lt_of_lt_of_le (hlabels l hl) hx₁.size).1
  | cond c s alternate span =>
    cases alternate with
    | none =>
      rw [stmt] at h
      obtain ⟨k⟩ := condition_spec (fun _ _ => .loadUnit dst) h hF hfits
      exact List.forall_mem_singleton.mpr (.of_stmt k.consequent k.before.2.1
        (fun l hl => Nat.lt_of_lt_of_le (hlabels l hl) k.labels.1) hfits)
    | some t =>
      rw [stmt] at h
      obtain ⟨k⟩ := condition_spec (fun _ _ => safe_stmt t p dst) h hF hfits
      exact List.forall_mem_cons.mpr ⟨.of_stmt k.consequent k.before.2.1
          (fun l hl => Nat.lt_of_lt_of_le (hlabels l hl) k.labels.1) hfits,
        List.forall_mem_singleton.mpr (.of_stmt k.otherwise k.before.2.2
          (fun l hl => Nat.lt_of_lt_of_le (hlabels l hl) k.labels.2) hfits)⟩
  | whileLoop c body span => exact List.forall_mem_singleton.mpr (has_whileLoop h hF hfits)
  | forLoop init c increment body span =>
    obtain ⟨hbody, hinit⟩ := has_forLoop h hF hlabels hfits
    match init with
    | none | some (.expr _) => exact List.forall_mem_singleton.mpr hbody
    | some (.letDecl d) =>
      exact List.forall_mem_cons.mpr ⟨hinit d rfl, List.forall_mem_singleton.mpr hbody⟩
  | cases scrutinee cs default span =>
    cases default with
    | none =>
      rw [stmt] at h
      obtain ⟨hcs, -⟩ := has_cases (fun _ _ => safe_noMatch) h hF hlabels hfits
      exact List.forall_mem_append.mpr ⟨hcs, nofun⟩
    | some t =>
      rw [stmt] at h
      obtain ⟨hcs, b₁, b₂, ht, hF₂, hsize⟩ := has_cases (fun _ _ => safe_stmt t p dst) h hF hlabels hfits
      exact List.forall_mem_append.mpr ⟨hcs, List.forall_mem_singleton.mpr
        (.of_stmt ht hF₂ (fun l hl => Nat.lt_of_lt_of_le (hlabels l hl) hsize) hfits)⟩

/-- The functions among the declarations of a block are created there. -/
theorem Emitted.function {s : Site} {ds : List Decl} {span : Span} (hs : s.Emitted)
    (hd : s.declaration = .stmt (.block ds span)) {head : FnHead} {body : List Decl}
    (hfn : .fn head body ∈ ds) :
    ∃ F, Creates s.last head body F := by
  obtain ⟨p, d, dst, b, b', F⟩ := s
  obtain ⟨h, hF, hlabels, hfits⟩ := hs
  obtain rfl : d = _ := hd
  dsimp only at *
  rw [Lower.decl, stmt] at h
  obtain ⟨_, b₁, h₁, h⟩ := bind_eq_ok h
  obtain ⟨_, b₂, h₂, h₃⟩ := bind_eq_ok h
  have hx₁ := Tame.extends (fun _ _ => Safe.emit _) h₁
  exact (has_body_of (p := p.deeper) hfits h₂ (emit_spec h₃ hF).1 fun l hl =>
    Nat.lt_of_lt_of_le (hlabels l hl) hx₁.size).2 head body hfn

end Site

end Reified
