import Reified.Proofs.Compilation.Complete
import Reified.Proofs.Lowering.Requests

/-!
# Register numbers never wrap

The number of parameters of a block becomes the first free register without a check. But the code of a
function starts with its signature, for which as many registers are asked for as there are parameters,
so a function with too many of them has no block. In a block that is finished all requests for
registers have been granted, and follow the discipline of a stack above the parameters.

## Main definitions

* `Program.Codes` — what emits the code of a program and of its functions
* `Block.Allocated` — register numbers of a block are what they should be
* `Lower.Exhausts` — the code asks for registers that there are not

## Main results

* `Lower.accounts_stmt`, `Lower.accounts_functions` — the code of statements and functions follows the
  discipline
* `Program.allocated`, `Program.exhausted` — blocks of programs, and why there is none
-/

namespace Reified

/-- What emits the code of a block, its name and its number of parameters: the block is that of a program
or of a function declared in it, at any depth. -/
inductive Program.Codes (checks : Bool) (ds : List Decl) : String → Nat → Lower Unit → Prop
  | program : Codes checks ds "<program>" 0 do
      let value ← Lower.allocate
      Lower.body ⟨checks, [], 0, none⟩ ds value
      Lower.emit (.leave value)
  | function {head : FnHead} {body : List Decl} {types : List Ty} {result : Ty} {implicit : Nat}
      (hmem : (head, body) ∈ Decl.nestedList ds) (hsignature : head.signature = some (.fn types result implicit)) :
      Codes checks ds head.name types.length
        (Lower.functionCode head (.ofNat types.length) (.fn types result implicit)
          (Lower.fnBody body ⟨checks, Lower.implicitParams [] (types.take implicit), 0, none⟩))

/-- The registers at the start of a block. The first free one counts as a mark: the code of a function
returns to it when the signature is evaluated. -/
def Builder.registers (b : Builder) : RegisterStack := ⟨[b.next], b.next⟩

/-- The block is made of code that makes the requests. No conversion loses anything, all requests are
granted and follow the discipline of a stack, and what is handed out is free. -/
structure Block.Allocated (act : Lower Unit) (name : String) (count : Nat) (es : List Request) (B : Block) :
    Prop where
  performs : ∃ F, Lower.Performs act (.new name (.ofNat count)) es (.ok () F) ∧ B = F.finish
  parameterCount : B.parameterCount.toNat = count
  toUInt16 : B.parameterCount.toUInt16.toNat = count
  index : ∀ i < count, (Register.ofNat i).index = i
  parameters_le : count ≤ B.registerCount.toNat
  registers_le : B.registerCount.toNat ≤ 65535
  stack : ∃ s, (Builder.new name (.ofNat count)).registers.Serves es s
  granted : ∀ n, .refused n ∉ es
  free : ∀ before first n after, es = before ++ .taken first n :: after →
    count ≤ first.index ∧ first.index + n ≤ B.registerCount.toNat ∧
      ∀ i, first.index ≤ i → i < first.index + n → ¬Request.InUse before i
  offset : ∀ first n, .taken first n ∈ es → ∀ i < n, (first.offset i).index = first.index + i

namespace Lower

/-- The code asks for more registers than there are, and therefore fails. -/
def Exhausts (act : Lower Unit) (name : String) (count : Nat) : Prop :=
  ∃ es n s b', Performs act (.new name (.ofNat count)) (es ++ [.refused n])
      (.error (.registersExhausted name) b') ∧
    (Builder.new name (.ofNat count)).registers.Serves es s ∧ 65535 < s.next.toNat + n

section

variable {G : Block → Prop} {E : LowerError → Prop} {D ms : List UInt16} {act : Lower Unit} {name : String}
  {count : Nat} {F : Builder}

/-- The block that is made of code which follows the discipline. -/
theorem Accounts.allocated (h : Accounts G E D act)
    (hD : D ++ ms = [(Builder.new name (.ofNat count)).next]) (hcount : count ≤ 65535)
    (hact : act (.new name (.ofNat count)) = .ok () F) :
    (∃ es, F.finish.Allocated act name count es) ∧ ∀ f ∈ F.finish.functions, G f := by
  obtain ⟨es, hes, h⟩ := h (.new name (.ofNat count))
  rw [hact] at hes h
  have hcount32 : (UInt32.ofNat count).toNat = count :=
    UInt32.toNat_ofNat_of_lt' (by simp only [UInt32.size]; omega)
  have hnext : (UInt32.ofNat count).toUInt16.toNat = count := by
    rw [UInt32.toNat_toUInt16, hcount32]
    exact Nat.mod_eq_of_lt (by omega)
  have hstack := h.stack ms
  rw [hD] at hstack
  have habove : (Builder.new name (.ofNat count)).registers.Above count :=
    ⟨List.pairwise_cons.mpr ⟨fun m hm => List.mem_singleton.mp hm ▸ UInt16.le_refl _, List.pairwise_singleton _ _⟩,
      fun m hm => by
        have hm : m = (Builder.new name (.ofNat count)).next :=
          (List.mem_cons.mp hm).elim id List.mem_singleton.mp
        exact hm ▸ hnext.ge⟩
  refine ⟨⟨es, ⟨F, hes, rfl⟩, ?_, ?_, fun i hi => Register.index_ofNat (by omega), ?_, ?_, ⟨_, hstack⟩, h.granted,
    fun before first n after hes => ?_, fun first n hmem i hi => ?_⟩, fun f hf => ?_⟩
  · show F.block.parameterCount.toNat = count
    rw [h.parameterCount]
    exact hcount32
  · show F.block.parameterCount.toUInt16.toNat = count
    rw [h.parameterCount]
    exact hnext
  · exact hcount32.symm.le.trans h.registers
  · exact h.bound (hcount32.le.trans hcount)
  · subst hes
    obtain ⟨hbase, -, hfree⟩ := hstack.taken_free habove
    exact ⟨hbase, h.counted first n (List.mem_append_right _ List.mem_cons_self),
      fun i hi _ huse => absurd (hfree i huse) (Nat.not_lt.mpr hi)⟩
  · obtain ⟨before, after, rfl⟩ := List.append_of_mem hmem
    have hle := (hstack.taken_free habove).2.1
    exact Register.index_offset (by omega)
  · exact (h.nested f hf).resolve_left (Array.not_mem_empty f)

/-- Code that fails is passed on an error, or asks for more registers than there are. -/
theorem Accounts.exhausts {e : LowerError} {b' : Builder} (h : Accounts G E D act)
    (hD : D ++ ms = [(Builder.new name (.ofNat count)).next])
    (hact : act (.new name (.ofNat count)) = .error e b') :
    E e ∨ e = .registersExhausted name ∧ Exhausts act name count := by
  obtain ⟨es, hes, h⟩ := h (.new name (.ofNat count))
  rw [hact] at hes h
  obtain ⟨s, hs⟩ := h.1 ms
  rw [hD] at hs
  refine h.2.imp_right ?_
  rintro ⟨before, n, rfl, -, rfl⟩
  obtain ⟨s₁, h₁, h₂⟩ := hs.split
  cases h₂ with
  | refused hlt _ => exact ⟨rfl, before, n, _, b', hes, h₁, hlt⟩

end

end Lower

/-! ## Blocks of a program -/

namespace Program

/-- The block is one of those of the program. -/
def Allocated (checks : Bool) (ds : List Decl) (B : Block) : Prop :=
  ∃ name count act es, Codes checks ds name count act ∧ B.Allocated act name count es

/-- The block is that of a function declared in the program. -/
def Declared (checks : Bool) (ds : List Decl) (B : Block) : Prop :=
  Allocated checks ds B ∧ ∃ head body b b', Lower.functionBlock checks head (Lower.fnBody body) b = .ok B b'

/-- The code of one of the blocks asks for more registers than there are. -/
def Exhausts (checks : Bool) (ds : List Decl) (name : String) : Prop :=
  ∃ count act, Codes checks ds name count act ∧ Lower.Exhausts act name count

/-- An error that is passed on from a nested block, or that has nothing to do with registers. -/
def Passes (checks : Bool) (ds : List Decl) (e : LowerError) : Prop :=
  ∀ name, e = .registersExhausted name → Exhausts checks ds name

end Program

namespace Lower

variable {checks : Bool} {ds : List Decl}

/-- The action follows the discipline; the blocks that it adds are those of functions of the program. -/
abbrev AccountsIn (checks : Bool) (ds : List Decl) (D : List UInt16) {α : Type} (x : Lower α) : Prop :=
  Accounts (fun B => B.Everywhere (Program.Declared checks ds)) (Program.Passes checks ds) D x

/-- Code inside a scope. -/
theorem accounts_of_local {α : Type} {x : Lower α}
    (h : ∀ {K : List Label → List Label → {α : Type} → Lower α → Prop}, Local (fun _ => True) K → K [] [] x) :
    AccountsIn checks ds [] x :=
  h (accounts_local _ _)

/-- Code inside a scope that may go to a label. -/
theorem accounts_of_localOr {α : Type} {x : Lower α} {l : Label}
    (h : ∀ {K : List Label → List Label → {α : Type} → Lower α → Prop}, Local (fun _ => True) K → K [l] [] x) :
    AccountsIn checks ds [] x :=
  h (accounts_local _ _)

/-! ## Functions -/

theorem accounts_params (ps : List Param) (index : Nat) : AccountsIn checks ds [] (Lower.params index ps) :=
  accounts_of_local fun hK => hK.allParams ps (fun _ _ => trivial) index

theorem accounts_declaredVar (registers : List (Nat × Register)) (v : TyVar) (dst : Register) :
    AccountsIn checks ds [] (declaredVar registers v dst) := by
  rw [declaredVar]
  split
  · exact .emit _
  · exact .throw (by rintro _ ⟨⟩)

theorem accounts_signature (t : Ty) : AccountsIn checks ds [] (signature t) :=
  .bind (.allocateRange 1) fun dst => .seq (.emit _) <| .seq (.emit _) <|
    .bind ((accounts_local _ _).declareVars (S := []) _ _) fun registers =>
      .seq ((accounts_local _ _).ty (S := []) t (fun v _ r => accounts_declaredVar registers v r) dst) <|
      .seq (.emit _) <| .seq (.emit _) <| .seq (.emit _) <| .emit _

theorem accounts_functionCode {head : FnHead} {count : UInt32} {t : Ty} {body : Register → Lower Unit}
    (hbody : ∀ r, AccountsIn checks ds [] (body r)) :
    AccountsIn checks ds [count.toUInt16] (functionCode head count t body) :=
  .seq (accounts_signature t) <| .seq .startCode <| .release_seq <| .seq (accounts_params head.params 0) <|
    .bind (.allocateRange 1) fun r => .seq (hbody r) <| .emit _

/-- As many registers are asked for as there are parameters before anything else is done with them. -/
theorem parameters_le {head : FnHead} {count : UInt32} {types : List Ty} {result : Ty} {implicit : Nat}
    {body : Register → Lower Unit} {b c : Builder}
    (h : functionCode head count (.fn types result implicit) body b = .ok () c) : types.length ≤ 65535 := by
  obtain ⟨b₁, _, _, _, _, _, hsignature, -⟩ := functionCode_spec h
  obtain ⟨dst, _, -, h⟩ := bind_eq_ok hsignature
  obtain ⟨_, _, -, h⟩ := bind_eq_ok h
  obtain ⟨_, _, -, h⟩ := bind_eq_ok h
  obtain ⟨registers, _, -, h⟩ := bind_eq_ok h
  obtain ⟨_, _, hty, -⟩ := bind_eq_ok h
  rw [ty] at hty
  obtain ⟨first, b', hfirst, -⟩ := bind_eq_ok hty
  obtain ⟨-, -, -, hle, -, -⟩ := allocateRange_spec hfirst (.refl b')
  omega

/-- **The block of a function** of the program, if the code for its body follows the discipline. -/
theorem accounts_functionBlock {head : FnHead} {body : List Decl} (hmem : (head, body) ∈ Decl.nestedList ds)
    (hbody : ∀ place r, place.checks = checks → AccountsIn checks ds [] (fnBody body place r)) :
    AccountsIn checks ds [] (functionBlock checks head (fnBody body)) ∧
      ∀ {b b' : Builder} {B : Block}, functionBlock checks head (fnBody body) b = .ok B b' →
        B.Everywhere (Program.Declared checks ds) := by
  have hcode (types : List Ty) (result : Ty) (implicit : Nat) :
      AccountsIn checks ds [(UInt32.ofNat types.length).toUInt16]
        (functionCode head (.ofNat types.length) (.fn types result implicit)
          (fnBody body ⟨checks, implicitParams [] (types.take implicit), 0, none⟩)) :=
    accounts_functionCode fun r => hbody _ r rfl
  refine ⟨?_, fun {b b' B} h => ?_⟩
  · unfold functionBlock
    split
    next => exact .throw (by rintro _ ⟨⟩)
    next types result implicit hsignature =>
      refine .isolated fun e b' hact name hname => ?_
      rcases (hcode types result implicit).exhausts (List.append_nil _) hact with hpassed | ⟨rfl, hexhausts⟩
      · exact hpassed name hname
      · cases hname
        exact ⟨_, _, .function hmem hsignature, hexhausts⟩
    next => exact .throw (by rintro _ ⟨⟩)
  · obtain ⟨types, result, implicit, c, hsignature, hact, rfl⟩ := functionBlock_spec h
    obtain ⟨⟨es, hes⟩, hnested⟩ :=
      (hcode types result implicit).allocated (List.append_nil _) (parameters_le hact) hact
    exact ⟨⟨⟨_, _, _, es, .function hmem hsignature, hes⟩, _, _, _, _, h⟩, hnested⟩

theorem accounts_createFunction {name : String} {B : Block}
    (hB : B.Everywhere (Program.Declared checks ds)) : AccountsIn checks ds [] (createFunction name B) :=
  .bind (.function hB) fun _ => .mark fun _ => .bind (.allocateRange 1) fun _ => .seq (.emit _) <|
    .bind (.identifier _) fun _ => .seq (.emit _) <| .release _

/-! ## Statements -/

theorem accounts_sequence {functions declarations : Lower Unit} {isEmpty : Bool} {dst : Register}
    (hf : AccountsIn checks ds [] functions) (hd : AccountsIn checks ds [] declarations) :
    AccountsIn checks ds [] (sequence isEmpty functions declarations dst) := by
  refine .seq hf ?_
  split
  · exact accounts_of_local fun hK => hK.loadUnit dst
  · exact hd

theorem accounts_closeScopes : (count : Nat) → AccountsIn checks ds [] (closeScopes count)
  | 0 => .pure ()
  | count + 1 => .seq (.emit _) <| accounts_closeScopes count

theorem accounts_leaveScopes (p : Place) (choose : LoopLabels → Label) :
    AccountsIn checks ds [] (leaveScopes p choose) := by
  rw [leaveScopes]
  split
  · exact .bind .blockName fun _ => .throw (by rintro _ ⟨⟩)
  · exact .seq (accounts_closeScopes _) <| .jump _

theorem accounts_loopBody {body : Register → Lower Unit} (hbody : ∀ r, AccountsIn checks ds [] (body r)) :
    AccountsIn checks ds [] (loopBody body) :=
  .mark fun _ => .bind (.allocateRange 1) fun r => .seq (hbody r) <| .release _

mutual

/-- **The code for a statement** of the program follows the discipline. -/
theorem accounts_stmt : (s : Stmt) → (∀ f ∈ s.nested, f ∈ Decl.nestedList ds) → {p : Place} →
    p.checks = checks → (dst : Register) → AccountsIn checks ds [] (stmt p s dst)
  | .empty _, _, _, _, dst => by
    rw [stmt]
    exact accounts_of_local fun hK => hK.loadUnit dst
  | .block body _, hs, p, hp, dst => by
    rw [stmt]
    exact .seq (.emit _) <| .seq (accounts_sequence (accounts_functions body hs (p := p.deeper) hp)
      (accounts_decls body hs (p := p.deeper) hp dst)) <| .emit _
  | .ret value _, _, _, _, _ => by
    rw [stmt]
    exact .bind (.allocateRange 1) fun r => .seq (accounts_of_local fun hK => hK.exprOrUnit r value) <| .emit _
  | .cond c s none _, hs, p, hp, dst => by
    rw [stmt]
    exact .bind (.allocateRange 1) fun r => .seq (accounts_of_local fun hK => hK.expr c r) <|
      .newLabel fun _ => .newLabel fun _ => .seq (.jumpIfFalse _ _) <| .seq (accounts_stmt s hs hp dst) <|
      .seq (.jump _) <| .seq (.bindLabel _) <| .seq (accounts_of_local fun hK => hK.loadUnit dst) <| .bindLabel _
  | .cond c s (some t) _, hs, p, hp, dst => by
    rw [stmt]
    exact .bind (.allocateRange 1) fun r => .seq (accounts_of_local fun hK => hK.expr c r) <|
      .newLabel fun _ => .newLabel fun _ => .seq (.jumpIfFalse _ _) <|
      .seq (accounts_stmt s (fun f hf => hs f (List.mem_append_left _ hf)) hp dst) <|
      .seq (.jump _) <| .seq (.bindLabel _) <|
      .seq (accounts_stmt t (fun f hf => hs f (List.mem_append_right _ hf)) hp dst) <| .bindLabel _
  | .whileLoop c body _, hs, p, hp, dst => by
    rw [stmt]
    exact .newLabel fun start => .newLabel fun exit => .seq (.bindLabel _) <| .bind (.allocateRange 1) fun r =>
      .seq (accounts_of_local fun hK => hK.expr c r) <| .seq (.jumpIfFalse _ _) <|
      .seq (accounts_loopBody fun r => accounts_stmt body hs (p := p.inLoop exit start) hp r) <|
      .seq (.jump _) <| .seq (.bindLabel _) <| accounts_of_local fun hK => hK.loadUnit dst
  | .forLoop init c increment body _, hs, p, hp, dst => by
    rw [stmt]
    exact .seq (.emit _) <| .bind (.allocateRange 1) fun r =>
      .seq (accounts_of_local fun hK => hK.forInit _ r init fun _ _ => trivial) <|
      .newLabel fun start => .newLabel fun next => .newLabel fun exit => .seq (.bindLabel _) <|
      .seq (accounts_of_localOr fun hK => hK.loopTest (.head _) r c) <|
      .seq (accounts_loopBody fun r => accounts_stmt body hs (p := p.deeper.inLoop exit next) hp r) <|
      .seq (.bindLabel _) <| .seq (accounts_of_local fun hK => hK.forNext r increment) <| .seq (.jump _) <|
      .seq (.bindLabel _) <| .seq (.emit _) <| accounts_of_local fun hK => hK.loadUnit dst
  | .breakLoop _, _, p, _, _ => by
    rw [stmt]
    exact accounts_leaveScopes p _
  | .continueLoop _, _, p, _, _ => by
    rw [stmt]
    exact accounts_leaveScopes p _
  | .cases scrutinee cs none _, hs, p, hp, dst => by
    rw [stmt]
    exact .bind (.allocateRange 1) fun r => .seq (accounts_of_local fun hK => hK.expr scrutinee r) <|
      .newLabel fun done => .seq (accounts_matchCases cs hs hp r done dst) <|
      .seq (accounts_of_local fun hK => hK.noMatch) <| .bindLabel _
  | .cases scrutinee cs (some s) _, hs, p, hp, dst => by
    rw [stmt]
    exact .bind (.allocateRange 1) fun r => .seq (accounts_of_local fun hK => hK.expr scrutinee r) <|
      .newLabel fun done =>
      .seq (accounts_matchCases cs (fun f hf => hs f (List.mem_append_left _ hf)) hp r done dst) <|
      .seq (accounts_stmt s (fun f hf => hs f (List.mem_append_right _ hf)) hp dst) <| .bindLabel _
  | .expr e, _, _, _, dst => by
    rw [stmt]
    exact accounts_of_local fun hK => hK.expr e dst

theorem accounts_matchCases : (cs : List (Pattern × Stmt)) →
    (∀ f ∈ Stmt.nestedCases cs, f ∈ Decl.nestedList ds) → {p : Place} → p.checks = checks →
    (scrutinee : Register) → (done : Label) → (dst : Register) →
    AccountsIn checks ds [] (matchCases p scrutinee done cs dst)
  | [], _, _, _, _, _, _ => by
    rw [matchCases]
    exact .pure ()
  | (pat, s) :: cs, hs, p, hp, scrutinee, done, dst => by
    rw [matchCases]
    exact .mark fun _ => .newLabel fun failed => .seq (.emit _) <|
      .seq (accounts_of_localOr fun hK => hK.pattern pat (fun _ _ => trivial) scrutinee (.head _)) <|
      .seq (accounts_stmt s (fun f hf => hs f (List.mem_append_left _ hf)) (p := p.deeper) hp dst) <|
      .seq (.emit _) <| .seq (.jump _) <| .seq (.bindLabel _) <| .seq (.emit _) <| .release_seq <|
      accounts_matchCases cs (fun f hf => hs f (List.mem_append_right _ hf)) hp scrutinee done dst

theorem accounts_functions : (body : List Decl) → (∀ f ∈ Decl.nestedList body, f ∈ Decl.nestedList ds) →
    {p : Place} → p.checks = checks → AccountsIn checks ds [] (functions p body)
  | [], _, _, _ => by
    rw [functions]
    exact .pure ()
  | .fn head body :: rest, hs, p, hp => by
    have hmem : ∀ f ∈ (head, body) :: Decl.nestedList body, f ∈ Decl.nestedList ds := fun f hf =>
      hs f (List.mem_append_left _ (by rw [Decl.nested]; exact hf))
    have hbody (place : Place) (r : Register) (hplace : place.checks = checks) :
        AccountsIn checks ds [] (fnBody body place r) :=
      .seq (.emit _) <| .seq (accounts_sequence
        (accounts_functions body (fun f hf => hmem f (List.mem_cons_of_mem _ hf)) (p := place.deeper) hplace)
        (accounts_decls body (fun f hf => hmem f (List.mem_cons_of_mem _ hf)) (p := place.deeper) hplace r)) <|
        .emit _
    have hblock := accounts_functionBlock (hmem _ List.mem_cons_self) hbody
    rw [functions, hp]
    exact .bind_of hblock.1 fun B ⟨_, _, hB⟩ => .seq (accounts_createFunction (hblock.2 hB)) <|
      accounts_functions rest (fun f hf => hs f (List.mem_append_right _ hf)) hp
  | .letDecl _ :: rest, hs, p, hp => by
    rw [functions_letDecl]
    exact accounts_functions rest (fun f hf => hs f (List.mem_append_right _ hf)) hp
  | .stmt _ :: rest, hs, p, hp => by
    rw [functions_stmt]
    exact accounts_functions rest (fun f hf => hs f (List.mem_append_right _ hf)) hp

theorem accounts_decls : (body : List Decl) → (∀ f ∈ Decl.nestedList body, f ∈ Decl.nestedList ds) →
    {p : Place} → p.checks = checks → (dst : Register) → AccountsIn checks ds [] (decls p body dst)
  | [], _, _, _, _ => by
    rw [decls]
    exact .pure ()
  | d :: body, hs, p, hp, dst => by
    rw [decls]
    exact .mark fun _ => .seq (accounts_decl d (fun f hf => hs f (List.mem_append_left _ hf)) hp dst) <|
      .release_seq <| accounts_decls body (fun f hf => hs f (List.mem_append_right _ hf)) hp dst

theorem accounts_decl : (d : Decl) → (∀ f ∈ d.nested, f ∈ Decl.nestedList ds) → {p : Place} →
    p.checks = checks → (dst : Register) → AccountsIn checks ds [] (decl p d dst)
  | .letDecl d, _, p, _, dst => by
    rw [decl]
    exact accounts_of_local fun hK => hK.letDecl p trivial dst
  | .fn .., _, _, _, dst => by
    rw [decl]
    exact accounts_of_local fun hK => hK.loadUnit dst
  | .stmt s, hs, p, hp, dst => by
    rw [decl]
    exact accounts_stmt s hs hp dst

end

/-! ## All functions have blocks -/

/-- The action succeeds only if the proposition holds. -/
def Needs (P : Prop) {α : Type} (x : Lower α) : Prop :=
  ∀ ⦃b b' : Builder⦄ ⦃a : α⦄, x b = .ok a b' → P

namespace Needs

variable {α β : Type} {P : Prop} {x : Lower α} {g : α → Lower β}

theorem here (hx : Needs P x) : Needs P (x >>= g) := fun _ _ _ h =>
  have ⟨_, _, hxb, _⟩ := bind_eq_ok h
  hx hxb

theorem later (hg : ∀ a, Needs P (g a)) : Needs P (x >>= g) := fun _ _ _ h =>
  have ⟨a, _, _, hgb⟩ := bind_eq_ok h
  hg a hgb

theorem inLoopBody {body : Register → Lower Unit} (h : ∀ r, Needs P (body r)) : Needs P (loopBody body) :=
  later fun _ => later fun r => here (h r)

end Needs

/-- There is a block of the function. -/
def Built (checks : Bool) (f : FnHead × List Decl) : Prop :=
  ∃ c, functionBuilder checks f.1 f.2 = .ok c

theorem needs_functionBlock (head : FnHead) (body : List Decl) :
    Needs (Built checks (head, body)) (functionBlock checks head (fnBody body)) := fun b b' B h => by
  rw [functionBlock_eq] at h
  cases hc : functionBuilder checks head body with
  | ok c => exact ⟨c, hc⟩
  | error e =>
    rw [hc] at h
    cases h

/-- What the code for the body of a function needs holds if the function has a block. -/
theorem Built.of_body {P : Prop} {head : FnHead} {body : List Decl} (h : Built checks (head, body))
    (hbody : ∀ place r, place.checks = checks → Needs P (fnBody body place r)) : P := by
  obtain ⟨c, hc⟩ := h
  have hblock : functionBlock checks head (fnBody body) default = .ok c.finish default := by
    rw [functionBlock_eq, hc]
  obtain ⟨_, _, _, _, -, hact, -⟩ := functionBlock_spec hblock
  obtain ⟨_, _, _, _, _, value, -, -, -, -, hvalue, -⟩ := functionCode_spec hact
  exact hbody _ value rfl hvalue

/-- The functions of declarations are created before the declarations are executed, and those in the
statements among them with the statements. -/
def NeededBy (checks : Bool) (P : Prop) (body : List Decl) : Prop :=
  (∀ p : Place, p.checks = checks → Needs P (functions p body)) ∨
    body.isEmpty = false ∧ ∀ p : Place, p.checks = checks → ∀ dst, Needs P (decls p body dst)

theorem NeededBy.inSequence {P : Prop} {body : List Decl} (h : NeededBy checks P body) {p : Place}
    (hp : p.checks = checks) (dst : Register) :
    Needs P (sequence body.isEmpty (functions p body) (decls p body dst) dst) := by
  rcases h with hf | ⟨hne, hd⟩
  · exact .here (hf p hp)
  · rw [hne]
    exact .later fun _ => hd p hp dst

mutual

/-- **All functions of a statement have blocks** if there is code for it. -/
theorem needs_stmt {f : FnHead × List Decl} : (s : Stmt) → f ∈ s.nested → {p : Place} → p.checks = checks →
    (dst : Register) → Needs (Built checks f) (stmt p s dst)
  | .block body _, hf, p, hp, dst => by
    rw [Stmt.nested] at hf
    rw [stmt]
    exact .later fun _ => .here ((neededBy_list body hf).inSequence (p := p.deeper) hp dst)
  | .cond c s none _, hf, p, hp, dst => by
    rw [Stmt.nested] at hf
    rw [stmt]
    exact .later fun _ => .later fun _ => .later fun _ => .later fun _ => .later fun _ =>
      .here (needs_stmt s hf hp dst)
  | .cond c s (some t) _, hf, p, hp, dst => by
    rw [Stmt.nested] at hf
    rw [stmt]
    refine .later fun _ => .later fun _ => .later fun _ => .later fun _ => .later fun _ => ?_
    rcases List.mem_append.mp hf with hf | hf
    · exact .here (needs_stmt s hf hp dst)
    · exact .later fun _ => .later fun _ => .later fun _ => .here (needs_stmt t hf hp dst)
  | .whileLoop c body _, hf, p, hp, dst => by
    rw [Stmt.nested] at hf
    rw [stmt]
    exact .later fun start => .later fun exit => .later fun _ => .later fun _ => .later fun _ => .later fun _ =>
      .here (.inLoopBody fun r => needs_stmt body hf (p := p.inLoop exit start) hp r)
  | .forLoop init c increment body _, hf, p, hp, dst => by
    rw [Stmt.nested] at hf
    rw [stmt]
    exact .later fun _ => .later fun _ => .later fun _ => .later fun start => .later fun next =>
      .later fun exit => .later fun _ => .later fun _ =>
      .here (.inLoopBody fun r => needs_stmt body hf (p := p.deeper.inLoop exit next) hp r)
  | .cases scrutinee cs none _, hf, p, hp, dst => by
    rw [Stmt.nested] at hf
    rw [stmt]
    exact .later fun r => .later fun _ => .later fun done => .here (needs_matchCases cs hf hp r done dst)
  | .cases scrutinee cs (some s) _, hf, p, hp, dst => by
    rw [Stmt.nested] at hf
    rw [stmt]
    refine .later fun r => .later fun _ => .later fun done => ?_
    rcases List.mem_append.mp hf with hf | hf
    · exact .here (needs_matchCases cs hf hp r done dst)
    · exact .later fun _ => .here (needs_stmt s hf hp dst)
  | .empty _, hf, _, _, _ | .ret .., hf, _, _, _ | .breakLoop _, hf, _, _, _ | .continueLoop _, hf, _, _, _
  | .expr _, hf, _, _, _ => by
    rw [Stmt.nested] at hf
    cases hf

theorem needs_matchCases {f : FnHead × List Decl} : (cs : List (Pattern × Stmt)) → f ∈ Stmt.nestedCases cs →
    {p : Place} → p.checks = checks → (scrutinee : Register) → (done : Label) → (dst : Register) →
    Needs (Built checks f) (matchCases p scrutinee done cs dst)
  | [], hf, _, _, _, _, _ => by
    rw [Stmt.nestedCases] at hf
    cases hf
  | (pat, s) :: cs, hf, p, hp, scrutinee, done, dst => by
    rw [Stmt.nestedCases] at hf
    rw [matchCases]
    refine .later fun _ => .later fun _ => .later fun _ => .later fun _ => ?_
    rcases List.mem_append.mp hf with hf | hf
    · exact .here (needs_stmt s hf (p := p.deeper) hp dst)
    · exact .later fun _ => .later fun _ => .later fun _ => .later fun _ => .later fun _ => .later fun _ =>
        needs_matchCases cs hf hp scrutinee done dst

theorem neededBy_list {f : FnHead × List Decl} : (body : List Decl) → f ∈ Decl.nestedList body →
    NeededBy checks (Built checks f) body
  | [], hf => by
    rw [Decl.nestedList] at hf
    cases hf
  | d :: ds, hf => by
    rw [Decl.nestedList] at hf
    rcases List.mem_append.mp hf with hf | hf
    · cases d with
      | letDecl d =>
        rw [Decl.nested] at hf
        cases hf
      | fn head body =>
        rw [Decl.nested] at hf
        refine .inl fun p hp => ?_
        rw [functions, hp]
        refine .here ?_
        rcases List.mem_cons.mp hf with rfl | hf
        · exact needs_functionBlock head body
        · intro b b' B h
          refine (needs_functionBlock head body h).of_body fun place r hplace => ?_
          exact .later fun _ => .here ((neededBy_list body hf).inSequence (p := place.deeper) hplace r)
      | stmt s =>
        rw [Decl.nested] at hf
        refine .inr ⟨rfl, fun p hp dst => ?_⟩
        rw [decls]
        refine .later fun _ => .here ?_
        rw [decl]
        exact needs_stmt s hf hp dst
    · rcases neededBy_list ds hf with h | ⟨-, h⟩
      · refine .inl fun p hp => ?_
        cases d with
        | fn head body =>
          rw [functions]
          exact .later fun _ => .later fun _ => h p hp
        | letDecl d =>
          rw [functions_letDecl]
          exact h p hp
        | stmt s =>
          rw [functions_stmt]
          exact h p hp
      · refine .inr ⟨rfl, fun p hp dst => ?_⟩
        rw [decls]
        exact .later fun _ => .later fun _ => .later fun _ => h p hp dst

end

end Lower

/-! ## Programs -/

namespace Program

variable {checks : Bool} {rejected : List Nat} {ds : Program}

/-- The code of a program follows the discipline. -/
theorem accounts (checks : Bool) (ds : List Decl) : Lower.AccountsIn checks ds [] (do
    let value ← Lower.allocate
    Lower.body ⟨checks, [], 0, none⟩ ds value
    Lower.emit (.leave value)) :=
  .bind (.allocateRange 1) fun value => .seq (Lower.accounts_sequence
    (Lower.accounts_functions ds (fun _ h => h) (p := ⟨checks, [], 0, none⟩) rfl)
    (Lower.accounts_decls ds (fun _ h => h) (p := ⟨checks, [], 0, none⟩) rfl value)) <| .emit _

/-- The program has no parameters. -/
theorem marks_program : [] ++ [0] = [(Builder.new "<program>" (.ofNat 0)).next] := rfl

/-- The block of a program has the register numbers that it should have, and the blocks nested in it are those of
functions of the program. -/
theorem allocated_and_declared {B : Block} (h : ds.lower checks rejected = .ok B) :
    Allocated checks (ds.accepted rejected) B ∧
      ∀ f ∈ B.functions, f.Everywhere (Declared checks (ds.accepted rejected)) := by
  unfold lower at h
  dsimp only at h
  split at h
  next hact =>
    cases h
    obtain ⟨⟨es, hes⟩, hnested⟩ := (accounts checks (ds.accepted rejected)).allocated
      marks_program (Nat.zero_le _) hact
    exact ⟨⟨_, _, _, es, .program, hes⟩, hnested⟩
  next => cases h

/-- **The blocks of a program** have the register numbers that they should have. -/
theorem allocated {B : Block} (h : ds.lower checks rejected = .ok B) :
    B.Everywhere (Allocated checks (ds.accepted rejected)) :=
  have ⟨hB, hnested⟩ := allocated_and_declared h
  ⟨hB, fun f hf => (hnested f hf).mono fun _ h => h.1⟩

/-- **There is no block** only if the code of one asks for registers that there are not. -/
theorem exhausted {name : String} (h : ds.lower checks rejected = .error (.registersExhausted name)) :
    Exhausts checks (ds.accepted rejected) name := by
  unfold lower at h
  dsimp only at h
  split at h
  next => cases h
  next hact =>
    cases h
    rcases (accounts checks (ds.accepted rejected)).exhausts marks_program hact with hpassed | ⟨hname, hexhausts⟩
    · exact hpassed name rfl
    · cases hname
      exact ⟨_, _, .program, hexhausts⟩

/-- A program one of whose blocks needs more registers than there are has no code. -/
theorem lower_ne_ok {name : String} {B : Block} (h : Exhausts checks (ds.accepted rejected) name) :
    ds.lower checks rejected ≠ .ok B := by
  obtain ⟨count, act, hcode, es, n, s, b', hperforms, -⟩ := h
  have hfails := hperforms.eq
  intro hlower
  unfold lower at hlower
  dsimp only at hlower
  split at hlower
  next b hact =>
    cases hcode with
    | program => cases hact.symm.trans hfails
    | @function head body types result implicit hmem hsignature =>
      obtain ⟨value, b₁, -, hrest⟩ := Lower.bind_eq_ok hact
      obtain ⟨_, b₂, hbody, -⟩ := Lower.bind_eq_ok hrest
      obtain ⟨c, hc⟩ := (Lower.neededBy_list _ hmem).inSequence (p := ⟨checks, [], 0, none⟩) rfl value hbody
      unfold Lower.functionBuilder at hc
      rw [hsignature] at hc
      simp only [Lower.built, hfails] at hc
      cases hc
  next => cases hlower

end Program

end Reified
