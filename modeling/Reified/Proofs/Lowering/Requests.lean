import Reified.Proofs.Lowering.Completes
import Reified.Proofs.Machine.TypeSteps

/-!
# What code asks of the registers of its block

Code that is emitted asks for registers and gives them back, and each request is written down here, in
order. Registers are handed out from the first free one on, and giving back is to return to the latest
mark to which one has not returned yet. So the first free register is above everything that was handed
out and not given back, and what is handed out next is free.

## Main definitions

* `Request`, `Request.InUse` — requests, and the registers that are not given back after some of them
* `RegisterStack.Serves` — the requests follow the discipline of a stack
* `Lower.Performs` — an action, executed from a builder, makes these requests
* `Lower.Accounts` — whatever the builder is, the requests of an action follow the discipline

## Main results

* `RegisterStack.Serves.taken` — what is handed out was free
* `Lower.Accounts.bind` — one action after the other
* `Lower.accounts_local` — all code inside a scope follows the discipline
-/

namespace Reified

/-! ## Requests -/

/-- What code asks of the registers of its block. -/
inductive Request where
  /-- So many consecutive registers were handed out, from the first one on. -/
  | taken (first : Register) (count : Nat)
  /-- So many consecutive registers were asked for, which there are not. -/
  | refused (count : Nat)
  /-- The first free register was noted, to be returned to. -/
  | marked (m : UInt16)
  /-- All registers from a mark on were given back. -/
  | released (m : UInt16)
  deriving DecidableEq

/-- After the requests the register is one that was handed out and not given back since. -/
def Request.InUse (es : List Request) (i : Nat) : Prop :=
  ∃ before first count after, es = before ++ .taken first count :: after ∧
    first.index ≤ i ∧ i < first.index + count ∧ ∀ m, .released m ∈ after → i < m.toNat

/-- The marks to which one has not returned yet, the latest first, and the first free register. -/
structure RegisterStack where
  marks : List UInt16
  next : UInt16

namespace RegisterStack

/-- The requests follow the discipline of a stack, and lead from one state to the other. -/
inductive Serves : RegisterStack → List Request → RegisterStack → Prop
  | nil (s : RegisterStack) : Serves s [] s
  | taken {ms : List UInt16} {w : UInt16} {count : Nat} {es : List Request} {s : RegisterStack}
      (hle : w.toNat + count ≤ 65535) (h : Serves ⟨ms, .ofNat (w.toNat + count)⟩ es s) :
      Serves ⟨ms, w⟩ (.taken ⟨w⟩ count :: es) s
  | refused {ms : List UInt16} {w : UInt16} {count : Nat} {es : List Request} {s : RegisterStack}
      (hlt : 65535 < w.toNat + count) (h : Serves ⟨ms, w⟩ es s) : Serves ⟨ms, w⟩ (.refused count :: es) s
  | marked {ms : List UInt16} {w : UInt16} {es : List Request} {s : RegisterStack}
      (h : Serves ⟨w :: ms, w⟩ es s) : Serves ⟨ms, w⟩ (.marked w :: es) s
  | released {ms : List UInt16} {m w : UInt16} {es : List Request} {s : RegisterStack}
      (h : Serves ⟨ms, m⟩ es s) : Serves ⟨m :: ms, w⟩ (.released m :: es) s

/-- No mark is below an earlier one, and none of them, nor the first free register, is below `base`. -/
structure Above (base : Nat) (s : RegisterStack) : Prop where
  sorted : (s.next :: s.marks).Pairwise (· ≥ ·)
  base : ∀ m ∈ s.next :: s.marks, base ≤ m.toNat

variable {s s₁ s' : RegisterStack} {es es' : List Request} {base i : Nat}

theorem Serves.append (h : s.Serves es s₁) (h' : s₁.Serves es' s') : s.Serves (es ++ es') s' := by
  induction h with
  | nil => exact h'
  | taken hle _ ih => exact .taken hle (ih h')
  | refused hlt _ ih => exact .refused hlt (ih h')
  | marked _ ih => exact .marked (ih h')
  | released _ ih => exact .released (ih h')

theorem Serves.split (h : s.Serves (es ++ es') s') : ∃ s₁, s.Serves es s₁ ∧ s₁.Serves es' s' := by
  induction es generalizing s with
  | nil => exact ⟨s, .nil s, h⟩
  | cons e es ih =>
    cases h with
    | taken hle h => exact (ih h).imp fun _ h => ⟨.taken hle h.1, h.2⟩
    | refused hlt h => exact (ih h).imp fun _ h => ⟨.refused hlt h.1, h.2⟩
    | marked h => exact (ih h).imp fun _ h => ⟨.marked h.1, h.2⟩
    | released h => exact (ih h).imp fun _ h => ⟨.released h.1, h.2⟩

theorem toNat_ofNat {n : Nat} (h : n ≤ 65535) : (UInt16.ofNat n).toNat = n :=
  UInt16.toNat_ofNat_of_lt' (by simp only [UInt16.size]; omega)

/-- The marks stay in order. -/
theorem Serves.above (h : s.Serves es s') (hs : s.Above base) : s'.Above base := by
  induction h with
  | nil => exact hs
  | @taken ms w count es s hle _ ih =>
    have hnext : w.toNat ≤ (UInt16.ofNat (w.toNat + count)).toNat := by
      rw [toNat_ofNat hle]
      exact Nat.le_add_right _ _
    obtain ⟨hsorted, hms⟩ := List.pairwise_cons.mp hs.sorted
    refine ih ⟨List.pairwise_cons.mpr ⟨fun m hm => ?_, hms⟩, fun m hm => ?_⟩
    · exact UInt16.le_iff_toNat_le.mpr (Nat.le_trans (UInt16.le_iff_toNat_le.mp (hsorted m hm)) hnext)
    · rcases List.mem_cons.mp hm with rfl | hm
      · exact Nat.le_trans (hs.base w List.mem_cons_self) hnext
      · exact hs.base m (List.mem_cons_of_mem w hm)
  | refused _ _ ih => exact ih hs
  | @marked ms w es s _ ih =>
    refine ih ⟨List.pairwise_cons.mpr ⟨fun m hm => ?_, hs.sorted⟩, fun m hm => ?_⟩
    · rcases List.mem_cons.mp hm with rfl | hm
      · exact UInt16.le_refl _
      · exact (List.pairwise_cons.mp hs.sorted).1 m hm
    · exact hs.base m ((List.mem_cons.mp hm).elim (· ▸ List.mem_cons_self) id)
  | released _ ih =>
    exact ih ⟨(List.pairwise_cons.mp hs.sorted).2, fun m hm => hs.base m (List.mem_cons_of_mem _ hm)⟩

/-- A register below the first free one stays there until it is given back. -/
theorem Serves.lt_next (h : s.Serves es s') (hi : i < s.next.toNat)
    (hkept : ∀ m, .released m ∈ es → i < m.toNat) : i < s'.next.toNat := by
  induction h with
  | nil => exact hi
  | taken hle _ ih =>
    refine ih ?_ fun m hm => hkept m (List.mem_cons_of_mem _ hm)
    rw [toNat_ofNat hle]
    exact Nat.lt_add_right _ hi
  | refused _ _ ih | marked _ ih => exact ih hi fun m hm => hkept m (List.mem_cons_of_mem _ hm)
  | released _ ih => exact ih (hkept _ List.mem_cons_self) fun m hm => hkept m (List.mem_cons_of_mem _ hm)

theorem Serves.inUse_lt (h : s.Serves es s') (hi : Request.InUse es i) : i < s'.next.toNat := by
  obtain ⟨before, first, count, after, rfl, -, hlt, hkept⟩ := hi
  obtain ⟨s₁, -, h₂⟩ := h.split
  cases h₂ with
  | taken hle h₂ =>
    refine h₂.lt_next ?_ hkept
    rw [toNat_ofNat hle]
    exact hlt

/-- **What is handed out was free**: it is not below the base, and disjoint from all that is in use. -/
theorem Serves.taken_free {first : Register} {count : Nat}
    (h : s.Serves (es ++ .taken first count :: es') s') (hs : s.Above base) :
    base ≤ first.index ∧ first.index + count ≤ 65535 ∧ ∀ i, Request.InUse es i → i < first.index := by
  obtain ⟨s₁, h₁, h₂⟩ := h.split
  have habove := h₁.above hs
  cases h₂ with
  | taken hle _ => exact ⟨habove.base _ List.mem_cons_self, hle, fun i hi => h₁.inUse_lt hi⟩

/-- Every mark that is returned to is at or above the base. -/
theorem Serves.released_above {m : UInt16} (h : s.Serves (es ++ .released m :: es') s') (hs : s.Above base) :
    base ≤ m.toNat := by
  obtain ⟨s₁, h₁, h₂⟩ := h.split
  have habove := h₁.above hs
  cases h₂ with
  | released _ => exact habove.base m (.tail _ (.head _))

end RegisterStack

/-! ## The requests of an action -/

theorem UInt32.toNat_max (a b : UInt32) : (max a b).toNat = max a.toNat b.toNat := by
  show (if a ≤ b then b else a).toNat = _
  split
  next h => exact (Nat.max_eq_right (UInt32.le_iff_toNat_le.mp h)).symm
  next h => exact (Nat.max_eq_left (Nat.le_of_not_le fun hle => h (UInt32.le_iff_toNat_le.mpr hle))).symm

namespace Block

/-- Constants leave the register file and the nested blocks alone. -/
theorem kept_addConstant (B : Block) (c : Constant) : (B.addConstant c).2.registerCount = B.registerCount ∧
    (B.addConstant c).2.functions = B.functions := by
  rw [addConstant]
  split <;> exact ⟨rfl, rfl⟩

/-- Identifiers leave the register file and the nested blocks alone. -/
theorem kept_addIdentifier (B : Block) (name : String) :
    (B.addIdentifier name).2.registerCount = B.registerCount ∧
      (B.addIdentifier name).2.functions = B.functions := by
  rw [addIdentifier]
  split <;> exact ⟨rfl, rfl⟩

end Block

namespace Lower

open EStateM (Result)

/-- The action, executed from the builder, makes the requests, and ends like this. The requests of code in
a block of its own are not among them. -/
inductive Performs : {α : Type} → Lower α → Builder → List Request → Result LowerError Builder α → Prop
  | pure {α : Type} (a : α) (b : Builder) : Performs (Pure.pure a) b [] (.ok a b)
  | throw {α : Type} (e : LowerError) (b : Builder) : Performs (throw e : Lower α) b [] (.error e b)
  | bind {α β : Type} {x : Lower α} {g : α → Lower β} {b b₁ : Builder} {a : α} {es es' : List Request}
      {result : Result LowerError Builder β} (hx : Performs x b es (.ok a b₁))
      (hg : Performs (g a) b₁ es' result) : Performs (x >>= g) b (es ++ es') result
  | bind_error {α β : Type} {x : Lower α} {g : α → Lower β} {b b₁ : Builder} {e : LowerError}
      {es : List Request} (hx : Performs x b es (.error e b₁)) : Performs (x >>= g) b es (.error e b₁)
  | constant (c : Constant) (b : Builder) : Performs (constant c) b [] (constant c b)
  | identifier (name : String) (b : Builder) : Performs (identifier name) b [] (identifier name b)
  | function (B : Block) (b : Builder) : Performs (function B) b [] (function B b)
  | blockName (b : Builder) : Performs blockName b [] (blockName b)
  | emitItem (x : Item) (b : Builder) : Performs (emitItem x) b [] (emitItem x b)
  | newLabel (b : Builder) : Performs newLabel b [] (newLabel b)
  | bindLabel (l : Label) (b : Builder) : Performs (Lower.bind l) b [] (Lower.bind l b)
  | startCode (b : Builder) : Performs startCode b [] (startCode b)
  | taken {count : Nat} {b b' : Builder} {r : Register} (h : allocateRange count b = .ok r b') :
      Performs (allocateRange count) b [.taken r count] (.ok r b')
  | refused {count : Nat} {b b' : Builder} {e : LowerError} (h : allocateRange count b = .error e b') :
      Performs (allocateRange count) b [.refused count] (.error e b')
  | mark (b : Builder) : Performs mark b [.marked b.next] (mark b)
  | release (m : UInt16) (b : Builder) : Performs (release m) b [.released m] (release m b)
  | isolated (name : String) (count : UInt32) (act : Lower Unit) (b : Builder) :
      Performs (isolated name count act) b [] (isolated name count act b)

variable {α β : Type} {b b₁ b' : Builder} {es es' : List Request} {x : Lower α} {g : α → Lower β}

theorem bind_ok {a : α} (hx : x b = .ok a b₁) : (x >>= g) b = g a b₁ := by
  change EStateM.bind x g b = _
  rw [EStateM.bind, hx]

theorem bind_error {e : LowerError} (hx : x b = .error e b₁) : (x >>= g) b = .error e b₁ := by
  change EStateM.bind x g b = _
  rw [EStateM.bind, hx]

/-- The requests are those of the execution of the action. -/
theorem Performs.eq {result : Result LowerError Builder α} (h : Performs x b es result) : x b = result := by
  induction h with
  | bind _ _ hx hg => rw [Lower.bind_ok hx, hg]
  | bind_error _ hx => exact Lower.bind_error hx
  | taken h | refused h => exact h
  | _ => rfl

/-! ## Actions that follow the discipline -/

end Lower

/-- The requests lead from one builder to the other. The marks of `D` are returned to, the registers that
are handed out are counted, and the blocks that are nested have the property. -/
structure Builder.Accounts (G : Block → Prop) (D : List UInt16) (b : Builder) (es : List Request)
    (b' : Builder) : Prop where
  name : b'.block.name = b.block.name
  parameterCount : b'.block.parameterCount = b.block.parameterCount
  registers : b.block.registerCount.toNat ≤ b'.block.registerCount.toNat
  bound : b.block.registerCount.toNat ≤ 65535 → b'.block.registerCount.toNat ≤ 65535
  nested : ∀ B ∈ b'.block.functions, B ∈ b.block.functions ∨ G B
  granted : ∀ n, .refused n ∉ es
  counted : ∀ first n, .taken first n ∈ es → first.index + n ≤ b'.block.registerCount.toNat
  stack : ∀ ms, RegisterStack.Serves ⟨D ++ ms, b.next⟩ es ⟨ms, b'.next⟩

/-- A request is refused, and that is the last one. -/
def Request.Overflows (name : String) (es : List Request) (e : LowerError) : Prop :=
  ∃ before n, es = before ++ [.refused n] ∧ (∀ k, .refused k ∉ before) ∧ e = .registersExhausted name

namespace Lower

open EStateM (Result)

/-- Whatever the builder is, the action makes requests that follow the discipline of a stack and return to
the marks of `D`. If it fails, the error is one of `E`, or the last request was refused. Blocks that it
adds have the property `G`. -/
def Accounts (G : Block → Prop) (E : LowerError → Prop) (D : List UInt16) {α : Type} (x : Lower α) : Prop :=
  ∀ b, ∃ es, Performs x b es (x b) ∧ match x b with
    | .ok _ b' => b.Accounts G D es b'
    | .error e _ => (∀ ms, ∃ s, RegisterStack.Serves ⟨D ++ ms, b.next⟩ es s) ∧
        (E e ∨ Request.Overflows b.block.name es e)

namespace Accounts

variable {α β : Type} {G : Block → Prop} {E : LowerError → Prop} {D : List UInt16} {x : Lower α}
  {g : α → Lower β} {b b' : Builder}

/-- A change of the pools, the code and the labels only. -/
theorem of_quiet (hname : b'.block.name = b.block.name)
    (hcount : b'.block.parameterCount = b.block.parameterCount)
    (hregisters : b'.block.registerCount = b.block.registerCount)
    (hnested : ∀ B ∈ b'.block.functions, B ∈ b.block.functions ∨ G B) (hnext : b'.next = b.next) :
    b.Accounts G [] [] b' :=
  ⟨hname, hcount, hregisters ▸ Nat.le_refl _, hregisters ▸ id, hnested, nofun, nofun, fun _ => hnext ▸ .nil _⟩

/-- An action that never fails and asks for no register. -/
theorem quiet (hx : ∀ b, Performs x b [] (x b)) (h : ∀ b, ∃ a b', x b = .ok a b' ∧ b.Accounts G [] [] b') :
    Accounts G E [] x := by
  intro b
  obtain ⟨a, b', hb, hb'⟩ := h b
  refine ⟨[], hx b, ?_⟩
  rw [hb]
  exact hb'

theorem pure (a : α) : Accounts G E [] (Pure.pure a : Lower α) :=
  quiet (.pure a) fun b => ⟨a, b, rfl, of_quiet rfl rfl rfl (fun _ h => .inl h) rfl⟩

theorem emitItem (y : Item) : Accounts G E [] (Lower.emitItem y) :=
  quiet (.emitItem y) fun _ => ⟨_, _, rfl, of_quiet rfl rfl rfl (fun _ h => .inl h) rfl⟩

theorem emit (i : Instr) : Accounts G E [] (Lower.emit i) := emitItem _

theorem jump (l : Label) : Accounts G E [] (Lower.jump l) := emitItem _

theorem jumpIfFalse (r : Register) (l : Label) : Accounts G E [] (Lower.jumpIfFalse r l) := emitItem _

theorem constant (c : Constant) : Accounts G E [] (Lower.constant c) :=
  quiet (.constant c) fun b => ⟨_, _, rfl,
    have hhead := b.block.sameHead_addConstant c
    have hkept := b.block.kept_addConstant c
    of_quiet hhead.name hhead.parameterCount hkept.1 (fun _ h => .inl (hkept.2 ▸ h)) rfl⟩

theorem identifier (name : String) : Accounts G E [] (Lower.identifier name) :=
  quiet (.identifier name) fun b => ⟨_, _, rfl,
    have hhead := b.block.sameHead_addIdentifier name
    have hkept := b.block.kept_addIdentifier name
    of_quiet hhead.name hhead.parameterCount hkept.1 (fun _ h => .inl (hkept.2 ▸ h)) rfl⟩

/-- A block that has the property is added. -/
theorem function {B : Block} (hB : G B) : Accounts G E [] (Lower.function B) := by
  refine quiet (.function B) fun b => ⟨_, _, rfl, of_quiet rfl rfl rfl (fun f hf => ?_) rfl⟩
  rcases Array.mem_push.mp hf with hf | rfl
  · exact .inl hf
  · exact .inr hB

theorem blockName : Accounts G E [] Lower.blockName :=
  quiet .blockName fun _ => ⟨_, _, rfl, of_quiet rfl rfl rfl (fun _ h => .inl h) rfl⟩

theorem startCode : Accounts G E [] Lower.startCode :=
  quiet .startCode fun _ => ⟨_, _, rfl, of_quiet rfl rfl rfl (fun _ h => .inl h) rfl⟩

theorem bindLabel (l : Label) : Accounts G E [] (Lower.bind l) :=
  quiet (.bindLabel l) fun _ => ⟨_, _, rfl, of_quiet rfl rfl rfl (fun _ h => .inl h) rfl⟩

theorem throw {e : LowerError} (he : E e) : Accounts G E D (throw e : Lower α) :=
  fun b => ⟨[], .throw e b, fun _ => ⟨_, .nil _⟩, .inl he⟩

end Accounts

end Lower

/-- The requests of one action are followed by those of another one. -/
theorem Builder.Accounts.trans {G : Block → Prop} {D : List UInt16} {b b₁ b' : Builder} {es es' : List Request}
    (h : b.Accounts G [] es b₁) (h' : b₁.Accounts G D es' b') : b.Accounts G D (es ++ es') b' where
  name := h'.name.trans h.name
  parameterCount := h'.parameterCount.trans h.parameterCount
  registers := Nat.le_trans h.registers h'.registers
  bound := h'.bound ∘ h.bound
  nested B hB := (h'.nested B hB).elim (h.nested B) .inr
  granted n hn := (List.mem_append.mp hn).elim (h.granted n) (h'.granted n)
  counted first n hn := (List.mem_append.mp hn).elim
    (fun hn => Nat.le_trans (h.counted first n hn) h'.registers) (h'.counted first n)
  stack ms := (h.stack (D ++ ms)).append (h'.stack ms)

namespace Lower

namespace Accounts

variable {α β : Type} {G : Block → Prop} {E : LowerError → Prop} {D : List UInt16} {x : Lower α}
  {g : α → Lower β} {b b' : Builder}

/-- One action after another one, of whose answer it is known that it is one. -/
theorem bind_of (hx : Accounts G E [] x)
    (hg : ∀ a, (∃ b b', x b = .ok a b') → Accounts G E D (g a)) : Accounts G E D (x >>= g) := by
  intro b
  obtain ⟨es, hes, h⟩ := hx b
  cases hxb : x b with
  | error e b₁ =>
    rw [hxb] at hes h
    rw [Lower.bind_error hxb]
    exact ⟨es, .bind_error hes, fun ms => h.1 (D ++ ms), h.2⟩
  | ok a b₁ =>
    rw [hxb] at hes h
    obtain ⟨es', hes', h'⟩ := hg a ⟨b, b₁, hxb⟩ b₁
    refine ⟨es ++ es', ?_, ?_⟩
    · rw [Lower.bind_ok hxb]
      exact hes.bind hes'
    · rw [Lower.bind_ok hxb]
      cases hgb : g a b₁ with
      | ok c b' =>
        rw [hgb] at h'
        exact h.trans h'
      | error e b' =>
        rw [hgb] at h'
        refine ⟨fun ms => (h'.1 ms).imp fun s hs => (h.stack (D ++ ms)).append hs, h'.2.imp_right ?_⟩
        rintro ⟨before, n, rfl, hbefore, rfl⟩
        refine ⟨es ++ before, n, (List.append_assoc ..).symm, fun k hk => ?_, by rw [h.name]⟩
        exact (List.mem_append.mp hk).elim (h.granted k) (hbefore k)

/-- **One action after the other.** -/
theorem bind (hx : Accounts G E [] x) (hg : ∀ a, Accounts G E D (g a)) : Accounts G E D (x >>= g) :=
  hx.bind_of fun a _ => hg a

theorem seq {x : Lower Unit} {g : Unit → Lower β} (hx : Accounts G E [] x) (hg : Accounts G E D (g ())) :
    Accounts G E D (x >>= g) :=
  hx.bind fun _ => hg

theorem newLabel {g : Label → Lower β} (hg : ∀ l, Accounts G E D (g l)) :
    Accounts G E D (Lower.newLabel >>= g) :=
  bind (quiet .newLabel fun _ => ⟨_, _, rfl, of_quiet rfl rfl rfl (fun _ h => .inl h) rfl⟩) hg

/-- Registers are handed out from the first free one on. -/
theorem allocateRange (count : Nat) : Accounts G E [] (Lower.allocateRange count) := by
  intro b
  cases h : Lower.allocateRange count b with
  | ok r b' =>
    obtain ⟨-, hindex, hnext, hle, hregisters, -⟩ := allocateRange_spec h (.refl b')
    have hr : r = ⟨b.next⟩ := by
      obtain ⟨w⟩ := r
      exact congrArg _ (UInt16.toNat_inj.mp hindex)
    obtain rfl := Gives.allocateRange_eq_ok h
    have hcount : (UInt32.ofNat (b.next.toNat + count)).toNat = b.next.toNat + count :=
      UInt32.toNat_ofNat_of_lt' (by simp only [UInt32.size]; omega)
    refine ⟨_, .taken h, rfl, rfl, ?_, fun hb => ?_, fun _ h => .inl h, nofun, fun first n hn => ?_, fun ms => ?_⟩
    · exact (UInt32.toNat_max _ _).ge.trans' (Nat.le_max_left _ _)
    · rw [UInt32.toNat_max, hcount]
      exact Nat.max_le.mpr ⟨hb, hle⟩
    · obtain ⟨rfl, rfl⟩ : first = r ∧ n = count := by simpa using hn
      rw [hindex]
      exact hregisters
    · rw [hr]
      exact .taken hle (.nil _)
  | error e b' =>
    have hrefused : 65535 < b.next.toNat + count ∧ e = .registersExhausted b.block.name := by
      unfold Lower.allocateRange at h
      dsimp only at h
      split at h
      · cases h
      next hle =>
        cases h
        exact ⟨Nat.lt_of_not_le hle, rfl⟩
    exact ⟨_, .refused h, fun ms => ⟨_, .refused hrefused.1 (.nil _)⟩, .inr ⟨[], count, rfl, nofun, hrefused.2⟩⟩

/-- **A mark is taken**, to be returned to. -/
theorem mark {g : UInt16 → Lower β} (hg : ∀ m, Accounts G E (m :: D) (g m)) :
    Accounts G E D (Lower.mark >>= g) := by
  intro b
  obtain ⟨es, hes, h⟩ := hg b.next b
  have hstep : (Lower.mark >>= g) b = g b.next b := rfl
  refine ⟨.marked b.next :: es, Performs.bind (.mark b) (hstep ▸ hes), ?_⟩
  rw [hstep]
  cases hgb : g b.next b with
  | ok c b' =>
    rw [hgb] at h
    exact ⟨h.name, h.parameterCount, h.registers, h.bound, h.nested,
      fun n hn => h.granted n ((List.mem_cons.mp hn).resolve_left nofun),
      fun first n hn => h.counted first n ((List.mem_cons.mp hn).resolve_left nofun), fun ms => .marked (h.stack ms)⟩
  | error e b' =>
    rw [hgb] at h
    refine ⟨fun ms => (h.1 ms).imp fun _ hs => .marked hs, h.2.imp_right ?_⟩
    rintro ⟨before, n, rfl, hbefore, rfl⟩
    exact ⟨.marked b.next :: before, n, rfl, fun k hk => hbefore k ((List.mem_cons.mp hk).resolve_left nofun), rfl⟩

/-- **The latest mark is returned to**, and the code goes on. -/
theorem release_seq {m : UInt16} {g : Unit → Lower β} (hg : Accounts G E D (g ())) :
    Accounts G E (m :: D) (Lower.release m >>= g) := by
  intro b
  obtain ⟨B, items, labels, next⟩ := b
  obtain ⟨es, hes, h⟩ := hg ⟨B, items, labels, m⟩
  have hstep : (Lower.release m >>= g) ⟨B, items, labels, next⟩ = g () ⟨B, items, labels, m⟩ := rfl
  refine ⟨.released m :: es, Performs.bind (.release m _) (hstep ▸ hes), ?_⟩
  rw [hstep]
  cases hgb : g () ⟨B, items, labels, m⟩ with
  | ok c b' =>
    rw [hgb] at h
    exact ⟨h.name, h.parameterCount, h.registers, h.bound, h.nested,
      fun n hn => h.granted n ((List.mem_cons.mp hn).resolve_left nofun),
      fun first n hn => h.counted first n ((List.mem_cons.mp hn).resolve_left nofun), fun ms => .released (h.stack ms)⟩
  | error e b' =>
    rw [hgb] at h
    refine ⟨fun ms => (h.1 ms).imp fun _ hs => .released hs, h.2.imp_right ?_⟩
    rintro ⟨before, n, rfl, hbefore, rfl⟩
    exact ⟨.released m :: before, n, rfl, fun k hk => hbefore k ((List.mem_cons.mp hk).resolve_left nofun), rfl⟩

theorem release (m : UInt16) : Accounts G E [m] (Lower.release m) :=
  release_seq (g := Pure.pure) (pure ())

/-- A block of its own fails only as its code does. -/
theorem isolated {name : String} {count : UInt32} {act : Lower Unit}
    (h : ∀ e b', act (.new name count) = .error e b' → E e) : Accounts G E [] (Lower.isolated name count act) := by
  intro b
  refine ⟨[], .isolated name count act b, ?_⟩
  rw [Lower.isolated]
  cases hact : act (.new name count) with
  | ok a c => exact of_quiet rfl rfl rfl (fun _ h => .inl h) rfl
  | error e c => exact ⟨fun _ => ⟨_, .nil _⟩, .inl (h e c hact)⟩

end Accounts

/-- All code inside a scope follows the discipline. -/
theorem accounts_local (G : Block → Prop) (E : LowerError → Prop) :
    Local (fun _ => True) fun _ _ _ x => Accounts G E [] x where
  pure := .pure
  bind := .bind
  emit _ := .emit _
  define _ _ := .bind (.identifier _) fun _ => .emit _
  infer _ _ _ := .seq (.emit _) <| .seq (.emit _) <| .emit _
  emitJump _ _ := .emitItem _
  newLabel := .newLabel
  bindLabel _ := .bindLabel _
  bindLabel_seq _ hx := .seq (.bindLabel _) hx
  identifier := .identifier
  constant := .constant
  allocateRange := .allocateRange
  giveBack hx := .mark fun _ => .seq hx <| .release _

end Lower

end Reified
