import Mathlib.Tactic.IntervalCases
import Reified.Block.Basic

/-!
# Reading is the inverse of writing

Instructions follow each other in the bytes of a block without anything between them. The opcode
says which operands follow, and each operand says by its kind how long it is, so bytes can be cut
into instructions in one way only, and each way of cutting them gives back the same bytes.

## Main definitions

* `Reader.Reads` — a reader accepts exactly what a writer writes

## Main results

* `Reader.reads_operand`, `Reader.reads_operands`, `Reader.reads_instr`
* `Instr.decodeAll_eq_ok_iff` — the same for instructions until the bytes end
* `Instr.encoding_bijective` — instructions and the bytes that are accepted determine each other
-/

namespace Reified

/-! ## Words -/

theorem bytes16_word (a b : UInt8) : bytes16 (a.toUInt16 <<< 8 ||| b.toUInt16) = [a, b] := by
  simp only [bytes16, List.cons.injEq, and_true]
  refine ⟨?_, ?_⟩ <;> apply UInt8.eq_of_toBitVec_eq <;> apply BitVec.eq_of_getLsbD_eq <;>
    intro i hi <;> interval_cases i <;> simp

theorem word_bytes16 (n : UInt16) :
    (n >>> 8).toUInt8.toUInt16 <<< 8 ||| n.toUInt8.toUInt16 = n := by
  apply UInt16.eq_of_toBitVec_eq
  apply BitVec.eq_of_getLsbD_eq
  intro i hi
  interval_cases i <;> simp [-UInt16.toUInt16_toUInt8]

theorem bytes32_word (a b d e : UInt8) :
    bytes32 (a.toUInt32 <<< 24 ||| b.toUInt32 <<< 16 ||| d.toUInt32 <<< 8 ||| e.toUInt32) =
      [a, b, d, e] := by
  simp only [bytes32, List.cons.injEq, and_true]
  refine ⟨?_, ?_, ?_, ?_⟩ <;> apply UInt8.eq_of_toBitVec_eq <;> apply BitVec.eq_of_getLsbD_eq <;>
    intro i hi <;> interval_cases i <;> simp

theorem word_bytes32 (n : UInt32) :
    (n >>> 24).toUInt8.toUInt32 <<< 24 ||| (n >>> 16).toUInt8.toUInt32 <<< 16 |||
      (n >>> 8).toUInt8.toUInt32 <<< 8 ||| n.toUInt8.toUInt32 = n := by
  apply UInt32.eq_of_toBitVec_eq
  apply BitVec.eq_of_getLsbD_eq
  intro i hi
  interval_cases i <;> simp [-UInt32.toUInt32_toUInt8]

/-! ## Codes of one byte -/

/-- Of a list that is numbered in order, a position is the code of the member there. -/
theorem eq_code_of_getElem? {α : Type} {all : List α} {code : α → UInt8}
    (hcodes : all.map code = (List.range all.length).map UInt8.ofNat) {b : UInt8} {x : α}
    (h : all[b.toNat]? = some x) : b = code x := by
  have hx : (all.map code)[b.toNat]? = some (code x) := by rw [List.getElem?_map, h, Option.map_some]
  have hlt := (List.getElem?_eq_some_iff.1 h).1
  rw [hcodes, List.getElem?_map, List.getElem?_range hlt, Option.map_some, UInt8.ofNat_toNat,
    Option.some.injEq] at hx
  exact hx

theorem Opcode.ofCode?_eq_some_iff {b : UInt8} {op : Opcode} :
    Opcode.ofCode? b = some op ↔ b = op.code :=
  ⟨eq_code_of_getElem? (by rfl), fun h => h ▸ Opcode.ofCode?_code op⟩

theorem TyClass.ofCode?_eq_some_iff {b : UInt8} {c : TyClass} :
    TyClass.ofCode? b = some c ↔ b = c.code :=
  ⟨eq_code_of_getElem? (by rfl), fun h => h ▸ TyClass.ofCode?_code c⟩

theorem CellKind.ofCode?_eq_some_iff {b : UInt8} {k : CellKind} :
    CellKind.ofCode? b = some k ↔ b = k.code :=
  ⟨eq_code_of_getElem? (by rfl), fun h => h ▸ CellKind.ofCode?_code k⟩

namespace Reader

variable {α β : Type} {c d : Cursor}

theorem flag?_eq_some_iff {b : UInt8} {x : Bool} :
    flag? b = some x ↔ b = if x then 1 else 0 := by
  unfold flag?
  rcases Decidable.em (b = 0) with rfl | h0
  · cases x <;> decide
  · rcases Decidable.em (b = 1) with rfl | h1
    · cases x <;> decide
    · cases x <;> simp [h0, h1]

/-! ## Readers -/

/-- Reading gives a value exactly where the bytes of the value come next, and stops behind them. -/
def Reads (r : Reader α) (bytes : α → List UInt8) : Prop :=
  ∀ (c d : Cursor) (x : α),
    r c = .ok x d ↔ c.rest = bytes x ++ d.rest ∧ d.offset = c.offset + (bytes x).length

theorem reads_byte : Reads byte fun b => [b] := by
  intro c d x
  obtain ⟨offset, rest⟩ := c
  obtain ⟨offset', rest'⟩ := d
  cases rest with
  | nil => simp [byte]
  | cons b rest =>
    simp only [byte, EStateM.Result.ok.injEq, Cursor.mk.injEq, List.singleton_append,
      List.cons.injEq, List.length_singleton]
    exact ⟨fun ⟨hb, ho, hr⟩ => ⟨⟨hb, hr⟩, ho.symm⟩, fun ⟨⟨hb, hr⟩, ho⟩ => ⟨hb, ho.symm, hr⟩⟩

theorem reads_word16 : Reads word16 bytes16 := by
  intro c d n
  obtain ⟨offset, rest⟩ := c
  obtain ⟨offset', rest'⟩ := d
  match rest with
  | [] | [_] => simp [word16, bytes16]
  | a :: b :: rest =>
    simp only [word16, EStateM.Result.ok.injEq, Cursor.mk.injEq]
    constructor
    · rintro ⟨rfl, rfl, rfl⟩
      rw [bytes16_word]
      exact ⟨rfl, rfl⟩
    · rintro ⟨h, rfl⟩
      simp only [bytes16, List.cons_append, List.nil_append, List.cons.injEq] at h
      obtain ⟨rfl, rfl, rfl⟩ := h
      exact ⟨word_bytes16 n, rfl, rfl⟩

theorem reads_word32 : Reads word32 bytes32 := by
  intro c d n
  obtain ⟨offset, rest⟩ := c
  obtain ⟨offset', rest'⟩ := d
  match rest with
  | [] | [_] | [_, _] | [_, _, _] => simp [word32, bytes32]
  | a :: b :: x :: y :: rest =>
    simp only [word32, EStateM.Result.ok.injEq, Cursor.mk.injEq]
    constructor
    · rintro ⟨rfl, rfl, rfl⟩
      rw [bytes32_word]
      exact ⟨rfl, rfl⟩
    · rintro ⟨h, rfl⟩
      simp only [bytes32, List.cons_append, List.nil_append, List.cons.injEq] at h
      obtain ⟨rfl, rfl, rfl, rfl, rfl⟩ := h
      exact ⟨word_bytes32 n, rfl, rfl⟩

theorem reads_tag {kind : OperandKind} {meaning? : UInt8 → Option α} {code : α → UInt8}
    (h : ∀ {b x}, meaning? b = some x ↔ b = code x) :
    Reads (tag kind meaning?) fun x => [code x] := by
  intro c d x
  rw [← reads_byte]
  unfold tag
  split
  next b d' hb =>
    rw [hb, EStateM.Result.ok.injEq]
    split
    next y hy =>
      rw [h.1 hy, EStateM.Result.ok.injEq]
      exact and_congr_left fun _ =>
        ⟨congrArg code, fun hcode => Option.some.inj (by rw [← h.2 rfl, ← h.2 hcode])⟩
    next hnone =>
      refine iff_of_false (fun hx => by cases hx) fun ⟨hx, _⟩ => ?_
      rw [h.2 hx] at hnone
      cases hnone
  next e d' hb => rw [hb]; exact iff_of_false (fun hx => by cases hx) fun hx => by cases hx

/-- Reading something that is written as something else. -/
theorem Reads.map {r : Reader α} {r' : Reader β} {bytes : α → List UInt8} {f : α → β} {g : β → α}
    (hr : Reads r bytes) (hgf : ∀ x, g (f x) = x) (hfg : ∀ y, f (g y) = y)
    (hr' : ∀ c, r' c = match r c with
      | .ok x d => .ok (f x) d
      | .error e d => .error e d) : Reads r' fun y => bytes (g y) := by
  intro c d y
  rw [← hr, hr']
  split
  next x d' hx =>
    rw [hx, EStateM.Result.ok.injEq, EStateM.Result.ok.injEq]
    exact and_congr_left fun _ => ⟨fun h => h ▸ (hgf x).symm, fun h => h ▸ hfg y⟩
  next e d' hx => rw [hx]; exact iff_of_false (fun h => by cases h) fun h => by cases h

theorem reads_operand (k : OperandKind) : Reads (operand k) k.encode := by
  cases k with
  | register =>
    exact reads_word16.map (g := Register.number) (fun _ => rfl) (fun _ => rfl) fun c => by
      cases h : word16 c <;> simp only [operand, h]
  | target =>
    exact reads_word32.map (g := Int32.toUInt32) UInt32.toUInt32_toInt32 Int32.toInt32_toUInt32
      fun c => by cases h : word32 c <;> simp only [operand, h]
  | constant | identifier | function | count => exact reads_word32
  | flag => exact reads_tag flag?_eq_some_iff
  | tyClass => exact reads_tag TyClass.ofCode?_eq_some_iff
  | cell => exact reads_tag CellKind.ofCode?_eq_some_iff

theorem operands_cons_eq_ok_iff {k : OperandKind} {ks : List OperandKind} {c d : Cursor}
    {x : k.Carrier} {xs : Operands ks} :
    operands (k :: ks) c = .ok (x, xs) d ↔ ∃ e, operand k c = .ok x e ∧ operands ks e = .ok xs d := by
  cases hy : operand k c with
  | error => simp only [operands, hy, reduceCtorEq, false_and, exists_false]
  | ok y e =>
    cases hys : operands ks e with
    | error =>
      simp only [operands, hy, hys, reduceCtorEq, false_iff]
      rintro ⟨_, hx, hxs⟩
      cases hx
      rw [hys] at hxs
      cases hxs
    | ok ys f =>
      simp only [operands, hy, hys]
      constructor
      · intro h
        cases h
        exact ⟨e, rfl, hys⟩
      · rintro ⟨_, hx, hxs⟩
        cases hx
        rw [hys] at hxs
        cases hxs
        rfl

theorem reads_operands : (ks : List OperandKind) → Reads (operands ks) (Operands.encode ks)
  | [] => by
    rintro ⟨offset, rest⟩ ⟨offset', rest'⟩ ⟨⟩
    constructor
    · intro h
      cases h
      exact ⟨rfl, rfl⟩
    · rintro ⟨h, ho⟩
      cases h
      cases ho
      rfl
  | k :: ks => by
    rintro c d ⟨x, xs⟩
    simp only [operands_cons_eq_ok_iff, reads_operand k c _ x, reads_operands ks _ d xs,
      Operands.encode, List.append_assoc, List.length_append]
    constructor
    · rintro ⟨e, ⟨hx, ho⟩, hxs, ho'⟩
      exact ⟨by rw [hx, hxs], by omega⟩
    · rintro ⟨h, ho⟩
      exact ⟨⟨c.offset + (k.encode x).length, Operands.encode ks xs ++ d.rest⟩, ⟨h, rfl⟩, rfl, by
        simp only; omega⟩

theorem instr_eq_ok_iff {c d : Cursor} {i : Instr} :
    instr c = .ok i d ↔ ∃ (op : Opcode) (xs : Operands op.shape) (e : Cursor),
      i = Instr.build op xs ∧ byte c = .ok op.code e ∧ operands op.shape e = .ok xs d := by
  constructor
  · intro h
    unfold instr at h
    split at h
    next => cases h
    next b e hb =>
      split at h
      next => cases h
      next op hop =>
        obtain rfl := Opcode.ofCode?_eq_some_iff.1 hop
        split at h
        next => cases h
        next xs f hxs =>
          cases h
          exact ⟨op, xs, e, rfl, hb, hxs⟩
  · rintro ⟨op, xs, e, rfl, hb, hxs⟩
    simp only [instr, hb, Opcode.ofCode?_code, hxs]

end Reader

theorem Instr.encode_build (op : Opcode) (xs : Operands op.shape) :
    (Instr.build op xs).encode = op.code :: Operands.encode op.shape xs := by
  cases op <;> rfl

/-- **Reading an instruction is the inverse of writing it.** -/
theorem Reader.reads_instr : Reads instr Instr.encode := by
  intro c d i
  rw [instr_eq_ok_iff]
  constructor
  · rintro ⟨op, xs, e, rfl, hb, hxs⟩
    obtain ⟨hc, ho⟩ := (reads_byte c e op.code).1 hb
    obtain ⟨he, ho'⟩ := (reads_operands op.shape e d xs).1 hxs
    rw [Instr.encode_build, hc, he, ho', ho]
    exact ⟨rfl, by simp only [List.length_cons, List.length_nil]; omega⟩
  · rintro ⟨hc, ho⟩
    refine ⟨i.opcode, i.args, ⟨c.offset + 1, Operands.encode i.opcode.shape i.args ++ d.rest⟩,
      i.build_args.symm, (reads_byte _ _ _).2 ⟨hc, rfl⟩, (reads_operands _ _ _ _).2 ⟨rfl, ?_⟩⟩
    simp only [Instr.encode, List.length_cons] at ho
    simp only
    omega

namespace Instr

/-! ## Streams -/

theorem encode_ne_nil (i : Instr) : i.encode ≠ [] := by
  simp only [encode, ne_eq, reduceCtorEq, not_false_eq_true]

theorem encodeAll_cons (i : Instr) (is : List Instr) :
    encodeAll (i :: is) = i.encode ++ encodeAll is := rfl

/-- Reading on until the bytes end adds the instructions that the bytes are made of. -/
theorem decodeFrom_eq_ok_iff (done : List Instr) (c : Cursor) (is : List Instr) :
    decodeFrom done c = .ok is ↔ ∃ rest, is = done.reverse ++ rest ∧ c.rest = encodeAll rest := by
  fun_induction decodeFrom done c with
  | case1 done c hc =>
    rw [Except.ok.injEq]
    constructor
    · rintro rfl
      exact ⟨[], (List.append_nil _).symm, hc⟩
    · rintro ⟨rest, rfl, hrest⟩
      cases rest with
      | nil => exact (List.append_nil _).symm
      | cons i rest =>
        rw [hc, encodeAll_cons] at hrest
        exact absurd (List.append_eq_nil_iff.1 hrest.symm).1 i.encode_ne_nil
  | case2 done c hc i d h _ ih =>
    rw [ih]
    obtain ⟨hci, -⟩ := (Reader.reads_instr c d i).1 h
    constructor
    · rintro ⟨rest, rfl, hd⟩
      exact ⟨i :: rest, by simp, by rw [hci, hd, encodeAll_cons]⟩
    · rintro ⟨rest, rfl, hrest⟩
      cases rest with
      | nil => exact absurd hrest hc
      | cons j rest =>
        -- The instruction that was read is the first of them, since reading has one result.
        rw [encodeAll_cons] at hrest
        have hj := (Reader.reads_instr c ⟨c.offset + j.encode.length, encodeAll rest⟩ j).2 ⟨hrest, rfl⟩
        rw [h, EStateM.Result.ok.injEq] at hj
        obtain ⟨rfl, rfl⟩ := hj
        exact ⟨rest, by simp, rfl⟩
  | case3 done c hc e d h =>
    refine iff_of_false (fun h => by cases h) ?_
    rintro ⟨rest, -, hrest⟩
    cases rest with
    | nil => exact hc hrest
    | cons j rest =>
      rw [encodeAll_cons] at hrest
      have hj := (Reader.reads_instr c ⟨c.offset + j.encode.length, encodeAll rest⟩ j).2 ⟨hrest, rfl⟩
      rw [h] at hj
      cases hj

/-- Bytes are accepted exactly if they are those of some instructions, one after the other. -/
theorem decodeAll_eq_ok_iff (bytes : List UInt8) (is : List Instr) :
    decodeAll bytes = .ok is ↔ bytes = encodeAll is := by
  rw [decodeAll, decodeFrom_eq_ok_iff]
  constructor
  · rintro ⟨rest, rfl, h⟩
    exact h
  · exact fun h => ⟨is, rfl, h⟩

theorem encodeAll_injective : Function.Injective encodeAll := by
  intro is js h
  have his := (decodeAll_eq_ok_iff (encodeAll is) is).2 rfl
  rw [(decodeAll_eq_ok_iff (encodeAll is) js).2 h] at his
  exact (Except.ok.inj his).symm

/-- An instruction is read at an offset exactly if its bytes stand there, and reading advances by
as many bytes as the instruction has. -/
theorem instr_at_eq_ok_iff (bytes : List UInt8) (offset : Nat) (i : Instr) (d : Cursor) :
    Reader.instr (.at bytes offset) = .ok i d ↔
      bytes.drop offset = i.encode ++ bytes.drop (offset + i.encode.length) ∧
        d = .at bytes (offset + i.encode.length) := by
  rw [Reader.reads_instr]
  constructor
  · rintro ⟨h, ho⟩
    have hrest : d.rest = bytes.drop (offset + i.encode.length) := by
      rw [← List.drop_drop]
      simp only [Cursor.at] at h
      rw [h, List.drop_left]
    refine ⟨hrest ▸ h, ?_⟩
    cases d
    simp only at hrest ho
    rw [hrest, ho]
    rfl
  · rintro ⟨h, rfl⟩
    exact ⟨h, rfl⟩

/-- **Instructions and the bytes that are accepted determine each other.** Bytes are read as some
instructions exactly if they are the bytes of these instructions, one after the other. So reading
undoes writing, different instructions have different bytes, and what is accepted is written back
as it was. At any offset, what is read is what stands there, and reading goes on right behind it. -/
theorem encoding_bijective :
    (∀ bytes is, decodeAll bytes = .ok is ↔ bytes = encodeAll is) ∧
    (∀ B : Block, decodeAll B.encode = .ok B.code.toList) ∧
    Function.Injective encodeAll ∧
    (∀ bytes, (decodeAll bytes).map encodeAll = .ok bytes ↔ ∃ is, decodeAll bytes = .ok is) ∧
    ∀ bytes offset i d, Reader.instr (.at bytes offset) = .ok i d ↔
      bytes.drop offset = i.encode ++ bytes.drop (offset + i.encode.length) ∧
        d = .at bytes (offset + i.encode.length) := by
  refine ⟨decodeAll_eq_ok_iff, fun B => (decodeAll_eq_ok_iff _ _).2 rfl, encodeAll_injective,
    fun bytes => ?_, instr_at_eq_ok_iff⟩
  cases h : decodeAll bytes with
  | error e => exact iff_of_false (fun h => by cases h) fun ⟨_, h⟩ => by cases h
  | ok is =>
    rw [(decodeAll_eq_ok_iff bytes is).1 h]
    exact iff_of_true rfl ⟨is, rfl⟩

end Instr

end Reified
