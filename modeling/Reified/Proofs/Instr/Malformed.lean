import Reified.Proofs.Instr.Codec

/-!
# Why bytes are no instructions

Bytes that are no instructions are so for one of two reasons. They may end too early, and then more bytes would make
them the bytes of instructions; or there is a first byte behind which nothing helps any more. Decoding tells these
apart, and its error names this byte and where it is.

What a reader refuses is described from the start of what it reads. The description of a part, of an operand say, is
that of the whole once the bytes in front of the part are put in front, since these leave no choice.

## Main definitions

* `DecodeError.offset`, `DecodeError.Blames` — where an error is, and the byte that it names
* `Reader.Rejects` — bytes that are none of those that a writer writes, for the reason that an error gives
* `Reader.Refuses` — whatever the reader rejects, it rejects for the reason that it gives

## Main results

* `Reader.refuses_operand`, `Reader.refuses_operands`, `Reader.refuses_instr`
* `Instr.decodeAll_error_exact` — **errors of decoding** say exactly why and where
-/

namespace Reified

/-! ## Errors -/

namespace DecodeError

/-- Where the error is. -/
def offset : DecodeError → Nat
  | .unexpectedEnd offset | .unknownOpcode _ offset | .invalidOperand _ _ offset => offset

/-- The error says that the byte at the offset is no opcode, or that an operand cannot be this byte. -/
def Blames (e : DecodeError) (b : UInt8) (offset : Nat) : Prop :=
  e = .unknownOpcode b offset ∨ ∃ kind, e = .invalidOperand kind b offset

theorem Blames.offset_eq {e : DecodeError} {b : UInt8} {offset : Nat} (h : e.Blames b offset) : e.offset = offset := by
  obtain rfl | ⟨kind, rfl⟩ := h <;> rfl

end DecodeError

theorem Operands.nonempty : (ks : List OperandKind) → Nonempty (Operands ks)
  | [] => ⟨()⟩
  | k :: ks => by
    obtain ⟨xs⟩ := nonempty ks
    cases k <;> exact ⟨default, xs⟩

namespace Reader

variable {α β : Type} {r : Reader α} {bytes : α → List UInt8} {bytes' : β → List UInt8} {start : Nat}
  {s front : List UInt8} {e : DecodeError}

/-! ## What is rejected -/

/-- The bytes `s`, the first of which is at the offset `start`, are not those of any value with something behind them,
for the reason that the error gives: they end within the bytes of some value, or one of them is wrong, whereas those
before it are the first ones of some value. -/
inductive Rejects (bytes : α → List UInt8) (start : Nat) (s : List UInt8) : DecodeError → Prop
  | ends {offset : Nat} {x : α} (hoffset : offset ≤ start + s.length) (hx : s <+: bytes x) (hne : s ≠ bytes x) :
      Rejects bytes start s (.unexpectedEnd offset)
  | wrong {e : DecodeError} {p q : List UInt8} {b : UInt8} {x : α} (hs : s = p ++ b :: q)
      (he : e.Blames b (start + p.length)) (hx : p <+: bytes x) (hnone : ∀ y w w', p ++ b :: w ≠ bytes y ++ w') :
      Rejects bytes start s e

/-- What the reader does not accept it rejects for the reason that it gives. -/
def Refuses (r : Reader α) (bytes : α → List UInt8) : Prop :=
  ∀ ⦃c d : Cursor⦄ ⦃e : DecodeError⦄, r c = .error e d → Rejects bytes c.offset c.rest e

/-- The bytes of two values do not begin alike. -/
theorem Reads.unique (hr : Reads r bytes) {x y : α} {w w' : List UInt8} (h : bytes x ++ w = bytes y ++ w') :
    x = y ∧ w = w' := by
  have hx := (hr ⟨0, bytes x ++ w⟩ ⟨0 + (bytes x).length, w⟩ x).2 ⟨rfl, rfl⟩
  have hy := (hr ⟨0, bytes x ++ w⟩ ⟨0 + (bytes y).length, w'⟩ y).2 ⟨h, rfl⟩
  rw [hx, EStateM.Result.ok.injEq, Cursor.mk.injEq] at hy
  exact ⟨hy.1, hy.2.2⟩

/-- What is rejected at the front of something longer is rejected there, too. -/
theorem Rejects.first (h : Rejects bytes start s e) (hlonger : ∀ x, ∃ y, bytes x <+: bytes' y)
    (hfront : ∀ y, ∃ x, bytes x <+: bytes' y) : Rejects bytes' start s e := by
  cases h with
  | @ends offset x hoffset hx hne =>
    obtain ⟨y, hy⟩ := hlonger x
    refine .ends hoffset (hx.trans hy) fun heq => hne ?_
    exact hx.eq_of_length_le (heq ▸ hy.length_le)
  | @wrong _ p q b x hs he hx hnone =>
    obtain ⟨y, hy⟩ := hlonger x
    refine .wrong hs he (hx.trans hy) fun z w w' heq => ?_
    obtain ⟨x', t, ht⟩ := hfront z
    rw [← ht, List.append_assoc] at heq
    exact hnone x' w (t ++ w') heq

/-- What is rejected behind something is rejected, if this leaves only values with the same front. -/
theorem Rejects.behind (h : Rejects bytes (start + front.length) s e) (hlonger : ∀ x, ∃ y, bytes' y = front ++ bytes x)
    (hfront : ∀ y w w', front ++ w = bytes' y ++ w' → ∃ x, bytes' y = front ++ bytes x) :
    Rejects bytes' start (front ++ s) e := by
  cases h with
  | @ends offset x hoffset hx hne =>
    obtain ⟨y, hy⟩ := hlonger x
    refine .ends (x := y) ?_ ?_ ?_
    · rw [List.length_append]
      omega
    · rw [hy]
      exact (List.prefix_append_right_inj front).2 hx
    · rw [hy]
      exact fun heq => hne (List.append_cancel_left heq)
  | @wrong _ p q b x hs he hx hnone =>
    obtain ⟨y, hy⟩ := hlonger x
    refine .wrong (p := front ++ p) (b := b) (q := q) (x := y) ?_ ?_ ?_ fun z w w' heq => ?_
    · rw [hs, List.append_assoc]
    · rwa [List.length_append, ← Nat.add_assoc]
    · rw [hy]
      exact (List.prefix_append_right_inj front).2 hx
    · rw [List.append_assoc] at heq
      obtain ⟨x', hz⟩ := hfront z _ _ heq
      rw [hz, List.append_assoc] at heq
      exact hnone x' w w' (List.append_cancel_left heq)

/-! ## Readers -/

theorem refuses_byte : Refuses byte fun b => [b] := by
  rintro ⟨offset, _ | ⟨b, rest⟩⟩ d e h
  · cases h
    exact .ends (x := 0) (Nat.le_add_right _ _) List.nil_prefix (by simp)
  · cases h

/-- Too few bytes for a number of sixteen bits are the first ones of one. -/
theorem rejects_bytes16 {t : List UInt8} (ht : t.length < 2) :
    Rejects bytes16 start t (.unexpectedEnd start) := by
  obtain ⟨n, hn⟩ : ∃ n, t <+: bytes16 n := by
    match t with
    | [] => exact ⟨0, List.nil_prefix⟩
    | [a] => exact ⟨_, [0], (bytes16_word a 0).symm⟩
    | _ :: _ :: t => exact absurd ht (by simp)
  exact .ends (Nat.le_add_right _ _) hn fun heq => absurd (heq ▸ ht : (bytes16 n).length < 2) (by simp [bytes16])

theorem refuses_word16 : Refuses word16 bytes16 := by
  rintro ⟨offset, rest⟩ d e h
  match rest with
  | [] | [_] =>
    cases h
    exact rejects_bytes16 (by simp)
  | _ :: _ :: _ => cases h

/-- Too few bytes for a number of thirty-two bits are the first ones of one. -/
theorem rejects_bytes32 {t : List UInt8} (ht : t.length < 4) :
    Rejects bytes32 start t (.unexpectedEnd start) := by
  obtain ⟨n, hn⟩ : ∃ n, t <+: bytes32 n := by
    match t with
    | [] => exact ⟨0, List.nil_prefix⟩
    | [a] => exact ⟨_, [0, 0, 0], (bytes32_word a 0 0 0).symm⟩
    | [a, b] => exact ⟨_, [0, 0], (bytes32_word a b 0 0).symm⟩
    | [a, b, c] => exact ⟨_, [0], (bytes32_word a b c 0).symm⟩
    | _ :: _ :: _ :: _ :: t => exact absurd ht (by simp)
  exact .ends (Nat.le_add_right _ _) hn fun heq => absurd (heq ▸ ht : (bytes32 n).length < 4) (by simp [bytes32])

theorem refuses_word32 : Refuses word32 bytes32 := by
  rintro ⟨offset, rest⟩ d e h
  match rest with
  | [] | [_] | [_, _] | [_, _, _] =>
    cases h
    exact rejects_bytes32 (by simp)
  | _ :: _ :: _ :: _ :: _ => cases h

theorem refuses_tag [Inhabited α] {kind : OperandKind} {meaning? : UInt8 → Option α} {code : α → UInt8}
    (hcode : ∀ {b x}, meaning? b = some x ↔ b = code x) : Refuses (tag kind meaning?) fun x => [code x] := by
  rintro ⟨offset, _ | ⟨b, rest⟩⟩ d e h
  · cases h
    exact .ends (x := default) (Nat.le_add_right _ _) List.nil_prefix (by simp)
  · simp only [tag, byte] at h
    cases hb : meaning? b with
    | some x =>
      rw [hb] at h
      cases h
    | none =>
      rw [hb] at h
      cases h
      refine .wrong (p := []) (x := default) rfl (.inr ⟨kind, rfl⟩) List.nil_prefix fun y w w' heq => ?_
      rw [hcode.2 (List.cons.inj heq).1] at hb
      cases hb

/-- Refusing what is written as something else. -/
theorem Refuses.map {r' : Reader β} {f : α → β} {g : β → α} (hr : Refuses r bytes) (hgf : ∀ x, g (f x) = x)
    (hr' : ∀ c, r' c = match r c with
      | .ok x d => .ok (f x) d
      | .error e d => .error e d) : Refuses r' fun y => bytes (g y) := by
  intro c d e h
  rw [hr'] at h
  cases hc : r c with
  | ok x c' =>
    rw [hc] at h
    cases h
  | error e' c' =>
    rw [hc] at h
    cases h
    refine (hr hc).first (fun x => ⟨f x, [], ?_⟩) fun y => ⟨g y, List.prefix_rfl⟩
    rw [hgf, List.append_nil]

theorem refuses_operand (k : OperandKind) : Refuses (operand k) k.encode := by
  cases k with
  | register =>
    exact refuses_word16.map (g := Register.number) (fun _ => rfl) fun c => by
      cases h : word16 c <;> simp only [operand, h]
  | target =>
    exact refuses_word32.map (g := Int32.toUInt32) UInt32.toUInt32_toInt32 fun c => by
      cases h : word32 c <;> simp only [operand, h]
  | constant | identifier | function | count => exact refuses_word32
  | flag => exact refuses_tag flag?_eq_some_iff
  | tyClass => exact refuses_tag TyClass.ofCode?_eq_some_iff
  | cell => exact refuses_tag CellKind.ofCode?_eq_some_iff

theorem refuses_operands : (ks : List OperandKind) → Refuses (operands ks) (Operands.encode ks)
  | [] => fun _ _ _ h => by cases h
  | k :: ks => by
    intro c d e h
    cases hx : operand k c with
    | error e' c' =>
      simp only [operands, hx] at h
      cases h
      obtain ⟨xs⟩ := Operands.nonempty ks
      exact (refuses_operand k hx).first (fun x => ⟨(x, xs), List.prefix_append _ _⟩)
        fun y => ⟨y.1, List.prefix_append _ _⟩
    | ok x c' =>
      obtain ⟨hc, hoffset⟩ := (reads_operand k _ _ _).1 hx
      cases hxs : operands ks c' with
      | ok xs c'' =>
        simp only [operands, hx, hxs] at h
        cases h
      | error e' c'' =>
        simp only [operands, hx, hxs] at h
        cases h
        have hrest := refuses_operands ks hxs
        rw [hoffset] at hrest
        rw [hc]
        refine hrest.behind (fun xs => ⟨(x, xs), rfl⟩) fun y w w' heq => ?_
        obtain ⟨x', xs'⟩ := y
        rw [Operands.encode, List.append_assoc] at heq
        obtain ⟨rfl, -⟩ := (reads_operand k).unique heq
        exact ⟨xs', rfl⟩

/-- **An instruction is refused** at the first byte that makes it impossible, or because the bytes end too early. -/
theorem refuses_instr : Refuses instr Instr.encode := by
  rintro ⟨offset, _ | ⟨b, rest⟩⟩ d e h
  · cases h
    exact .ends (x := default) (Nat.le_add_right _ _) List.nil_prefix (Instr.encode_ne_nil _).symm
  · cases hop : Opcode.ofCode? b with
    | none =>
      simp only [instr, byte, hop] at h
      cases h
      refine .wrong (p := []) (x := default) rfl (.inl rfl) List.nil_prefix fun i w w' heq => ?_
      rw [(List.cons.inj heq).1, Opcode.ofCode?_code] at hop
      cases hop
    | some op =>
      obtain rfl := Opcode.ofCode?_eq_some_iff.1 hop
      cases hxs : operands op.shape ⟨offset + 1, rest⟩ with
      | ok xs d' =>
        simp only [instr, byte, hop, hxs] at h
        cases h
      | error e' d' =>
        simp only [instr, byte, hop, hxs] at h
        cases h
        have hrejects : Rejects _ (offset + [op.code].length) rest e := refuses_operands op.shape hxs
        refine hrejects.behind
          (fun xs => ⟨Instr.build op xs, Instr.encode_build op xs⟩) fun i w w' heq => ?_
        obtain rfl : op = i.opcode := by
          have hcode := congrArg Opcode.ofCode? (List.cons.inj heq).1
          rw [Opcode.ofCode?_code, Opcode.ofCode?_code] at hcode
          exact Option.some.inj hcode
        exact ⟨i.args, rfl⟩

end Reader

namespace Instr

/-! ## Streams -/

/-- More bytes can make these the bytes of some instructions, one after the other. -/
def Completable (bytes : List UInt8) : Prop := ∃ is, bytes <+: encodeAll is

/-- The bytes `s` behind those of some instructions are not those of further ones, for the reason that the error
gives. The first of them is at the offset `start`. -/
inductive Malformed (start : Nat) (s : List UInt8) : DecodeError → Prop
  | ends {offset : Nat} {is : List Instr} (hoffset : offset ≤ start + s.length) (hs : s <+: encodeAll is)
      (hne : s ≠ encodeAll is) : Malformed start s (.unexpectedEnd offset)
  | wrong {e : DecodeError} {p q : List UInt8} {b : UInt8} (hs : s = p ++ b :: q) (he : e.Blames b (start + p.length))
      (hp : Completable p) (hnone : ¬Completable (p ++ [b])) : Malformed start s e

theorem completable_append_iff {i : Instr} {s : List UInt8} (hs : s ≠ []) :
    Completable (i.encode ++ s) ↔ Completable s := by
  constructor
  · rintro ⟨_ | ⟨j, is⟩, t, ht⟩
    · exact absurd (List.append_eq_nil_iff.1 (List.append_eq_nil_iff.1 ht).1).2 hs
    · rw [encodeAll_cons, List.append_assoc] at ht
      obtain ⟨-, ht⟩ := Reader.reads_instr.unique ht
      exact ⟨is, t, ht⟩
  · rintro ⟨is, his⟩
    exact ⟨i :: is, (List.prefix_append_right_inj _).2 his⟩

/-- What is malformed behind an instruction is so with the instruction in front. -/
theorem Malformed.behind {start : Nat} {s : List UInt8} {e : DecodeError} (i : Instr)
    (h : Malformed (start + i.encode.length) s e) : Malformed start (i.encode ++ s) e := by
  cases h with
  | @ends offset is hoffset hs hne =>
    refine @Malformed.ends _ _ _ (i :: is) ?_ ((List.prefix_append_right_inj _).2 hs) fun heq => hne (List.append_cancel_left heq)
    rw [List.length_append]
    omega
  | @wrong _ p q b hs he hp hnone =>
    refine .wrong (p := i.encode ++ p) (b := b) (q := q) ?_ ?_ ?_ ?_
    · rw [hs, List.append_assoc]
    · rwa [List.length_append, ← Nat.add_assoc]
    · obtain ⟨is, his⟩ := hp
      exact ⟨i :: is, (List.prefix_append_right_inj _).2 his⟩
    · rwa [List.append_assoc, completable_append_iff (by simp)]

/-- What cannot be read as an instruction is malformed. -/
theorem malformed_of_rejects {start : Nat} {s : List UInt8} {e : DecodeError}
    (h : Reader.Rejects encode start s e) : Malformed start s e := by
  have hone (i : Instr) : encodeAll [i] = i.encode := List.append_nil _
  cases h with
  | @ends offset i hoffset hs hne => exact @Malformed.ends _ _ _ [i] hoffset (hone i ▸ hs) (hone i ▸ hne)
  | @wrong _ p q b i hs he hp hnone =>
    refine .wrong hs he ⟨[i], hone i ▸ hp⟩ ?_
    rintro ⟨_ | ⟨j, is⟩, t, ht⟩
    · exact absurd ht (by simp [encodeAll])
    · rw [encodeAll_cons, List.append_assoc] at ht
      exact hnone j t (encodeAll is) ht

/-- Decoding fails where what is left is malformed. -/
theorem malformed_of_decodeFrom {done : List Instr} {c : Cursor} {e : DecodeError}
    (h : decodeFrom done c = .error e) : Malformed c.offset c.rest e := by
  fun_induction decodeFrom done c with
  | case1 => cases h
  | case2 done c hc i d hi _ ih =>
    obtain ⟨hrest, hoffset⟩ := (Reader.reads_instr c d i).1 hi
    have hd := ih h
    rw [hoffset] at hd
    rw [hrest]
    exact hd.behind i
  | case3 done c hc e' d hi =>
    cases h
    exact malformed_of_rejects (Reader.refuses_instr hi)

/-- **Errors of decoding are exact.** Bytes that are rejected end too early, as the error says, exactly if they are the
first ones, but not all, of the bytes of some instructions. Otherwise the error says that the byte at its offset is no
opcode or cannot be an operand: this byte is there, more bytes can make those before it the bytes of some instructions,
but none can once it is among them. The offset of an error is never behind the end. -/
theorem decodeAll_error_exact {bytes : List UInt8} {e : DecodeError} (h : decodeAll bytes = .error e) :
    (e = .unexpectedEnd e.offset ↔ ∃ is, bytes <+: encodeAll is ∧ bytes ≠ encodeAll is) ∧
    ((¬∃ is, bytes <+: encodeAll is ∧ bytes ≠ encodeAll is) → ∃ b,
      (e = .unknownOpcode b e.offset ∨ ∃ kind, e = .invalidOperand kind b e.offset) ∧ bytes[e.offset]? = some b ∧
        Completable (bytes.take e.offset) ∧ ¬Completable (bytes.take (e.offset + 1))) ∧
    e.offset ≤ bytes.length := by
  cases malformed_of_decodeFrom h with
  | @ends offset is hoffset hs hne =>
    have hproper : ∃ is, bytes <+: encodeAll is ∧ bytes ≠ encodeAll is := ⟨is, hs, hne⟩
    refine ⟨iff_of_true rfl hproper, fun hno => absurd hproper hno, ?_⟩
    rwa [Nat.zero_add] at hoffset
  | @wrong _ p q b hs he hp hnone =>
    obtain rfl : bytes = p ++ b :: q := hs
    have hoffset : e.offset = p.length := he.offset_eq.trans (Nat.zero_add _)
    have hprefix : p ++ [b] <+: p ++ b :: q := (List.prefix_append_right_inj p).2 ⟨q, rfl⟩
    rw [show 0 + p.length = e.offset by omega] at he
    refine ⟨iff_of_false ?_ ?_, fun _ => ⟨b, he, ?_, ?_, ?_⟩, ?_⟩
    · intro hends
      obtain hb | ⟨kind, hb⟩ := he <;> rw [hends] at hb <;> cases hb
    · rintro ⟨is, his, -⟩
      exact hnone ⟨is, hprefix.trans his⟩
    · rw [hoffset, List.getElem?_append_right (Nat.le_refl _), Nat.sub_self]
      rfl
    · rwa [hoffset, List.take_left]
    · rwa [hoffset, List.take_length_add_append]
    · rw [hoffset, List.length_append]
      exact Nat.le_add_right _ _

/-- A variable whose second flag is 2, behind an instruction that is read, and the same bytes without the last one. -/
theorem decodeAll_error_exact_flag :
    decodeAll [20, 30, 0, 1, 0, 0, 0, 7, 1, 2, 0] = .error (.invalidOperand .flag 2 9) ∧
      Completable [20, 30, 0, 1, 0, 0, 0, 7, 1] ∧ ¬Completable [20, 30, 0, 1, 0, 0, 0, 7, 1, 2] ∧
      decodeAll [20, 30, 0, 1, 0, 0, 0] = .error (.unexpectedEnd 4) ∧
      ∃ is, [20, 30, 0, 1, 0, 0, 0] <+: encodeAll is ∧ [20, 30, 0, 1, 0, 0, 0] ≠ encodeAll is := by
  have hflag : decodeAll [20, 30, 0, 1, 0, 0, 0, 7, 1, 2, 0] = .error (.invalidOperand .flag 2 9) := by cbv
  have hends : decodeAll [20, 30, 0, 1, 0, 0, 0] = .error (.unexpectedEnd 4) := by cbv
  obtain ⟨hproper, hwrong, -⟩ := decodeAll_error_exact hflag
  obtain ⟨b, -, -, hbefore, hbehind⟩ := hwrong fun h => absurd (hproper.2 h) nofun
  exact ⟨hflag, hbefore, hbehind, hends, (decodeAll_error_exact hends).1.1 rfl⟩

end Instr

end Reified
