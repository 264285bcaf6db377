import Reified.Instr.Text

/-!
# Instructions as bytes

An instruction is encoded as its opcode, one byte, followed by its operands: registers in two bytes,
indices, counts and jump targets in four, the most significant first, and flags, classes and kinds
of cell in one.

Decoding reads operand by operand. It fails where the bytes end, at the start of the operand that is
incomplete; at an opcode that does not exist; and at a flag, class or kind of cell that does not
exist. What has been read stays read.

## Main definitions

* `Instr.encode`, `Instr.encodeAll`
* `Cursor`, `Reader` — a position in a list of bytes, and reading from it
* `Reader.instr`, `Instr.decodeAll`

## Main results

* `Reader.length_instr_lt` — reading an instruction consumes at least one byte
-/

namespace Reified

/-! ## Encoding -/

/-- A number of sixteen bits, the most significant byte first. -/
def bytes16 (n : UInt16) : List UInt8 := [(n >>> 8).toUInt8, n.toUInt8]

/-- A number of thirty-two bits, the most significant byte first. -/
def bytes32 (n : UInt32) : List UInt8 :=
  [(n >>> 24).toUInt8, (n >>> 16).toUInt8, (n >>> 8).toUInt8, n.toUInt8]

/-- The bytes of an operand of the given kind. -/
def OperandKind.encode : (k : OperandKind) → k.Carrier → List UInt8
  | .register, r => bytes16 r.number
  | .constant, i | .identifier, i | .function, i | .count, i => bytes32 i
  | .target, t => bytes32 t.toUInt32
  | .flag, b => [if b then 1 else 0]
  | .tyClass, c => [c.code]
  | .cell, k => [k.code]

/-- The bytes of operands of the given kinds. -/
def Operands.encode : (ks : List OperandKind) → Operands ks → List UInt8
  | [], _ => []
  | k :: ks, (x, xs) => k.encode x ++ encode ks xs

/-- The bytes of an instruction. -/
def Instr.encode (i : Instr) : List UInt8 :=
  i.opcode.code :: Operands.encode i.opcode.shape i.args

/-- The bytes of instructions, one after the other. -/
def Instr.encodeAll (is : List Instr) : List UInt8 :=
  is.flatMap encode

/-! ## Reading -/

/-- Why bytes are no instruction. -/
inductive DecodeError where
  /-- The bytes end before the operand that starts at the offset is complete. -/
  | unexpectedEnd (offset : Nat)
  | unknownOpcode (byte : UInt8) (offset : Nat)
  /-- An operand of the given kind cannot be this byte. -/
  | invalidOperand (kind : OperandKind) (byte : UInt8) (offset : Nat)
  deriving DecidableEq

/-- A byte as two hexadecimal digits. -/
def hexByte (b : UInt8) : String :=
  String.ofList [Nat.digitChar (b.toNat / 16), Nat.digitChar (b.toNat % 16)]

/-- What an operand of one byte is called. -/
def OperandKind.noun : OperandKind → String
  | .register => "register"
  | .constant => "constant"
  | .identifier => "identifier"
  | .function => "function"
  | .count => "count"
  | .target => "target"
  | .flag => "flag"
  | .tyClass => "type class"
  | .cell => "cell kind"

/-- The wording of a decoding error. -/
def DecodeError.message : DecodeError → String
  | .unexpectedEnd offset => "unexpected end of bytecode at offset " ++ toString offset
  | .unknownOpcode byte offset =>
    "unknown opcode 0x" ++ hexByte byte ++ " at offset " ++ toString offset
  | .invalidOperand kind byte offset =>
    "invalid " ++ kind.noun ++ " operand " ++ toString byte.toNat ++ " at offset " ++
      toString offset

/-- A position in a list of bytes: how many come before it, and those that come after it. -/
structure Cursor where
  offset : Nat
  rest : List UInt8

/-- The position at an offset of a list of bytes. -/
def Cursor.at (bytes : List UInt8) (offset : Nat) : Cursor := ⟨offset, bytes.drop offset⟩

/-- Reading from a position. A failure keeps the position that was reached. -/
abbrev Reader := EStateM DecodeError Cursor

namespace Reader

/-- Read a byte. -/
def byte : Reader UInt8 := fun c =>
  match c.rest with
  | b :: rest => .ok b ⟨c.offset + 1, rest⟩
  | [] => .error (.unexpectedEnd c.offset) c

/-- Read a number of sixteen bits. -/
def word16 : Reader UInt16 := fun c =>
  match c.rest with
  | a :: b :: rest => .ok (a.toUInt16 <<< 8 ||| b.toUInt16) ⟨c.offset + 2, rest⟩
  | _ => .error (.unexpectedEnd c.offset) c

/-- Read a number of thirty-two bits. -/
def word32 : Reader UInt32 := fun c =>
  match c.rest with
  | a :: b :: d :: e :: rest =>
    .ok (a.toUInt32 <<< 24 ||| b.toUInt32 <<< 16 ||| d.toUInt32 <<< 8 ||| e.toUInt32)
      ⟨c.offset + 4, rest⟩
  | _ => .error (.unexpectedEnd c.offset) c

/-- The flag that a byte stands for. -/
def flag? (b : UInt8) : Option Bool :=
  if b = 0 then some false else if b = 1 then some true else none

/-- Read a byte that stands for something. -/
def tag {α : Type} (kind : OperandKind) (meaning? : UInt8 → Option α) : Reader α := fun c =>
  match byte c with
  | .ok b d =>
    match meaning? b with
    | some x => .ok x d
    | none => .error (.invalidOperand kind b c.offset) d
  | .error e d => .error e d

/-- Read an operand of the given kind. -/
def operand : (k : OperandKind) → Reader k.Carrier
  | .register => fun c =>
    match word16 c with
    | .ok n d => .ok ⟨n⟩ d
    | .error e d => .error e d
  | .constant | .identifier | .function | .count => word32
  | .target => fun c =>
    match word32 c with
    | .ok n d => .ok n.toInt32 d
    | .error e d => .error e d
  | .flag => tag .flag flag?
  | .tyClass => tag .tyClass TyClass.ofCode?
  | .cell => tag .cell CellKind.ofCode?

/-- Read operands of the given kinds. -/
def operands : (ks : List OperandKind) → Reader (Operands ks)
  | [] => fun c => .ok () c
  | k :: ks => fun c =>
    match operand k c with
    | .error e d => .error e d
    | .ok x d =>
      match operands ks d with
      | .error e f => .error e f
      | .ok xs f => .ok (x, xs) f

/-- Read an instruction. -/
def instr : Reader Instr := fun c =>
  match byte c with
  | .error e d => .error e d
  | .ok b d =>
    match Opcode.ofCode? b with
    | none => .error (.unknownOpcode b c.offset) d
    | some op =>
      match operands op.shape d with
      | .error e f => .error e f
      | .ok xs f => .ok (Instr.build op xs) f

/-! ## Progress -/

theorem length_byte {c d : Cursor} {b : UInt8} (h : byte c = .ok b d) :
    d.rest.length + 1 = c.rest.length := by
  unfold byte at h
  split at h
  · rename_i hc
    cases h
    simp [hc]
  · cases h

theorem length_word16_le {c d : Cursor} {n : UInt16} (h : word16 c = .ok n d) :
    d.rest.length ≤ c.rest.length := by
  unfold word16 at h
  split at h
  · rename_i hc
    cases h
    simp [hc]; omega
  · cases h

theorem length_word32_le {c d : Cursor} {n : UInt32} (h : word32 c = .ok n d) :
    d.rest.length ≤ c.rest.length := by
  unfold word32 at h
  split at h
  · rename_i hc
    cases h
    simp [hc]; omega
  · cases h

theorem length_tag_le {α : Type} {kind : OperandKind} {meaning? : UInt8 → Option α} {c d : Cursor}
    {x : α} (h : tag kind meaning? c = .ok x d) : d.rest.length ≤ c.rest.length := by
  unfold tag at h
  split at h
  · rename_i hb
    have := length_byte hb
    split at h
    · cases h; omega
    · cases h
  · cases h

theorem length_operand_le {k : OperandKind} {c d : Cursor} {x : k.Carrier}
    (h : operand k c = .ok x d) : d.rest.length ≤ c.rest.length := by
  cases k <;> simp only [operand] at h
  case register =>
    split at h
    · rename_i hw; cases h; exact length_word16_le hw
    · cases h
  case target =>
    split at h
    · rename_i hw; cases h; exact length_word32_le hw
    · cases h
  case constant | identifier | function | count => exact length_word32_le h
  case flag | tyClass | cell => exact length_tag_le h

theorem length_operands_le {ks : List OperandKind} {c d : Cursor} {xs : Operands ks}
    (h : operands ks c = .ok xs d) : d.rest.length ≤ c.rest.length := by
  induction ks generalizing c with
  | nil => simp only [operands] at h; cases h; exact Nat.le_refl _
  | cons k ks ih =>
    simp only [operands] at h
    split at h
    · cases h
    · rename_i hx
      split at h
      · cases h
      · rename_i hxs
        cases h
        exact Nat.le_trans (ih hxs) (length_operand_le hx)

theorem length_instr_lt {c d : Cursor} {i : Instr} (h : instr c = .ok i d) :
    d.rest.length < c.rest.length := by
  unfold instr at h
  split at h
  · cases h
  · rename_i hb
    have := length_byte hb
    split at h
    · cases h
    · split at h
      · cases h
      · rename_i hxs
        cases h
        have := length_operands_le hxs
        omega

end Reader

/-! ## Decoding -/

namespace Instr

/-- Read instructions until the bytes end; `done` are the ones before, the latest first. -/
def decodeFrom (done : List Instr) (c : Cursor) : Except DecodeError (List Instr) :=
  if c.rest = [] then .ok done.reverse
  else
    match h : Reader.instr c with
    | .ok i d =>
      have := Reader.length_instr_lt h
      decodeFrom (i :: done) d
    | .error e _ => .error e
termination_by c.rest.length

/-- The instructions that some bytes encode. -/
def decodeAll (bytes : List UInt8) : Except DecodeError (List Instr) :=
  decodeFrom [] ⟨0, bytes⟩

end Instr

end Reified
