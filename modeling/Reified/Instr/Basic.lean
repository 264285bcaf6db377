import Reified.Ty.Basic

/-!
# Instructions

The instruction set of the register machine. An instruction consists of an opcode and of operands
whose number and kinds the opcode fixes: its shape. Everything that is done with instructions
operand by operand (encoding, decoding, listing, checking) goes through the shape.

## Main definitions

* `Register`, `CellKind` — operands with a domain of their own
* `Opcode`, `Instr` — the instruction set
* `OperandKind`, `Opcode.shape`, `Operands` — shapes
* `Instr.build`, `Instr.args` — an instruction from its opcode and operands, and back

## Main results

* `Instr.build_args`, `Instr.opcode_build`, `Instr.args_build` — the two are inverse to each other
-/

namespace Reified

/-! ## Operands -/

/-- A register of a frame. -/
structure Register where
  number : UInt16
  deriving DecidableEq, Inhabited

namespace Register

/-- The position of a register in its frame. -/
def index (r : Register) : Nat := r.number.toNat

/-- The register at a position, which has to fit sixteen bits. -/
def ofNat (n : Nat) : Register := ⟨.ofNat n⟩

/-- The register `n` places further on, the last one if there is none. -/
def offset (r : Register) (n : Nat) : Register :=
  ofNat (min (r.index + n) 65535)

end Register

/-- The kinds of heap cell that an instruction can test for. -/
inductive CellKind where
  | object | string | array | function | tuple | type | hole
  deriving DecidableEq, Inhabited

namespace CellKind

/-- All kinds of cell, in the order of their codes. -/
def all : List CellKind := [.object, .string, .array, .function, .tuple, .type, .hole]

/-- The code of a kind of cell. -/
def code : CellKind → UInt8
  | .object => 0 | .string => 1 | .array => 2 | .function => 3 | .tuple => 4 | .type => 5
  | .hole => 6

/-- The kind of cell with a given code. -/
def ofCode? (b : UInt8) : Option CellKind := all[b.toNat]?

/-- The word for a kind of cell in listings. -/
def text : CellKind → String
  | .object => "object" | .string => "string" | .array => "array" | .function => "function"
  | .tuple => "tuple" | .type => "type" | .hole => "hole"

theorem ofCode?_code (k : CellKind) : ofCode? k.code = some k := by
  cases k <;> rfl

end CellKind

/-- What an operand refers to. -/
inductive OperandKind where
  | register
  /-- A constant of the block. -/
  | constant
  /-- An identifier of the block. -/
  | identifier
  /-- A nested block. -/
  | function
  | count
  /-- The position of an instruction; negative while it is not known. -/
  | target
  | flag
  | tyClass
  | cell
  deriving DecidableEq

/-- The operands of a kind. -/
@[reducible] def OperandKind.Carrier : OperandKind → Type
  | .register => Register
  | .constant | .identifier | .function | .count => UInt32
  | .target => Int32
  | .flag => Bool
  | .tyClass => TyClass
  | .cell => CellKind

/-- One operand, with its kind. -/
structure Operand where
  kind : OperandKind
  value : kind.Carrier

/-- Operands of the given kinds, in order. -/
def Operands : List OperandKind → Type
  | [] => Unit
  | k :: ks => k.Carrier × Operands ks

/-- Operands with their kinds. -/
def Operands.toList : (ks : List OperandKind) → Operands ks → List Operand
  | [], _ => []
  | k :: ks, (x, xs) => ⟨k, x⟩ :: toList ks xs

/-! ## The instruction set -/

/-- The operations of the machine. -/
inductive Opcode where
  | leave | move | loadConstant | getLocal | setLocal | newArray | setArrayIndex | getArrayIndex
  | newTuple | setTupleIndex | getTupleIndex | newObject | setField | getField | tryGetField
  | newFunction | call | jump | jumpIfFalse | isEqual | pushScope | popScope | pushFrame
  | popFrame | unify | resolveType | checkType | checkTypeOf | typeError | inferImplicit
  | newVarType | newNameType | newArrayType | newTupleType | newRecordType | newFunctionType
  | newUnionType | newBindingType | newValue | getTypeForValue | newCallHole | newSubscriptHole
  | newMemberHole | isCell | runtimeError
  deriving DecidableEq, Inhabited

/-- The instructions of the machine. -/
inductive Instr where
  /-- Leave the frame with a value. -/
  | leave (value : Register)
  /-- Copy a register. -/
  | move (dst src : Register)
  /-- Load a constant. -/
  | loadConstant (dst : Register) (constant : UInt32)
  /-- Look a name up in the environment. -/
  | getLocal (dst : Register) (identifier : UInt32)
  /-- Define a name in the innermost scope. -/
  | setLocal (identifier : UInt32) (src : Register)
  /-- An empty array; the size only says how long it is going to be. -/
  | newArray (dst : Register) (size : UInt32)
  /-- Store an element, growing the array if need be. -/
  | setArrayIndex (array : Register) (index : UInt32) (value : Register)
  /-- Read an element at a computed index. -/
  | getArrayIndex (dst array index : Register)
  /-- A tuple of unit values. -/
  | newTuple (dst : Register) (size : UInt32)
  /-- Store an item. -/
  | setTupleIndex (tuple : Register) (index : UInt32) (value : Register)
  /-- Read an item. -/
  | getTupleIndex (dst tuple : Register) (index : UInt32)
  /-- An object without fields. -/
  | newObject (dst : Register) (size : UInt32)
  /-- Store a field. -/
  | setField (object : Register) (field : UInt32) (value : Register)
  /-- Read a field. -/
  | getField (dst object : Register) (field : UInt32)
  /-- Read a field, or jump if there is none. -/
  | tryGetField (dst object : Register) (field : UInt32) (target : Int32)
  /-- A closure of a nested block; its signature is evaluated at once. -/
  | newFunction (dst : Register) (function : UInt32)
  /-- Call a function or an operator. -/
  | call (dst callee : Register) (argc : UInt32) (firstArg : Register)
  /-- Go on elsewhere. -/
  | jump (target : Int32)
  /-- Go on elsewhere if a condition is false. -/
  | jumpIfFalse (condition : Register) (target : Int32)
  /-- Compare two values. -/
  | isEqual (dst lhs rhs : Register)
  /-- Open a scope. -/
  | pushScope
  /-- Close the innermost scope. -/
  | popScope
  /-- Open a generalization frame. -/
  | pushFrame
  /-- Close the innermost generalization frame. -/
  | popFrame
  /-- Unify two types. -/
  | unify (lhs rhs : Register)
  /-- Replace the bound variables of a type. -/
  | resolveType (dst ty : Register)
  /-- Test the class of a type. -/
  | checkType (dst ty : Register) (expected : TyClass)
  /-- Test the class of the type of a value. -/
  | checkTypeOf (dst value : Register) (expected : TyClass)
  /-- Fail with a type error. -/
  | typeError (message : UInt32)
  /-- Infer the first arguments of a call from the others. -/
  | inferImplicit (function : Register) (count : UInt32) (first : Register)
  /-- A fresh type variable. -/
  | newVarType (dst : Register) (name : UInt32) (inferred rigid : Bool)
  /-- A named type. -/
  | newNameType (dst : Register) (name : UInt32)
  /-- An array type. -/
  | newArrayType (dst item : Register)
  /-- A tuple type. -/
  | newTupleType (dst : Register) (count : UInt32) (first : Register)
  /-- A record type. -/
  | newRecordType (dst : Register) (count : UInt32) (firstKey firstType : Register)
  /-- A function type. -/
  | newFunctionType (dst : Register) (paramCount : UInt32) (firstParam result : Register)
      (implicit : UInt32)
  /-- A union type. -/
  | newUnionType (dst lhs rhs : Register)
  /-- A type with a name attached. -/
  | newBindingType (dst : Register) (name : UInt32) (ty : Register)
  /-- The zero value of a type. -/
  | newValue (dst ty : Register)
  /-- The type of a value. -/
  | getTypeForValue (dst value : Register)
  /-- A call that has to wait. -/
  | newCallHole (dst callee : Register) (argc : UInt32) (firstArg : Register)
  /-- An element of a value that has to wait. -/
  | newSubscriptHole (dst target index : Register)
  /-- A field of a value that has to wait. -/
  | newMemberHole (dst object : Register) (field : UInt32)
  /-- Test the kind of cell of a value. -/
  | isCell (dst value : Register) (kind : CellKind)
  /-- Fail with a run-time error. -/
  | runtimeError (message : UInt32)
  deriving DecidableEq, Inhabited

namespace Opcode

/-- All opcodes, in the order of their codes. -/
def all : List Opcode :=
  [.leave, .move, .loadConstant, .getLocal, .setLocal, .newArray, .setArrayIndex, .getArrayIndex,
    .newTuple, .setTupleIndex, .getTupleIndex, .newObject, .setField, .getField, .tryGetField,
    .newFunction, .call, .jump, .jumpIfFalse, .isEqual, .pushScope, .popScope, .pushFrame,
    .popFrame, .unify, .resolveType, .checkType, .checkTypeOf, .typeError, .inferImplicit,
    .newVarType, .newNameType, .newArrayType, .newTupleType, .newRecordType, .newFunctionType,
    .newUnionType, .newBindingType, .newValue, .getTypeForValue, .newCallHole, .newSubscriptHole,
    .newMemberHole, .isCell, .runtimeError]

/-- The code of an opcode. -/
def code : Opcode → UInt8
  | .leave => 0 | .move => 1 | .loadConstant => 2 | .getLocal => 3 | .setLocal => 4
  | .newArray => 5 | .setArrayIndex => 6 | .getArrayIndex => 7 | .newTuple => 8
  | .setTupleIndex => 9 | .getTupleIndex => 10 | .newObject => 11 | .setField => 12
  | .getField => 13 | .tryGetField => 14 | .newFunction => 15 | .call => 16 | .jump => 17
  | .jumpIfFalse => 18 | .isEqual => 19 | .pushScope => 20 | .popScope => 21 | .pushFrame => 22
  | .popFrame => 23 | .unify => 24 | .resolveType => 25 | .checkType => 26 | .checkTypeOf => 27
  | .typeError => 28 | .inferImplicit => 29 | .newVarType => 30 | .newNameType => 31
  | .newArrayType => 32 | .newTupleType => 33 | .newRecordType => 34 | .newFunctionType => 35
  | .newUnionType => 36 | .newBindingType => 37 | .newValue => 38 | .getTypeForValue => 39
  | .newCallHole => 40 | .newSubscriptHole => 41 | .newMemberHole => 42 | .isCell => 43
  | .runtimeError => 44

/-- The opcode with a given code. -/
def ofCode? (b : UInt8) : Option Opcode := all[b.toNat]?

/-- The mnemonic of an opcode. -/
def mnemonic : Opcode → String
  | .leave => "END"
  | .move => "MOVE"
  | .loadConstant => "LOAD_CONSTANT"
  | .getLocal => "GET_LOCAL"
  | .setLocal => "SET_LOCAL"
  | .newArray => "NEW_ARRAY"
  | .setArrayIndex => "SET_ARRAY_INDEX"
  | .getArrayIndex => "GET_ARRAY_INDEX"
  | .newTuple => "NEW_TUPLE"
  | .setTupleIndex => "SET_TUPLE_INDEX"
  | .getTupleIndex => "GET_TUPLE_INDEX"
  | .newObject => "NEW_OBJECT"
  | .setField => "SET_FIELD"
  | .getField => "GET_FIELD"
  | .tryGetField => "TRY_GET_FIELD"
  | .newFunction => "NEW_FUNCTION"
  | .call => "CALL"
  | .jump => "JUMP"
  | .jumpIfFalse => "JUMP_IF_FALSE"
  | .isEqual => "IS_EQUAL"
  | .pushScope => "PUSH_SCOPE"
  | .popScope => "POP_SCOPE"
  | .pushFrame => "PUSH_UNIFICATION_SCOPE"
  | .popFrame => "POP_UNIFICATION_SCOPE"
  | .unify => "UNIFY"
  | .resolveType => "RESOLVE_TYPE"
  | .checkType => "CHECK_TYPE"
  | .checkTypeOf => "CHECK_TYPE_OF"
  | .typeError => "TYPE_ERROR"
  | .inferImplicit => "INFER_IMPLICIT_PARAMETERS"
  | .newVarType => "NEW_VAR_TYPE"
  | .newNameType => "NEW_NAME_TYPE"
  | .newArrayType => "NEW_ARRAY_TYPE"
  | .newTupleType => "NEW_TUPLE_TYPE"
  | .newRecordType => "NEW_RECORD_TYPE"
  | .newFunctionType => "NEW_FUNCTION_TYPE"
  | .newUnionType => "NEW_UNION_TYPE"
  | .newBindingType => "NEW_BINDING_TYPE"
  | .newValue => "NEW_VALUE"
  | .getTypeForValue => "GET_TYPE_FOR_VALUE"
  | .newCallHole => "NEW_CALL_HOLE"
  | .newSubscriptHole => "NEW_SUBSCRIPT_HOLE"
  | .newMemberHole => "NEW_MEMBER_HOLE"
  | .isCell => "IS_CELL"
  | .runtimeError => "RUNTIME_ERROR"

/-- The opcode of a mnemonic. -/
def ofMnemonic? (s : String) : Option Opcode := all.find? fun op => op.mnemonic = s

/-- The kinds of the operands of an opcode, in the order in which they are encoded. -/
def shape : Opcode → List OperandKind
  | .leave => [.register]
  | .move => [.register, .register]
  | .loadConstant => [.register, .constant]
  | .getLocal => [.register, .identifier]
  | .setLocal => [.identifier, .register]
  | .newArray => [.register, .count]
  | .setArrayIndex => [.register, .count, .register]
  | .getArrayIndex => [.register, .register, .register]
  | .newTuple => [.register, .count]
  | .setTupleIndex => [.register, .count, .register]
  | .getTupleIndex => [.register, .register, .count]
  | .newObject => [.register, .count]
  | .setField => [.register, .identifier, .register]
  | .getField => [.register, .register, .identifier]
  | .tryGetField => [.register, .register, .identifier, .target]
  | .newFunction => [.register, .function]
  | .call => [.register, .register, .count, .register]
  | .jump => [.target]
  | .jumpIfFalse => [.register, .target]
  | .isEqual => [.register, .register, .register]
  | .pushScope => []
  | .popScope => []
  | .pushFrame => []
  | .popFrame => []
  | .unify => [.register, .register]
  | .resolveType => [.register, .register]
  | .checkType => [.register, .register, .tyClass]
  | .checkTypeOf => [.register, .register, .tyClass]
  | .typeError => [.constant]
  | .inferImplicit => [.register, .count, .register]
  | .newVarType => [.register, .identifier, .flag, .flag]
  | .newNameType => [.register, .identifier]
  | .newArrayType => [.register, .register]
  | .newTupleType => [.register, .count, .register]
  | .newRecordType => [.register, .count, .register, .register]
  | .newFunctionType => [.register, .count, .register, .register, .count]
  | .newUnionType => [.register, .register, .register]
  | .newBindingType => [.register, .identifier, .register]
  | .newValue => [.register, .register]
  | .getTypeForValue => [.register, .register]
  | .newCallHole => [.register, .register, .count, .register]
  | .newSubscriptHole => [.register, .register, .register]
  | .newMemberHole => [.register, .register, .identifier]
  | .isCell => [.register, .register, .cell]
  | .runtimeError => [.constant]

theorem ofCode?_code (op : Opcode) : ofCode? op.code = some op := by
  cases op <;> rfl

end Opcode

namespace Instr

/-- The opcode of an instruction. -/
def opcode : Instr → Opcode
  | .leave .. => .leave
  | .move .. => .move
  | .loadConstant .. => .loadConstant
  | .getLocal .. => .getLocal
  | .setLocal .. => .setLocal
  | .newArray .. => .newArray
  | .setArrayIndex .. => .setArrayIndex
  | .getArrayIndex .. => .getArrayIndex
  | .newTuple .. => .newTuple
  | .setTupleIndex .. => .setTupleIndex
  | .getTupleIndex .. => .getTupleIndex
  | .newObject .. => .newObject
  | .setField .. => .setField
  | .getField .. => .getField
  | .tryGetField .. => .tryGetField
  | .newFunction .. => .newFunction
  | .call .. => .call
  | .jump .. => .jump
  | .jumpIfFalse .. => .jumpIfFalse
  | .isEqual .. => .isEqual
  | .pushScope => .pushScope
  | .popScope => .popScope
  | .pushFrame => .pushFrame
  | .popFrame => .popFrame
  | .unify .. => .unify
  | .resolveType .. => .resolveType
  | .checkType .. => .checkType
  | .checkTypeOf .. => .checkTypeOf
  | .typeError .. => .typeError
  | .inferImplicit .. => .inferImplicit
  | .newVarType .. => .newVarType
  | .newNameType .. => .newNameType
  | .newArrayType .. => .newArrayType
  | .newTupleType .. => .newTupleType
  | .newRecordType .. => .newRecordType
  | .newFunctionType .. => .newFunctionType
  | .newUnionType .. => .newUnionType
  | .newBindingType .. => .newBindingType
  | .newValue .. => .newValue
  | .getTypeForValue .. => .getTypeForValue
  | .newCallHole .. => .newCallHole
  | .newSubscriptHole .. => .newSubscriptHole
  | .newMemberHole .. => .newMemberHole
  | .isCell .. => .isCell
  | .runtimeError .. => .runtimeError

/-- The operands of an instruction. -/
def args : (i : Instr) → Operands i.opcode.shape
  | .leave a => (a, ())
  | .move a b => (a, b, ())
  | .loadConstant a b => (a, b, ())
  | .getLocal a b => (a, b, ())
  | .setLocal a b => (a, b, ())
  | .newArray a b => (a, b, ())
  | .setArrayIndex a b c => (a, b, c, ())
  | .getArrayIndex a b c => (a, b, c, ())
  | .newTuple a b => (a, b, ())
  | .setTupleIndex a b c => (a, b, c, ())
  | .getTupleIndex a b c => (a, b, c, ())
  | .newObject a b => (a, b, ())
  | .setField a b c => (a, b, c, ())
  | .getField a b c => (a, b, c, ())
  | .tryGetField a b c d => (a, b, c, d, ())
  | .newFunction a b => (a, b, ())
  | .call a b c d => (a, b, c, d, ())
  | .jump a => (a, ())
  | .jumpIfFalse a b => (a, b, ())
  | .isEqual a b c => (a, b, c, ())
  | .pushScope => ()
  | .popScope => ()
  | .pushFrame => ()
  | .popFrame => ()
  | .unify a b => (a, b, ())
  | .resolveType a b => (a, b, ())
  | .checkType a b c => (a, b, c, ())
  | .checkTypeOf a b c => (a, b, c, ())
  | .typeError a => (a, ())
  | .inferImplicit a b c => (a, b, c, ())
  | .newVarType a b c d => (a, b, c, d, ())
  | .newNameType a b => (a, b, ())
  | .newArrayType a b => (a, b, ())
  | .newTupleType a b c => (a, b, c, ())
  | .newRecordType a b c d => (a, b, c, d, ())
  | .newFunctionType a b c d e => (a, b, c, d, e, ())
  | .newUnionType a b c => (a, b, c, ())
  | .newBindingType a b c => (a, b, c, ())
  | .newValue a b => (a, b, ())
  | .getTypeForValue a b => (a, b, ())
  | .newCallHole a b c d => (a, b, c, d, ())
  | .newSubscriptHole a b c => (a, b, c, ())
  | .newMemberHole a b c => (a, b, c, ())
  | .isCell a b c => (a, b, c, ())
  | .runtimeError a => (a, ())

/-- The instruction with a given opcode and operands. -/
def build : (op : Opcode) → Operands op.shape → Instr
  | .leave, (a, ()) => .leave a
  | .move, (a, b, ()) => .move a b
  | .loadConstant, (a, b, ()) => .loadConstant a b
  | .getLocal, (a, b, ()) => .getLocal a b
  | .setLocal, (a, b, ()) => .setLocal a b
  | .newArray, (a, b, ()) => .newArray a b
  | .setArrayIndex, (a, b, c, ()) => .setArrayIndex a b c
  | .getArrayIndex, (a, b, c, ()) => .getArrayIndex a b c
  | .newTuple, (a, b, ()) => .newTuple a b
  | .setTupleIndex, (a, b, c, ()) => .setTupleIndex a b c
  | .getTupleIndex, (a, b, c, ()) => .getTupleIndex a b c
  | .newObject, (a, b, ()) => .newObject a b
  | .setField, (a, b, c, ()) => .setField a b c
  | .getField, (a, b, c, ()) => .getField a b c
  | .tryGetField, (a, b, c, d, ()) => .tryGetField a b c d
  | .newFunction, (a, b, ()) => .newFunction a b
  | .call, (a, b, c, d, ()) => .call a b c d
  | .jump, (a, ()) => .jump a
  | .jumpIfFalse, (a, b, ()) => .jumpIfFalse a b
  | .isEqual, (a, b, c, ()) => .isEqual a b c
  | .pushScope, () => .pushScope
  | .popScope, () => .popScope
  | .pushFrame, () => .pushFrame
  | .popFrame, () => .popFrame
  | .unify, (a, b, ()) => .unify a b
  | .resolveType, (a, b, ()) => .resolveType a b
  | .checkType, (a, b, c, ()) => .checkType a b c
  | .checkTypeOf, (a, b, c, ()) => .checkTypeOf a b c
  | .typeError, (a, ()) => .typeError a
  | .inferImplicit, (a, b, c, ()) => .inferImplicit a b c
  | .newVarType, (a, b, c, d, ()) => .newVarType a b c d
  | .newNameType, (a, b, ()) => .newNameType a b
  | .newArrayType, (a, b, ()) => .newArrayType a b
  | .newTupleType, (a, b, c, ()) => .newTupleType a b c
  | .newRecordType, (a, b, c, d, ()) => .newRecordType a b c d
  | .newFunctionType, (a, b, c, d, e, ()) => .newFunctionType a b c d e
  | .newUnionType, (a, b, c, ()) => .newUnionType a b c
  | .newBindingType, (a, b, c, ()) => .newBindingType a b c
  | .newValue, (a, b, ()) => .newValue a b
  | .getTypeForValue, (a, b, ()) => .getTypeForValue a b
  | .newCallHole, (a, b, c, d, ()) => .newCallHole a b c d
  | .newSubscriptHole, (a, b, c, ()) => .newSubscriptHole a b c
  | .newMemberHole, (a, b, c, ()) => .newMemberHole a b c
  | .isCell, (a, b, c, ()) => .isCell a b c
  | .runtimeError, (a, ()) => .runtimeError a

theorem build_args (i : Instr) : build i.opcode i.args = i := by
  cases i <;> rfl

theorem opcode_build (op : Opcode) (xs : Operands op.shape) : (build op xs).opcode = op := by
  cases op <;> rfl

theorem args_build (op : Opcode) (xs : Operands op.shape) : HEq (build op xs).args xs := by
  cases op <;> rfl

/-- The operands of an instruction, with their kinds. -/
def operands (i : Instr) : List Operand :=
  Operands.toList i.opcode.shape i.args

/-! ## Jumps and ranges -/

/-- The runs of consecutive registers that an instruction reads, each by its first register and its
length. -/
def ranges : Instr → List (Register × UInt32)
  | .call _ _ argc first | .newCallHole _ _ argc first => [(first, argc)]
  | .inferImplicit _ count first | .newTupleType _ count first => [(first, count)]
  | .newRecordType _ count firstKey firstType => [(firstKey, count), (firstType, count)]
  | .newFunctionType _ count first _ _ => [(first, count)]
  | _ => []

/-- The target of a jump that is not known yet. -/
def unknownTarget : Int32 := -1

/-- The position that an instruction may jump to. -/
def target? : Instr → Option Int32
  | .jump t | .jumpIfFalse _ t | .tryGetField _ _ _ t => some t
  | _ => none

/-- The instruction with another target, if it can jump. -/
def withTarget? (t : Int32) : Instr → Option Instr
  | .jump _ => some (.jump t)
  | .jumpIfFalse c _ => some (.jumpIfFalse c t)
  | .tryGetField d o f _ => some (.tryGetField d o f t)
  | _ => none

/-- The instruction with another target; one that cannot jump stays as it is. -/
def withTarget (t : Int32) (i : Instr) : Instr :=
  (i.withTarget? t).getD i

end Instr

end Reified
