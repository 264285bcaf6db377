import Reified.Machine.Types

/-!
# Execution

One instruction is executed at a time. Most act on the registers of the block in execution and on
the machine; a call and the creation of a function let another block run first, and leaving a block
hands its value on as it was agreed when the block was entered.

A run need not end, so it is given a number of steps after which it is abandoned.

## Main definitions

* `Exec.instr` — instructions that stay in the block
* `Exec.step` — one step of a run
* `Machine.run` — a run of at most so many steps
-/

namespace Reified

namespace Exec

/-- The value of a name in the current environment. -/
def lookup (name : String) : Exec Value := fun r =>
  match r.machine.heap.lookup r.top.environment name with
  | some v => .ok v r
  | none => .error (.unknownVariable name) r

/-- The field of an object. -/
def field? (h : Heap) (v : Value) (name : String) : Option Value :=
  match v with
  | .object c => Fields.get? name (h.object c)
  | _ => none

/-- The position that an index value names. -/
def index (v : Value) : Exec Nat := do
  match v with
  | .number x =>
    match x.whole? with
    | some n => pure n
    | none => throw (.notIndex (← text v))
  | v => throw (.notIndex (← text v))

/-- The item of a list of values at an index; `target` is what is being indexed. -/
def item (cell : Nat) (position : Nat) (shown : Exec String) (target : Value) : Exec Value := do
  match ((← heap).list cell)[position]? with
  | some v => pure v
  | none => throw (.indexOutOfBounds (← shown) (← text target))

/-- Whether the type that a value is has a class. -/
def checkType (expected : TyClass) (v : Value) : Exec Bool := do
  match expected, v with
  | .anyValue, v => return !v.isTypeLevel
  | .anyType, v => return v.isTypeLevel
  | .hole, v => return v.isHole
  | expected, .type t => return (← resolve t).tyClass = expected
  | _, _ => return false

/-- Whether the type of a value has a class. A hole has none but its own. -/
def checkTypeOf (expected : TyClass) (v : Value) : Exec Bool := do
  match expected, v with
  | .hole, v => return v.isHole
  | _, .hole _ => return false
  | .anyValue, v => return !v.isTypeLevel
  | .anyType, v => return v.isTypeLevel
  | expected, v => return (← resolve (← typeOf v)).tyClass = expected

/-- The fields of a record type, from keys and types. -/
def recordFields (fields : Fields Ty) : List Value → List Ty → Exec (Fields Ty)
  | key :: keys, t :: ts => do
    match key with
    | .string name => recordFields (Fields.insert name t fields) keys ts
    | key => throw (.recordKey (← text key))
  | _, _ => pure fields

/-- Store a new value of the heap in a register. -/
def create (dst : Register) (f : Heap → Value × Heap) : Exec Unit := do
  write dst (← onHeap f)

/-- The element of a value of which only now it is known what it is. -/
def subscript (target i : Value) : Exec Value := do
  match target, i with
  | .tuple c, .number _ => do item c (← index i) (text i) target
  | .object c, .string name => do
    match Fields.get? name ((← heap).object c) with
    | some v => pure v
    | none => throw (.missingField name (← text target))
  | target, i =>
    if target.isTypeLevel || i.isTypeLevel then onHeap (·.newHole (.subscript target i))
    else throw (.notIndexable (← text target) (← text i))

/-- Execute an instruction that stays in the block. -/
def instr : Instr → Exec Unit
  | .leave _ | .call .. | .newFunction .. => pure ()
  | .move dst src => do write dst (← read src)
  | .loadConstant dst c => do write dst (← constant c)
  | .getLocal dst i => do
    let name ← identifier i
    write dst (← lookup name)
  | .setLocal i src => do
    let name ← identifier i
    let v ← read src
    let environment := (← get).top.environment
    onHeap fun h => ((), h.define environment name v)
  | .newArray dst _ => create dst (·.newArray #[])
  | .setArrayIndex array i value => do
    match ← read array with
    | .array c => do
      let v ← read value
      onHeap fun h => ((), h.setItem c i.toNat v)
    | _ => throw (.notArrayRegister array)
  | .getArrayIndex dst array i => do
    let target ← read array
    let i ← read i
    match target with
    | .array c => do write dst (← item c (← index i) (text i) target)
    | target => throw (.notArray (← text target))
  | .newTuple dst size => create dst (·.newTuple (Array.replicate size.toNat .unit))
  | .setTupleIndex tuple i value => do
    match ← read tuple with
    | .tuple c => do
      let v ← read value
      if i.toNat < ((← heap).list c).size then onHeap fun h => ((), h.setItem c i.toNat v)
      else throw (.tupleIndexOutOfBounds i.toNat)
    | _ => throw (.notTupleRegister tuple)
  | .getTupleIndex dst tuple i => do
    let target ← read tuple
    match target with
    | .tuple c => do write dst (← item c i.toNat (pure (toString i.toNat)) target)
    | target => throw (.notTuple (← text target))
  | .newObject dst _ => create dst (·.newObject [])
  | .setField object f value => do
    match ← read object with
    | .object c => do
      let name ← identifier f
      let v ← read value
      onHeap fun h => ((), h.setField c name v)
    | _ => throw (.notObjectRegister object)
  | .getField dst object f => do
    let name ← identifier f
    let target ← read object
    match field? (← heap) target name with
    | some v => write dst v
    | none => throw (.missingField name (← text target))
  | .tryGetField dst object f t => do
    let name ← identifier f
    let target ← read object
    match field? (← heap) target name with
    | some v => write dst v
    | none => jump t
  | .jump t => jump t
  | .jumpIfFalse condition t => do
    match ← read condition with
    | .bool true => pure ()
    | .bool false => jump t
    | v => throw (.notCondition (← text v))
  | .isEqual dst lhs rhs => do
    let a ← read lhs
    let b ← read rhs
    write dst (.bool (a.same b))
  | .pushScope => do
    let outer := (← get).top.environment
    setEnvironment (← onHeap (·.newEnvironment (some outer)))
  | .popScope => do
    let r ← get
    match r.machine.heap.parent? r.top.environment with
    | some outer => setEnvironment outer
    | none => throw .scopeUnderflow
  | .pushFrame => pushFrame
  | .popFrame => popFrame
  | .unify lhs rhs => do
    let a ← asType (← read lhs)
    let b ← asType (← read rhs)
    unify a b
  | .resolveType dst ty => do
    let t ← asType (← read ty)
    write dst (.type (← resolveDeep t))
  | .checkType dst ty expected => do
    write dst (.bool (← checkType expected (← read ty)))
  | .checkTypeOf dst value expected => do
    write dst (.bool (← checkTypeOf expected (← read value)))
  | .typeError m => do throw (.raisedType (← message m))
  | .inferImplicit function count first => do
    let callee ← read function
    let registers := (← get).top.registers
    match callee with
    | .function c => do
      let closure := (← heap).closure c
      let args := registers.extract first.index registers.size
      let inferred ← inferImplicit closure count.toNat args
      writeFrom first 0 (inferred.map .type)
    | v => throw (.noImplicit (← text v))
  | .newVarType dst name inferred rigid => do
    write dst (.type (← newVar (← identifier name) inferred rigid))
  | .newNameType dst name => do write dst (.type (.name (← identifier name)))
  | .newArrayType dst item => do
    write dst (.type (.array (← asType (← read item))))
  | .newTupleType dst count first => do
    let items ← readRange first count
    write dst (.type (.tuple (← asTypes [] items.toList)))
  | .newRecordType dst count firstKey firstType => do
    let keys ← readRange firstKey count
    let types ← asTypes [] (← readRange firstType count).toList
    write dst (.type (.record (← recordFields [] keys.toList types)))
  | .newFunctionType dst count first result implicit => do
    let params ← asTypes [] (← readRange first count).toList
    let result ← asType (← read result)
    write dst (.type (.fn params result implicit.toNat))
  | .newUnionType dst lhs rhs => do
    let a ← asType (← read lhs)
    let b ← asType (← read rhs)
    write dst (.type (.union a b))
  | .newBindingType dst name ty => do
    let name ← identifier name
    write dst (.type (.binding name (← asType (← read ty))))
  | .newValue dst ty => do
    let t ← resolveDeep (← asType (← read ty))
    create dst (Heap.zero t)
  | .getTypeForValue dst value => do
    write dst (.type (← typeOf (← read value)))
  | .newCallHole dst callee argc first => do
    let callee ← read callee
    let args ← readRange first argc
    if callee.isTypeLevel || args.any Value.isTypeLevel then
      create dst (·.newHole (.call callee args.toList))
    else throw (.notCallable (← text callee))
  | .newSubscriptHole dst target i => do
    let target ← read target
    let i ← read i
    write dst (← subscript target i)
  | .newMemberHole dst object f => do
    let name ← identifier f
    let v ← read object
    if v.isTypeLevel then create dst (·.newHole (.member v name))
    else throw (.missingField name (← text v))
  | .isCell dst value kind => do
    write dst (.bool ((← read value).cellKind? = some kind))
  | .runtimeError m => do throw (.raised (← message m))

-- The equations are made here, once for all the proofs that use them.
attribute [local simp] instr

/-! ## Calls -/

/-- Call a value. A function runs before the caller goes on; an operator gives its result at
once. -/
def call (dst callee : Register) (argc : UInt32) (first : Register) : Exec Unit := do
  let callee ← read callee
  let args ← readRange first argc
  match callee with
  | .function c => do
    let closure := (← heap).closure c
    let args ← completeArgs closure args
    let environment ← onHeap (·.newEnvironment (some closure.environment))
    enter (.enter closure.block closure.block.codeStart.toNat environment args (.store dst))
  | .builtin op => do
    match args.toList with
    | [a, b] =>
      match op.apply (← heap) a b with
      | .ok v => write dst v
      | .error e => throw e
    | _ => throw (.operatorArity op.symbol args.size)
  | v => throw (.notCallable (← text v))

/-- Create a function of a nested block. If the block starts with the evaluation of its type, that
runs first; otherwise nothing is known about parameters and result. -/
def newFunction (dst : Register) (i : UInt32) : Exec Unit := do
  let block ← nested i
  let outer := (← get).top.environment
  if block.codeStart = 0 then
    let params ← freshVars [] block.parameterCount.toNat
    let result ← freshVar
    create dst (·.newClosure ⟨block, outer, .fn params result 0⟩)
  else
    let environment ← onHeap (·.newEnvironment (some outer))
    enter (.enter block 0 environment #[] (.signature dst block))

/-- Return to the caller; `none` when there is none. -/
def back : Exec (Option Resume) := fun
  | ⟨m, ⟨block, position, registers, environment, resume⟩, []⟩ =>
    .ok none ⟨m, ⟨block, position, registers, environment, resume⟩, []⟩
  | ⟨m, ⟨_, _, _, _, resume⟩, caller :: callers⟩ => .ok (some resume) ⟨m, caller, callers⟩

/-- Leave the block with a value. The answer is the value of the run, if there is no caller. -/
def leave (r : Register) : Exec (Option Value) := do
  let v ← read r
  match ← back with
  | none => return some v
  | some .answer => return none
  | some (.store dst) => do
    write dst v
    return none
  | some (.signature dst block) => do
    match v with
    | .type t => do
      let environment := (← get).top.environment
      create dst (·.newClosure ⟨block, environment, t⟩)
      return none
    | v => throw (.signatureValue block.name (← text v))

/-- One step of a run. The answer is the value of the run, if this step ends it. -/
def step : Exec (Option Value) := do
  match ← fetch with
  | .leave r => leave r
  | .call dst callee argc first => do
    call dst callee argc first
    return none
  | .newFunction dst i => do
    newFunction dst i
    return none
  | i => do
    instr i
    return none

end Exec

/-! ## Runs -/

namespace Run

/-- Execute at most so many steps. The answer is the value or the failure with which the run ends,
and the machine; `none` means that the run has not ended. -/
def finish : Nat → Run → Option (Except Fault Value × Machine)
  | 0, _ => none
  | n + 1, r =>
    match Exec.step r with
    | .ok none r => finish n r
    | .ok (some v) r => some (.ok v, r.machine)
    | .error e r => some (.error e, r.machine)

end Run

/-- Run a block in at most so many steps. The machine afterwards keeps what the run did to it, also
when the run failed. -/
def Machine.run (steps : Nat) (m : Machine) (block : Block) :
    Option (Except Fault Value × Machine) :=
  (m.start block).finish steps

end Reified
