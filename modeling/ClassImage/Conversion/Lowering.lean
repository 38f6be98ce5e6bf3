import ClassImage.Bytecode.Decode
import ClassImage.Conversion.Settings
import ClassImage.Conversion.Workspace

/-!
# Lowering code to a body

Each decoded operation becomes one instruction, so the positions of the body are the positions of
the decoded operations. Operations on the operand stack keep their meaning and change only their
byte; constants, members and classes are interned on the way; jump targets become positions, which
asks that they hit the start of an instruction.
-/

namespace ClassImage.Conversion

open ClassFile (ConstantPool Code)
open Bytecode (Op Decoded Jump LocalOperation)
open Body (Instruction Operands Register Displacement Parameter)

/-- What the operations of a method have in common. -/
structure Context where
  settings : Settings
  constants : ConstantPool
  /-- The offset of every decoded operation, in order. -/
  starts : Array Nat

namespace Context

/-- The position of the operation that starts at an offset; `offset` is blamed if there is none. -/
def resolve (context : Context) (offset target : Nat) : Except Error Nat :=
  let before := partitionPoint context.starts.size fun i =>
    match context.starts[i]? with
    | some start => start < target
    | none => false
  if context.starts[before]? = some target then .ok before
  else .error (.branchTarget offset target)

/-- Interns the class at a slot of the constant pool. -/
def classAt (context : Context) (index : UInt16) : Convert ClassId := do
  internClass (← ofFile (context.constants.className index))

end Context

/-- Operands that hold a 32-bit number. -/
def wordOperands (bits : UInt32) : Operands :=
  let (hi, lo) := halves bits
  .two16 hi lo

/-- Pushes an int that fits the short immediate. -/
def pushShort (value : Int32) : Image.Opcode × Operands :=
  (.pushShort, .shortImmReg (.value value) .stack)

/-- Whether an int fits the short immediate. -/
def isShort (value : Int32) : Bool :=
  Image.Record.shortMin ≤ value.toInt && value.toInt ≤ Image.Record.shortMax

/-- The register of a local variable. -/
def localRegister (slot : UInt16) : Except Error Register :=
  match Register.ofSlot? slot with
  | some reg => .ok reg
  | none => .error (.unsupported (.localVar slot))

/-- Pushes the constant at a slot. -/
def lowerLoad (context : Context) (isWide : Bool) (index : UInt16) :
    Convert (Image.Opcode × Operands) := do
  match isWide, ← ofFile (context.constants.get index) with
  | false, .integer value =>
    if context.settings.foldConstants && isShort value then return pushShort value
    else return (.pushInt, wordOperands value.toUInt32)
  | false, .float bits => return (.pushFloat, wordOperands bits)
  | false, .string text =>
    let text ← ofFile (context.constants.utf8 text)
    return (.pushString, .two16 (← internString text) 0)
  | false, .classRef _ => return (.pushClass, .two16 (← context.classAt index) 0)
  | true, .long value => return (.pushLong, .two16 (← internConstant (.long value)) 0)
  | true, .double bits => return (.pushDouble, .two16 (← internConstant (.double bits)) 0)
  | _, .methodHandle .. => throw (.unsupported (.loading index .methodHandle))
  | _, .methodType _ => throw (.unsupported (.loading index .methodType))
  | _, .dynamic .. => throw (.unsupported (.loading index .dynamic))
  | true, _ => throw (.malformed (.wrongKind index .longOrDouble))
  | false, _ => throw (.malformed (.wrongKind index .loadable))

/-- Uses a field or calls a method: the class and the member. -/
def lowerMember (ref : ClassFile.MemberRef) : Convert Operands := do
  let owner ← internClass ref.owner
  let member ← internMember ref.name ref.descriptor
  return .two16 owner member

/-- The parameters of a table switch: its bounds, the default and the cases. -/
def tableParameters (context : Context) (offset default : Nat) (low : Int32) (targets : List Nat) :
    Except Error (List Parameter) := do
  let high := Int32.ofInt (low.toInt + targets.length - 1)
  let first ← context.resolve offset default
  let rest ← targets.mapM (context.resolve offset)
  return .ofInt low :: .ofInt high :: .target first :: rest.map .target

/-- The parameters of a lookup switch: the default, then keys and cases in turn. -/
def lookupParameters (context : Context) (offset default : Nat) (cases : List (Int32 × Nat)) :
    Except Error (List Parameter) := do
  let first ← context.resolve offset default
  let rest ← cases.mapM fun (key, target) => do
    let position ← context.resolve offset target
    return [.ofInt key, .target position]
  return .target first :: rest.flatten

/-- The opcode and the operands that stand for the operation at an offset. -/
def lowerOp (context : Context) (offset : Nat) (op : Op) : Convert (Image.Opcode × Operands) :=
  match op with
  | .plain op => return (.plain op, .bare)
  | .pushInt _ value => return pushShort value
  | .load isWide index => lowerLoad context isWide index
  | .localVar (.load kind) slot => do
    return (.load kind, .regDisp (← localRegister slot) (.value 0))
  | .localVar (.store kind) slot => do
    return (.store kind, .regDisp (← localRegister slot) (.value 0))
  | .localVar .ret _ => throw (.unsupported (.subroutine op.name offset))
  | .increment slot amount => do
    return (.increment, .regDisp (← localRegister slot) (.value amount.toInt32))
  | .branch (.when condition) target => do
    return (.branch condition, .shortImmReg (.branch (← context.resolve offset target)) .stack)
  | .branch .goto target => do
    return (.goto, .regDisp .pc (.branch (← context.resolve offset target)))
  | .branch .jsr _ => throw (.unsupported (.subroutine op.name offset))
  | .tableSwitch default low targets => do
    return (.tableSwitch, .switch .stack (← tableParameters context offset default low targets))
  | .lookupSwitch default cases => do
    return (.lookupSwitch, .switch .stack (← lookupParameters context offset default cases))
  | .field access index => do
    return (.field access, ← lowerMember (← ofFile (context.constants.fieldRef index)))
  | .invoke call index => do
    return (.invoke call.invocation, ← lowerMember (← ofFile (context.constants.methodRef index)))
  | .invokeDynamic _ => throw (.unsupported (.dynamicCall offset))
  | .onClass op index => do return (.onClass op, .two16 (← context.classAt index) 0)
  | .newArray elementType => return (.newArray, .two16 elementType.toUInt16 0)
  | .newMultiArray index dimensions => do
    return (.newMultiArray, .two16 (← context.classAt index) dimensions.toUInt16)

/-- The instruction that stands for a decoded operation. -/
def lowerDecoded (context : Context) (decoded : Decoded) : Convert Instruction := do
  let (opcode, operands) ← lowerOp context decoded.offset decoded.op
  return { opcode, line := decoded.line, operands }

/-- The handler of an exception table entry. The end of the protected range may be the end of the
code, `length` bytes long. -/
def lowerHandler (context : Context) (length : Nat) (entry : ClassFile.ExceptionEntry) :
    Convert Body.Handler := do
  let resolve (target : UInt16) : Except Error Nat :=
    context.resolve entry.entry.toNat target.toNat
  let stop ← if entry.stop.toNat = length then pure context.starts.size else resolve entry.stop
  let catchType ←
    if entry.catchType = 0 then pure none else some <$> context.classAt entry.catchType
  let start ← resolve entry.start
  let handler ← resolve entry.entry
  return { start, stop, entry := handler, catchType }

/-- Lowers the code of a method. -/
def lower (settings : Settings) (constants : ConstantPool) (code : Code) : Convert Body := do
  let lines ← ofFile (code.lineNumbers constants)
  let decoded ← ofFile (Bytecode.decode code.bytes lines)
  let context : Context :=
    { settings, constants, starts := (decoded.map Decoded.offset).toArray }
  let instructions ← decoded.mapM (lowerDecoded context)
  let handlers ← code.exceptions.mapM (lowerHandler context code.bytes.length)
  let body : Body :=
    { instructions, handlers, maxStack := code.maxStack, maxLocals := code.maxLocals }
  body.validate
  return body

end ClassImage.Conversion
