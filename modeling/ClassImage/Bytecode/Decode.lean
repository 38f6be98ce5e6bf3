import ClassImage.Bytecode.Op
import ClassImage.ClassFile.Attribute

/-!
# Decoding code

Code is a sequence of instructions without gaps. Each is decoded at its offset, because the operands
of a switch are aligned and jumps are relative to the instruction. A jump must land inside the code,
though not necessarily on an instruction.

Offsets of operations and jump targets are numbers of 32 bits. Those of operations further on wrap
around, and a jump further on is refused.
-/

namespace ClassImage.Bytecode

open ClassFile (Fault LineNumber)

/-- A decoded operation, where it stands, and the line it comes from (zero if unknown). -/
structure Decoded where
  offset : Nat
  line : UInt16
  op : Op
deriving DecidableEq, Repr

/-- The line at an offset: that of the last entry that starts at or before it, in a table ordered by
start. -/
def lineAt (lines : Array LineNumber) (offset : Nat) : UInt16 :=
  let after := partitionPoint lines.size fun i =>
    match lines[i]? with
    | some entry => entry.start.toNat ≤ offset
    | none => false
  if after = 0 then 0
  else
    match lines[after - 1]? with
    | some entry => entry.line
    | none => 0

/-- The offset at which a jump from `offset` over a distance lands, if it is a 32-bit number. -/
def landing (offset : Nat) (distance : Int) : Except Fault Nat :=
  match (offset : Int) + distance with
  | .ofNat target =>
    if target < UInt32.size then .ok target else .error (.branchOutside offset (.ofNat target))
  | .negSucc n => .error (.branchOutside offset (.negSucc n))

/-- Reads a signed byte. -/
def readInt8 : Reader Fault Int8 := do
  return (← Reader.byte).toInt8

/-- Reads a signed 16-bit number. -/
def readInt16 : Reader Fault Int16 := do
  return (← Reader.word16 .big).toInt16

/-- Reads a signed 32-bit number. -/
def readInt32 : Reader Fault Int32 := do
  return (← Reader.word32 .big).toInt32

/-- Reads a 32-bit distance and says where it leads. -/
def readTarget (offset : Nat) : Reader Fault Nat := do
  let distance ← readInt32
  landing offset distance.toInt

/-- The number of bytes that bring the operands of the switch at an offset to a multiple of four. -/
def padding (offset : Nat) : Nat := (4 - (offset + 1) % 4) % 4

/-- Reads the operands of a table switch. -/
def readTableSwitch (offset : Nat) : Reader Fault (Op × Nat) := do
  let _ ← Reader.take (padding offset)
  let default ← readTarget offset
  let low ← readInt32
  let high ← readInt32
  if high < low then
    throw (Fault.badSwitchBounds offset)
  let count := (high.toInt - low.toInt + 1).toNat
  let targets ← Reader.exactly count (readTarget offset)
  return (.tableSwitch default low targets, 1 + padding offset + 12 + 4 * count)

/-- Reads the operands of a lookup switch. -/
def readLookupSwitch (offset : Nat) : Reader Fault (Op × Nat) := do
  let _ ← Reader.take (padding offset)
  let default ← readTarget offset
  let count ← readInt32
  if count < 0 then
    throw (Fault.badSwitchBounds offset)
  let cases ← Reader.exactly count.toInt.toNat do
    let key ← readInt32
    let target ← readTarget offset
    return (key, target)
  return (.lookupSwitch default cases, 1 + padding offset + 8 + 8 * count.toInt.toNat)

/-- Reads what follows the `wide` marker: a local variable operation or an increment, with 16-bit
operands. -/
def readWide (offset : Nat) : Reader Fault (Op × Nat) := do
  let opcode ← Reader.byte
  match Form.ofOpcode? opcode with
  | some (.localVar op) =>
    let slot ← Reader.word16 .big
    return (.localVar op slot, 4)
  | some .increment =>
    let slot ← Reader.word16 .big
    let amount ← readInt16
    return (.increment slot amount, 6)
  | _ => throw (.badWide opcode offset)

/-- Reads the slot of a constant. -/
def readSlot : Reader Fault UInt16 := Reader.word16 .big

/-- Reads the operands of the instruction at an offset. Returns the operation and the length of the
whole instruction. -/
def Form.read (offset : Nat) : Form → Reader Fault (Op × Nat)
  | plain op => return (.plain op, 1)
  | intConst value => return (.pushInt .implicit value, 1)
  | bytePush => do return (.pushInt .byte (← readInt8).toInt32, 2)
  | shortPush => do return (.pushInt .short (← readInt16).toInt32, 3)
  | loadNear => do return (.load false (← Reader.byte).toUInt16, 2)
  | load isWide => do return (.load isWide (← readSlot), 3)
  | implicitLocal op slot => return (.localVar op slot, 1)
  | localVar op => do return (.localVar op (← Reader.byte).toUInt16, 2)
  | increment => do
    let slot ← Reader.byte
    let amount ← readInt8
    return (.increment slot.toUInt16 amount.toInt16, 3)
  | branch jump => do
    let distance ← readInt16
    return (.branch jump (← landing offset distance.toInt), 3)
  | wideBranch jump => do return (.branch jump (← readTarget offset), 5)
  | tableSwitch => readTableSwitch offset
  | lookupSwitch => readLookupSwitch offset
  | field access => do return (.field access (← readSlot), 3)
  | invoke .virtual => do return (.invoke .virtual (← readSlot), 3)
  | invoke .special => do return (.invoke .special (← readSlot), 3)
  | invoke .static => do return (.invoke .static (← readSlot), 3)
  | invoke .interface => do
    let index ← readSlot
    let count ← Reader.byte
    let _ ← Reader.byte
    return (.invoke (.interface count) index, 5)
  | invokeDynamic => do
    let index ← readSlot
    let _ ← Reader.word16 .big
    return (.invokeDynamic index, 5)
  | onClass op => do return (.onClass op (← readSlot), 3)
  | newArray => do return (.newArray (← Reader.byte), 2)
  | newMultiArray => do
    let index ← readSlot
    let dimensions ← Reader.byte
    return (.newMultiArray index dimensions, 4)
  | wide => readWide offset

/-- Reads the instruction at an offset, with its length. -/
def readOp (offset : Nat) : Reader Fault (Op × Nat) := do
  let opcode ← Reader.byte
  match Form.ofOpcode? opcode with
  | some form => form.read offset
  | none => throw (.unknownOpcode opcode offset)

/-- Names the instruction in which the code ended. -/
def truncatedAt (offset : Nat) : Fault → Fault
  | .truncated => .truncatedInstruction offset
  | fault => fault

/-- Reads the instruction at an offset of code of a given length, into which it must jump. -/
def readChecked (length offset : Nat) : Reader Fault (Op × Nat) := do
  let (op, size) ← (readOp offset).mapError (truncatedAt offset)
  match op.jumpTargets.find? fun target => length ≤ target with
  | some target => throw (.branchOutside offset target)
  | none => return (op, size)

/-- Decodes the code of a method, given its lines in order. -/
def decode (code : Bytes) (lines : List LineNumber) : Except Fault (List Decoded) := do
  let ops ← Reader.cut (readChecked code.length) code
  let table := lines.toArray
  return ops.map fun (place, op) =>
    let offset := place % UInt32.size
    { offset, line := lineAt table offset, op }

end ClassImage.Bytecode
