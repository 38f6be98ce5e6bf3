import ClassImage.Operation

/-!
# Opcodes of the target machine

An opcode fixes the format of its record, and a format fixes the record's length, so the size of
an instruction is known from its opcode alone; a switch adds one record per parameter. Opcodes are
one byte; `ofByte?` undoes `byte`.
-/

namespace ClassImage.Image

/-- The layouts of records. -/
inductive Format where
  /-- The opcode alone. -/
  | bare
  /-- A register and a 16-bit displacement. -/
  | regDisp
  /-- A word of 24 bits: an immediate of 18 bits above a register of 6 bits. -/
  | shortImmReg
  /-- Two 16-bit values. -/
  | two16
  /-- A key register and a count of parameter records, which follow. -/
  | switch
deriving DecidableEq, Repr

namespace Format

/-- The length of a record, without the parameter records of a switch. -/
def length : Format → Nat
  | bare => 1
  | regDisp => 4
  | shortImmReg => 4
  | two16 => 5
  | switch => 4

def name : Format → String
  | bare => "Bare"
  | regDisp => "RegDisp"
  | shortImmReg => "ShortImmReg"
  | two16 => "Two16"
  | switch => "Switch"

end Format

/-- Opcodes of the target machine. -/
inductive Opcode where
  | plain (op : Plain)
  | load (kind : ValueKind)
  | store (kind : ValueKind)
  | increment
  | goto
  /-- Pushes an int held in the short immediate. -/
  | pushShort
  | branch (condition : Condition)
  /-- Pushes an int given as two halves. -/
  | pushInt
  /-- Pushes a float whose bits are given as two halves. -/
  | pushFloat
  | pushLong
  | pushDouble
  | pushString
  | pushClass
  | field (access : FieldAccess)
  | invoke (invocation : Invocation)
  | onClass (op : ClassOperation)
  /-- Makes an array of a primitive type. -/
  | newArray
  /-- Makes an array of several dimensions. -/
  | newMultiArray
  | tableSwitch
  | lookupSwitch
deriving DecidableEq, Repr

end ClassImage.Image

namespace ClassImage

/-- The byte of an operation on the operand stack. -/
def Plain.imageByte : Plain → UInt8
  | nop => 0x00
  | pushNull => 0x01
  | pushLong0 => 0x02
  | pushLong1 => 0x03
  | pushFloat0 => 0x04
  | pushFloat1 => 0x05
  | pushFloat2 => 0x06
  | pushDouble0 => 0x07
  | pushDouble1 => 0x08
  | arrayLoad kind => 0x10 + kind.code
  | arrayStore kind => 0x18 + kind.code
  | pop => 0x20
  | pop2 => 0x21
  | dup => 0x22
  | dupX1 => 0x23
  | dupX2 => 0x24
  | dup2 => 0x25
  | dup2X1 => 0x26
  | dup2X2 => 0x27
  | swap => 0x28
  | arithmetic op kind => 0x30 + 4 * op.code + kind.code
  | bitwise op kind => 0x48 + 2 * op.code + kind.code
  | cast conversion => 0x58 + conversion.code
  | compare comparison => 0x68 + comparison.code
  | returnValue kind => 0x70 + kind.code
  | returnVoid => 0x75
  | arrayLength => 0x76
  | throw => 0x77
  | monitorEnter => 0x78
  | monitorExit => 0x79

/-- The mnemonic of an operation on the operand stack. -/
def Plain.mnemonic : Plain → String
  | nop => "nop"
  | pushNull => "const.null"
  | pushLong0 => "const.l0"
  | pushLong1 => "const.l1"
  | pushFloat0 => "const.f0"
  | pushFloat1 => "const.f1"
  | pushFloat2 => "const.f2"
  | pushDouble0 => "const.d0"
  | pushDouble1 => "const.d1"
  | arrayLoad kind => "aload." ++ kind.letter
  | arrayStore kind => "astore." ++ kind.letter
  | pop => "pop"
  | pop2 => "pop2"
  | dup => "dup"
  | dupX1 => "dup.x1"
  | dupX2 => "dup.x2"
  | dup2 => "dup2"
  | dup2X1 => "dup2.x1"
  | dup2X2 => "dup2.x2"
  | swap => "swap"
  | arithmetic op kind => op.mnemonic ++ "." ++ kind.letter
  | bitwise op kind => op.mnemonic ++ "." ++ kind.letter
  | cast conversion => conversion.mnemonic
  | compare comparison => comparison.mnemonic
  | returnValue kind => "ret." ++ kind.letter
  | returnVoid => "ret"
  | arrayLength => "array.length"
  | throw => "throw"
  | monitorEnter => "monitor.enter"
  | monitorExit => "monitor.exit"

/-- The byte of the branch on a condition. -/
def Condition.imageByte : Condition → UInt8
  | zero relation => 0x91 + relation.code
  | ints relation => 0x97 + relation.code
  | sameRef => 0x9d
  | differentRef => 0x9e
  | null => 0x9f
  | nonNull => 0xa0

/-- The mnemonic of the branch on a condition. -/
def Condition.mnemonic : Condition → String
  | zero relation => "if." ++ relation.mnemonic
  | ints relation => "if.icmp." ++ relation.mnemonic
  | sameRef => "if.acmp.eq"
  | differentRef => "if.acmp.ne"
  | null => "if.null"
  | nonNull => "if.nonnull"

/-- The byte of an operation on a class. -/
def ClassOperation.imageByte : ClassOperation → UInt8
  | new => 0xb8
  | newArray => 0xba
  | checkCast => 0xbc
  | instanceOf => 0xbd

/-- The mnemonic of an operation on a class. -/
def ClassOperation.mnemonic : ClassOperation → String
  | new => "new"
  | newArray => "anew.array"
  | checkCast => "check.cast"
  | instanceOf => "instance.of"

end ClassImage

namespace ClassImage.Image.Opcode

/-- The byte that stands for an opcode. -/
def byte : Opcode → UInt8
  | plain op => op.imageByte
  | load kind => 0x80 + kind.code
  | store kind => 0x85 + kind.code
  | increment => 0x8a
  | goto => 0x8b
  | pushShort => 0x90
  | branch condition => condition.imageByte
  | pushInt => 0xa8
  | pushFloat => 0xa9
  | pushLong => 0xaa
  | pushDouble => 0xab
  | pushString => 0xac
  | pushClass => 0xad
  | field access => 0xb0 + access.code
  | invoke invocation => 0xb4 + invocation.code
  | onClass op => op.imageByte
  | newArray => 0xb9
  | newMultiArray => 0xbb
  | tableSwitch => 0xc0
  | lookupSwitch => 0xc1

/-- The name of an opcode in listings. -/
def mnemonic : Opcode → String
  | plain op => op.mnemonic
  | load kind => "load." ++ kind.letter
  | store kind => "store." ++ kind.letter
  | increment => "inc"
  | goto => "goto"
  | pushShort => "const.i"
  | branch condition => condition.mnemonic
  | pushInt => "const.w"
  | pushFloat => "const.fw"
  | pushLong => "ldc.l"
  | pushDouble => "ldc.d"
  | pushString => "ldc.str"
  | pushClass => "ldc.class"
  | field access => access.mnemonic
  | invoke invocation => invocation.mnemonic
  | onClass op => op.mnemonic
  | newArray => "new.array"
  | newMultiArray => "multianew.array"
  | tableSwitch => "table.switch"
  | lookupSwitch => "lookup.switch"

/-- The format of an opcode's record. -/
def format : Opcode → Format
  | plain _ => .bare
  | load _ | store _ | increment | goto => .regDisp
  | pushShort | branch _ => .shortImmReg
  | pushInt | pushFloat | pushLong | pushDouble | pushString | pushClass | field _ | invoke _
  | onClass _ | newArray | newMultiArray => .two16
  | tableSwitch | lookupSwitch => .switch

/-- Every opcode. -/
def all : List Opcode :=
  Plain.all.map plain ++
  ValueKind.all.map load ++
  ValueKind.all.map store ++
  [increment, goto, pushShort] ++
  Condition.all.map branch ++
  [pushInt, pushFloat, pushLong, pushDouble, pushString, pushClass] ++
  FieldAccess.all.map field ++
  Invocation.all.map invoke ++
  ClassOperation.all.map onClass ++
  [newArray, newMultiArray, tableSwitch, lookupSwitch]

/-- The opcode that a byte stands for. -/
def ofByte? (b : UInt8) : Option Opcode := all.find? fun op => op.byte == b

/-- The opcode with a mnemonic. -/
def ofMnemonic? (name : String) : Option Opcode := all.find? fun op => op.mnemonic == name

/-- Whether the switch parameter of an index is a jump target rather than a pair of values. A table
switch has its bounds first and then only targets; a lookup switch has the default target first and
then keys and targets in turn. -/
def isTargetParameter : Opcode → Nat → Bool
  | tableSwitch, index => 2 ≤ index
  | _, index => index % 2 == 0

end ClassImage.Image.Opcode
