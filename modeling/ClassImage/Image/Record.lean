import ClassImage.Bytes
import ClassImage.Layout
import ClassImage.Text.Numeral
import ClassImage.Image.Opcode

/-!
# Records

Encoded code is a sequence of records. An instruction is one record, except for a switch, which is
a header followed by as many parameter records as the header counts. `Record.encode` writes a
record; `disassemble` cuts code back into records.
-/

namespace ClassImage.Image

/-- One unit of encoded code. -/
inductive Record where
  | bare (opcode : Opcode)
  | regDisp (opcode : Opcode) (reg : UInt8) (disp : Int16)
  /-- The immediate has 18 bits and the register 6; what does not fit is cut off when written. -/
  | shortImmReg (opcode : Opcode) (imm : Int32) (reg : UInt8)
  | two16 (opcode : Opcode) (hi lo : UInt16)
  | switchHeader (opcode : Opcode) (key : UInt8) (count : UInt16)
  /-- A switch parameter: the halves of a number. -/
  | values (hi lo : UInt16)
  /-- A switch parameter: a displacement from the switch header. -/
  | target (disp : Int32)
deriving DecidableEq, Repr

namespace Record

/-- The length of a parameter record. -/
def parameterLength : Nat := 4

/-- The least number that a short immediate holds. -/
def shortMin : Int := -0x20000

/-- The greatest number that a short immediate holds. -/
def shortMax : Int := 0x1FFFF

/-- The register number that a short register field cannot exceed. -/
def shortRegMax : UInt8 := 63

/-- The length of a record in bytes. -/
def length : Record → Nat
  | bare _ => Format.bare.length
  | regDisp .. => Format.regDisp.length
  | shortImmReg .. => Format.shortImmReg.length
  | two16 .. => Format.two16.length
  | switchHeader .. => Format.switch.length
  | values .. | target _ => parameterLength

instance : Width Record := ⟨length⟩

/-- The word that holds a short immediate above a short register. -/
def shortWord (imm : Int32) (reg : UInt8) : Nat :=
  (imm.toInt % 0x40000).toNat * 64 + reg.toNat % 64

/-- The short immediate of a word. -/
def shortImm (word : Nat) : Int32 :=
  let bits := word / 64 % 0x40000
  Int32.ofInt (if bits < 0x20000 then bits else bits - 0x40000)

/-- The short register of a word. -/
def shortReg (word : Nat) : UInt8 := UInt8.ofNat (word % 64)

/-- The bytes of a record. -/
def encode : Record → Bytes
  | bare opcode => [opcode.byte]
  | regDisp opcode reg disp => opcode.byte :: reg :: digits 2 disp.toUInt16.toNat
  | shortImmReg opcode imm reg => opcode.byte :: digits 3 (shortWord imm reg)
  | two16 opcode hi lo => opcode.byte :: (digits 2 hi.toNat ++ digits 2 lo.toNat)
  | switchHeader opcode key count => opcode.byte :: key :: digits 2 count.toNat
  | values hi lo => digits 2 hi.toNat ++ digits 2 lo.toNat
  | target disp => digits 4 disp.toUInt32.toNat

/-- A record in a listing. -/
def text : Record → String
  | bare opcode => opcode.mnemonic
  | regDisp opcode reg disp =>
    opcode.mnemonic ++ s!" r{reg.toNat} " ++ Text.signed disp.toInt
  | shortImmReg opcode imm reg => opcode.mnemonic ++ s!" {imm.toInt} r{reg.toNat}"
  | two16 opcode hi lo => opcode.mnemonic ++ s!" {hi.toNat} {lo.toNat}"
  | switchHeader opcode key count => opcode.mnemonic ++ s!" r{key.toNat} [{count.toNat}]"
  | values hi lo => s!"  values {hi.toNat} {lo.toNat}"
  | target disp => "  target " ++ Text.signed disp.toInt

/-- What follows an opcode in its record. -/
def readOperands (opcode : Opcode) : Reader Ended Record :=
  match opcode.format with
  | .bare => pure (bare opcode)
  | .regDisp => do
    let reg ← Reader.byte
    let disp ← Reader.word16 .little
    return regDisp opcode reg disp.toInt16
  | .shortImmReg => do
    let word ← Reader.nat .little 3
    return shortImmReg opcode (shortImm word) (shortReg word)
  | .two16 => do
    let hi ← Reader.word16 .little
    let lo ← Reader.word16 .little
    return two16 opcode hi lo
  | .switch => do
    let key ← Reader.byte
    let count ← Reader.word16 .little
    return switchHeader opcode key count

/-- A parameter of a switch. -/
def readParameter (isTarget : Bool) : Reader Ended Record :=
  if isTarget then do
    let disp ← Reader.word32 .little
    return target disp.toInt32
  else do
    let hi ← Reader.word16 .little
    let lo ← Reader.word16 .little
    return values hi lo

end Record

/-! ### Cutting code into records -/

/-- Why code cannot be cut into records. -/
inductive DisassemblyFault where
  | unknownOpcode (opcode : UInt8) (offset : Nat)
  | truncated (offset : Nat)
deriving DecidableEq, Repr

/-- The text that describes the fault. -/
def DisassemblyFault.message : DisassemblyFault → String
  | unknownOpcode opcode offset =>
    "unknown tiny opcode " ++ Text.hex 2 opcode.toNat ++ s!" at offset {offset}"
  | truncated offset => s!"truncated record at offset {offset}"

/-- Reads `n` parameters of a switch, the first of which has the given index and offset, and puts
them in front of the reversed `done`. -/
def readParametersOnto (opcode : Opcode) :
    Nat → Nat → Nat → List Record → Reader DisassemblyFault (List Record)
  | 0, _, _, done, bs => .ok (done.reverse, bs)
  | n + 1, index, offset, done, bs =>
    match Record.readParameter (opcode.isTargetParameter index) bs with
    | .error _ => .error (.truncated offset)
    | .ok (record, rest) =>
      readParametersOnto opcode n (index + 1) (offset + Record.parameterLength) (record :: done)
        rest

/-- The records of the instruction at an offset, with their total length. -/
def readInstruction (offset : Nat) : Reader DisassemblyFault (List Record × Nat) := do
  let b ← Reader.byte.mapError fun (_ : Ended) => .truncated offset
  match Opcode.ofByte? b with
  | none => throw (.unknownOpcode b offset)
  | some opcode =>
    let first ← (Record.readOperands opcode).mapError fun _ => .truncated offset
    match first with
    | .switchHeader _ _ count =>
      let parameters ←
        readParametersOnto opcode count.toNat 0 (offset + first.length) []
      return (first :: parameters, first.length + count.toNat * Record.parameterLength)
    | _ => return ([first], first.length)

/-- The instructions of encoded code: the offset of each and its records. -/
def instructions (code : Bytes) : Except DisassemblyFault (List (Nat × List Record)) :=
  Reader.cut readInstruction code

/-- The records of encoded code with their offsets. -/
def disassemble (code : Bytes) : Except DisassemblyFault (Layout Record) := do
  let groups ← instructions code
  return Layout.ofList 0 (groups.flatMap Prod.snd)

/-- The printed form of laid out records, one to a line. -/
def listing (records : Layout Record) : String :=
  String.join <| records.toList.map fun (offset, record) =>
    Text.column 6 offset ++ ": " ++ record.text ++ "\n"

end ClassImage.Image
