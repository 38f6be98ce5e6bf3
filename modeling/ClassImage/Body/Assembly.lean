import ClassImage.Body.Basic
import ClassImage.Conversion.Settings

/-!
# Laying a body out as records

The length of every record is fixed by its opcode, so the offset of every instruction is known
before any record is written. With the offsets at hand, each instruction becomes its records, and a
reference to an instruction becomes the distance to it in bytes.
-/

namespace ClassImage.Body

open Conversion (Error Settings)
open Image (Record LineEntry)

/-- The records of a body, with its tables in offsets of the encoded code. -/
structure Assembly where
  records : List Record
  lines : List LineEntry
  handlers : List Image.Handler
deriving DecidableEq, Repr

/-- The encoded code. -/
def Assembly.code (assembly : Assembly) : Bytes := assembly.records.flatMap Record.encode

/-- Where the instructions of a body start. -/
def layout (body : Body) : Layout Instruction := Layout.ofList 0 body.instructions

/-- The offset of a position. The position after the last instruction has the offset at which the
code ends. -/
def offsetOf? (layout : Layout Instruction) (position : Nat) : Option Nat :=
  if position = layout.size then some layout.stop else layout.offsets[position]?

/-- An instruction about to become records: where it stands, by position and by offset. -/
structure Place where
  layout : Layout Instruction
  position : Nat
  offset : Nat

namespace Place

/-- The distance in bytes to an instruction. -/
def distance (place : Place) (target : Nat) : Except Error Int :=
  match offsetOf? place.layout target with
  | some offset => .ok ((offset : Int) - place.offset)
  | none => .error (.missingInstruction place.position target)

/-- The number that a displacement stands for. -/
def resolve (place : Place) : Displacement → Except Error Int
  | .value number => .ok number.toInt
  | .branch target => place.distance target

/-- Refuses a number outside the range of a field of so many bits. -/
def fit (place : Place) (bits : Nat) (least greatest amount : Int) : Except Error Int :=
  if least ≤ amount ∧ amount ≤ greatest then .ok amount
  else .error (.displacement place.offset amount bits)

/-- The record of a parameter of a switch. -/
def parameter (place : Place) (insn : Instruction) (param : Parameter) (index : Nat) :
    Except Error Record :=
  match insn.opcode.isTargetParameter index, param with
  | false, .values hi lo => .ok (.values hi lo)
  | true, .target target => do
    let amount ← place.fit 32 (-0x80000000) 0x7FFFFFFF (← place.distance target)
    return .target (Int32.ofInt amount)
  | _, _ => .error (.unsupported (.parameterKind index insn))

/-- The records of an instruction. -/
def records (place : Place) (insn : Instruction) : Except Error (List Record) :=
  match insn.opcode.format, insn.operands with
  | .bare, .bare => .ok [.bare insn.opcode]
  | .regDisp, .regDisp reg disp => do
    let amount ← place.fit 16 (-0x8000) 0x7FFF (← place.resolve disp)
    return [.regDisp insn.opcode reg.number (Int16.ofInt amount)]
  | .shortImmReg, .shortImmReg imm reg =>
    match reg.shortField? with
    | none => .error (.unsupported (.shortRegister reg insn))
    | some field => do
      let amount ← place.fit 18 Record.shortMin Record.shortMax (← place.resolve imm)
      return [.shortImmReg insn.opcode (Int32.ofInt amount) field]
  | .two16, .two16 hi lo => .ok [.two16 insn.opcode hi lo]
  | .switch, .switch key parameters =>
    if parameters.length ≤ 0xFFFF then do
      let rest ← parameters.zipIdx.mapM fun (param, index) => place.parameter insn param index
      return .switchHeader insn.opcode key.number (UInt16.ofNat parameters.length) :: rest
    else .error (.unsupported (.parameterCount parameters.length))
  | format, _ => .error (.unsupported (.operands insn format))

end Place

/-- The starts of the runs of instructions with the same line, put in front of the reversed `done`.
`last` is the line of the run before. -/
def lineRunsOnto : Option UInt16 → List LineEntry → List (Nat × Instruction) → List LineEntry
  | _, done, [] => done.reverse
  | last, done, (offset, insn) :: rest =>
    if last = some insn.line then lineRunsOnto last done rest
    else lineRunsOnto (some insn.line) (⟨UInt16.ofNat offset, insn.line⟩ :: done) rest

/-- The offset of a position, as a number of the tables that go with the code. -/
def wordOffset (layout : Layout Instruction) (position : Nat) : Except Error UInt16 :=
  match offsetOf? layout position with
  | some offset => .ok (UInt16.ofNat offset)
  | none => .error (.missingInstruction layout.size position)

/-- The handler in offsets of the encoded code. -/
def Handler.place (layout : Layout Instruction) (handler : Handler) :
    Except Error Image.Handler := do
  let start ← wordOffset layout handler.start
  let stop ← wordOffset layout handler.stop
  let entry ← wordOffset layout handler.entry
  return { start, stop, entry, catchType := handler.catchType }

/-- The records and tables of a body. A body whose code would be longer than 16-bit offsets reach is
refused before anything else. -/
def assemble (settings : Settings) (body : Body) : Except Error Assembly := do
  let layout := body.layout
  if 0xFFFF < layout.stop then
    throw (Error.unsupported (.bodyLength layout.stop))
  let groups ← layout.toList.zipIdx.mapM fun ((offset, insn), position) =>
    Place.records { layout, position, offset } insn
  let handlers ← body.handlers.mapM (Handler.place layout)
  let lines := if settings.lineNumbers then lineRunsOnto none [] layout.toList else []
  return { records := groups.flatten, lines, handlers }

end ClassImage.Body
