import ClassImage.Image.Basic
import ClassImage.Image.Record

/-!
# Instructions that refer to each other by position

Before code is laid out, an instruction names another one by its position in the body. Which
operands an instruction must have is fixed by the format of its opcode; instructions that break this
rule can be built, and are refused when they are laid out.
-/

namespace ClassImage

/-- The two halves of a 32-bit number, the high one first. -/
def halves (bits : UInt32) : UInt16 × UInt16 :=
  (UInt16.ofNat (bits.toNat / 0x10000), UInt16.ofNat bits.toNat)

/-- The 32-bit number with the given halves. -/
def ofHalves (hi lo : UInt16) : UInt32 := UInt32.ofNat (hi.toNat * 0x10000 + lo.toNat)

namespace Body

/-- A register of the target machine. Local variables are the registers below 254; the last two are
the program counter and the operand stack. -/
structure Register where
  number : UInt8
deriving DecidableEq, Repr

namespace Register

/-- The program counter. -/
def pc : Register := ⟨254⟩

/-- The operand stack. -/
def stack : Register := ⟨255⟩

/-- The register of a local variable, if there is one. -/
def ofSlot? (slot : UInt16) : Option Register :=
  if slot < pc.number.toUInt16 then some ⟨slot.toUInt8⟩ else none

/-- The number of a register in a short register field, if it has one. The greatest number stands
for the operand stack. -/
def shortField? (reg : Register) : Option UInt8 :=
  if reg = stack then some Image.Record.shortRegMax
  else if reg.number < Image.Record.shortRegMax then some reg.number
  else none

def text (reg : Register) : String :=
  if reg = pc then "pc"
  else if reg = stack then "sp"
  else s!"r{reg.number.toNat}"

end Register

/-- A signed number, or the distance to an instruction. -/
inductive Displacement where
  | value (number : Int32)
  | branch (target : Nat)
deriving DecidableEq, Repr

namespace Displacement

/-- Renames the instruction that is referred to. -/
def mapTarget (f : Nat → Nat) : Displacement → Displacement
  | value number => value number
  | branch target => branch (f target)

/-- The instruction that is referred to. -/
def targets : Displacement → List Nat
  | value _ => []
  | branch target => [target]

def text : Displacement → String
  | value number => toString number.toInt
  | branch target => s!"@{target}"

end Displacement

/-- A parameter of a switch. -/
inductive Parameter where
  | values (hi lo : UInt16)
  | target (position : Nat)
deriving DecidableEq, Repr

namespace Parameter

/-- The parameter that holds a number. -/
def ofInt (number : Int32) : Parameter :=
  let (hi, lo) := halves number.toUInt32
  values hi lo

/-- Renames the instruction that is referred to. -/
def mapTarget (f : Nat → Nat) : Parameter → Parameter
  | values hi lo => values hi lo
  | target position => target (f position)

/-- The instruction that is referred to. -/
def target? : Parameter → Option Nat
  | values .. => none
  | target position => some position

def text : Parameter → String
  | values hi lo => toString (ofHalves hi lo).toInt32.toInt
  | target position => s!"@{position}"

end Parameter

/-- The operands of an instruction. -/
inductive Operands where
  | bare
  | regDisp (reg : Register) (disp : Displacement)
  | shortImmReg (imm : Displacement) (reg : Register)
  | two16 (hi lo : UInt16)
  | switch (key : Register) (parameters : List Parameter)
deriving DecidableEq, Repr

namespace Operands

/-- The format that the operands belong to. -/
def format : Operands → Image.Format
  | bare => .bare
  | regDisp .. => .regDisp
  | shortImmReg .. => .shortImmReg
  | two16 .. => .two16
  | switch .. => .switch

/-- Renames the instructions that are referred to. -/
def mapTargets (f : Nat → Nat) : Operands → Operands
  | bare => bare
  | regDisp reg disp => regDisp reg (disp.mapTarget f)
  | shortImmReg imm reg => shortImmReg (imm.mapTarget f) reg
  | two16 hi lo => two16 hi lo
  | switch key parameters => switch key (parameters.map (Parameter.mapTarget f))

/-- The instructions that are referred to, in order. -/
def targets : Operands → List Nat
  | bare | two16 .. => []
  | regDisp _ disp => disp.targets
  | shortImmReg imm _ => imm.targets
  | switch _ parameters => parameters.filterMap Parameter.target?

/-- The operands in a listing. -/
def text : Operands → String
  | bare => ""
  | regDisp reg disp => " " ++ reg.text ++ " " ++ disp.text
  | shortImmReg imm reg => " " ++ imm.text ++ " " ++ reg.text
  | two16 hi lo => s!" {hi.toNat} {lo.toNat}"
  | switch key parameters =>
    " " ++ key.text ++ " [" ++ ", ".intercalate (parameters.map Parameter.text) ++ "]"

end Operands

/-- An instruction of a body. -/
structure Instruction where
  opcode : Image.Opcode
  /-- The line it comes from, or zero if that is unknown. -/
  line : UInt16
  operands : Operands
deriving DecidableEq, Repr

namespace Instruction

/-- Renames the instructions that are referred to. -/
def mapTargets (f : Nat → Nat) (insn : Instruction) : Instruction :=
  { insn with operands := insn.operands.mapTargets f }

/-- The instructions that are referred to, in order. -/
def targets (insn : Instruction) : List Nat := insn.operands.targets

/-- The number of bytes that the records of an instruction take. -/
def length (insn : Instruction) : Nat :=
  match insn.operands with
  | .switch _ parameters =>
    Image.Format.switch.length + parameters.length * Image.Record.parameterLength
  | _ => insn.opcode.format.length

instance : Width Instruction := ⟨length⟩

/-- An instruction in a listing. -/
def text (insn : Instruction) : String := insn.opcode.mnemonic ++ insn.operands.text

end Instruction

end Body

end ClassImage
