import ClassImage.Stream
import ClassImage.Text.Numeral

/-!
# What can be wrong with a class file

One constructor per cause; `Fault.message` holds all the wording.
-/

namespace ClassImage.ClassFile

/-- The attributes that are understood; all others are skipped. -/
inductive AttributeName where
  | constantValue
  | sourceFile
  | code
  | lineNumberTable
deriving DecidableEq, Repr

/-- The name of an attribute as it stands in class files. -/
def AttributeName.text : AttributeName → String
  | constantValue => "ConstantValue"
  | sourceFile => "SourceFile"
  | code => "Code"
  | lineNumberTable => "LineNumberTable"

/-- The kinds of constant that a place can ask for. -/
inductive Expected where
  | utf8
  | classRef
  | nameAndType
  | fieldRef
  | methodRef
  | longOrDouble
  | loadable
  | fieldConstant
deriving DecidableEq, Repr

/-- The name of an expected kind of constant in messages. -/
def Expected.text : Expected → String
  | utf8 => "Utf8"
  | classRef => "Class"
  | nameAndType => "NameAndType"
  | fieldRef => "Fieldref"
  | methodRef => "Methodref"
  | longOrDouble => "Long or Double"
  | loadable => "loadable constant"
  | fieldConstant => "field constant"

/-- What can be wrong with a class file or with the code of a method in it. -/
inductive Fault where
  | truncated
  | badMagic (found : UInt32)
  | unknownTag (tag : UInt8) (index : Nat)
  /-- The index is zero, past the end, or the second slot of a wide constant. -/
  | badIndex (index : UInt16)
  | wrongKind (index : UInt16) (expected : Expected)
  | invalidText
  | malformedAttribute (name : AttributeName)
  | unknownOpcode (opcode : UInt8) (offset : Nat)
  | truncatedInstruction (offset : Nat)
  | badWide (opcode : UInt8) (offset : Nat)
  | badSwitchBounds (offset : Nat)
  /-- The jump of the instruction at `offset` leaves the code. -/
  | branchOutside (offset : Nat) (target : Int)
  | stream (fault : StreamFault)
deriving DecidableEq, Repr

namespace Fault

instance : EndOfInput Fault := ⟨truncated⟩

/-- The text that describes the fault. -/
def message : Fault → String
  | truncated => "class file is truncated"
  | badMagic found => "bad magic number " ++ Text.hex 8 found.toNat
  | unknownTag tag index => s!"unknown constant pool tag {tag.toNat} at index {index}"
  | badIndex index => s!"constant pool index {index.toNat} is not valid"
  | wrongKind index expected =>
    s!"constant pool index {index.toNat} is not a {expected.text} constant"
  | invalidText => "invalid modified UTF-8 string"
  | malformedAttribute name => s!"malformed `{name.text}` attribute"
  | unknownOpcode opcode offset =>
    "unknown opcode " ++ Text.hex 2 opcode.toNat ++ s!" at offset {offset}"
  | truncatedInstruction offset => s!"truncated instruction at offset {offset}"
  | badWide opcode offset =>
    s!"`wide` at offset {offset} cannot modify opcode " ++ Text.hex 2 opcode.toNat
  | badSwitchBounds offset => s!"switch at offset {offset} has a negative case count"
  | branchOutside offset target => s!"branch at offset {offset} targets invalid offset {target}"
  | stream fault => "IO error: " ++ fault.message

/-- The fault of a stream while a class file is read: an early end means a truncated file. -/
def ofStream (fault : StreamFault) : Fault :=
  if fault.isEndOfInput then truncated else stream fault

end Fault

end ClassImage.ClassFile
