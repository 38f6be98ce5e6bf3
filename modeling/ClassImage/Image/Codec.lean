import ClassImage.Stream
import ClassImage.Image.Basic

/-!
# Reading and writing class images

The sections of an image stand in a fixed order: header, interfaces, names, constants, members,
fields, methods. Numbers are little-endian, a sequence has its count in front of it, and a text is
a sequence of UTF-8 bytes. Bytes after the last section are ignored.
-/

namespace ClassImage.Image

/-- The bytes that open an image. -/
def magic : Bytes := [0x54, 0x49, 0x4E, 0x59]

/-- The version of the format. -/
def version : UInt16 := 1

/-- The number that stands for an absent index. -/
def absent : UInt16 := 0xFFFF

/-! ### Writing -/

/-- Writes an index that may be absent. -/
def writeOption (index : Option UInt16) : Writer Unit :=
  Writer.word16 (index.getD absent)

/-- Writes a text. -/
def writeText (text : String) : Writer Unit := do
  Writer.count text.utf8ByteSize
  Writer.bytes text.toUTF8.data.toList

/-- Writes a constant after its tag. -/
def Constant.write : Constant → Writer Unit
  | int value => do Writer.byte 1; Writer.word32 value.toUInt32
  | float bits => do Writer.byte 2; Writer.word32 bits
  | long value => do Writer.byte 3; Writer.word64 value.toUInt64
  | double bits => do Writer.byte 4; Writer.word64 bits
  | string name => do Writer.byte 5; Writer.word16 name

def Member.write (member : Member) : Writer Unit := do
  Writer.word16 member.name
  Writer.word16 member.descriptor

def Field.write (field : Field) : Writer Unit := do
  Writer.word16 field.accessFlags
  Writer.word16 field.name
  Writer.word16 field.descriptor
  writeOption field.constantValue

def LineEntry.write (entry : LineEntry) : Writer Unit := do
  Writer.word16 entry.offset
  Writer.word16 entry.line

def Handler.write (handler : Handler) : Writer Unit := do
  Writer.word16 handler.start
  Writer.word16 handler.stop
  Writer.word16 handler.entry
  writeOption handler.catchType

/-- Writes a method; the length of its code has 32 bits. -/
def Method.write (method : Method) : Writer Unit := do
  Writer.word16 method.accessFlags
  Writer.word16 method.name
  Writer.word16 method.descriptor
  Writer.word16 method.maxStack
  Writer.word16 method.maxLocals
  Writer.word32 (UInt32.ofNat method.code.length)
  Writer.bytes method.code
  Writer.counted LineEntry.write method.lines
  Writer.counted Handler.write method.handlers

/-- Writes an image. -/
def write (image : Image) : Writer Unit := do
  Writer.bytes magic
  Writer.word16 version
  Writer.word16 image.accessFlags
  Writer.word16 image.thisClass
  writeOption image.superClass
  writeOption image.sourceFile
  Writer.counted Writer.word16 image.interfaces
  Writer.counted writeText image.names
  Writer.counted Constant.write image.constants
  Writer.counted Member.write image.members
  Writer.counted Field.write image.fields
  Writer.counted Method.write image.methods

/-- The bytes of an image. -/
def toBytes (image : Image) : Except StreamFault Bytes := image.write.toBytes

/-! ### Reading -/

/-- Reads an index that may be absent. -/
def readOption : Reader StreamFault (Option UInt16) := do
  let index ← Reader.word16 .little
  return if index = absent then none else some index

/-- Reads a text. -/
def readText : Reader StreamFault String := do
  let length ← Reader.word16 .little
  let bytes ← Reader.take length.toNat
  match String.fromUTF8? bytes.toByteArray with
  | some text => return text
  | none => throw .badName

/-- Reads a constant with its tag. -/
def Constant.read : Reader StreamFault Constant := do
  let tag ← Reader.byte
  match tag with
  | 1 => return int (← Reader.word32 .little).toInt32
  | 2 => return float (← Reader.word32 .little)
  | 3 => return long (← Reader.word64 .little).toInt64
  | 4 => return double (← Reader.word64 .little)
  | 5 => return string (← Reader.word16 .little)
  | _ => throw .unknownTag

def Member.read : Reader StreamFault Member := do
  let name ← Reader.word16 .little
  let descriptor ← Reader.word16 .little
  return { name, descriptor }

def Field.read : Reader StreamFault Field := do
  let accessFlags ← Reader.word16 .little
  let name ← Reader.word16 .little
  let descriptor ← Reader.word16 .little
  let constantValue ← readOption
  return { accessFlags, name, descriptor, constantValue }

def LineEntry.read : Reader StreamFault LineEntry := do
  let offset ← Reader.word16 .little
  let line ← Reader.word16 .little
  return { offset, line }

def Handler.read : Reader StreamFault Handler := do
  let start ← Reader.word16 .little
  let stop ← Reader.word16 .little
  let entry ← Reader.word16 .little
  let catchType ← readOption
  return { start, stop, entry, catchType }

/-- Reads the code of a method after its length. -/
def readCode : Reader StreamFault Bytes := do
  let length ← Reader.word32 .little
  (Reader.take length.toNat).mapError fun (_ : Ended) => .endOfCode

def Method.read : Reader StreamFault Method := do
  let accessFlags ← Reader.word16 .little
  let name ← Reader.word16 .little
  let descriptor ← Reader.word16 .little
  let maxStack ← Reader.word16 .little
  let maxLocals ← Reader.word16 .little
  let code ← readCode
  let lines ← Reader.counted .little LineEntry.read
  let handlers ← Reader.counted .little Handler.read
  return { accessFlags, name, descriptor, maxStack, maxLocals, code, lines, handlers }

/-- Reads an image off the front of a byte string. -/
def read : Reader StreamFault Image := do
  let opening ← Reader.take magic.length
  let number ← Reader.word16 .little
  unless opening = magic ∧ number = version do
    throw StreamFault.badHeader
  let accessFlags ← Reader.word16 .little
  let thisClass ← Reader.word16 .little
  let superClass ← readOption
  let sourceFile ← readOption
  let interfaces ← Reader.counted .little (Reader.word16 .little)
  let names ← Reader.counted .little readText
  let constants ← Reader.counted .little Constant.read
  let members ← Reader.counted .little Member.read
  let fields ← Reader.counted .little Field.read
  let methods ← Reader.counted .little Method.read
  return {
    accessFlags, thisClass, superClass, sourceFile, interfaces, names, constants, members, fields,
    methods }

/-- The image that a byte string starts with. -/
def ofBytes (bytes : Bytes) : Except StreamFault Image := do
  let (image, _) ← read bytes
  return image

end ClassImage.Image
