import ClassImage.Layout
import ClassImage.Text.ModifiedUtf8
import ClassImage.ClassFile.Fault

/-!
# Constant pools

A constant pool is a layout of constants that starts at slot 1. Long and double constants take two
slots, of which the second names nothing. Constants refer to each other by slot; the queries at the
end of this module follow such references down to texts.
-/

namespace ClassImage.ClassFile

/-- A constant of a class file. References are slots of the constant pool; floating point numbers
are kept as their bits. -/
inductive Constant where
  | utf8 (text : String)
  | integer (value : Int32)
  | float (bits : UInt32)
  | long (value : Int64)
  | double (bits : UInt64)
  | classRef (name : UInt16)
  | string (text : UInt16)
  | fieldRef (owner nameAndType : UInt16)
  | methodRef (owner nameAndType : UInt16) (ofInterface : Bool)
  | nameAndType (name descriptor : UInt16)
  | methodHandle (kind : UInt8) (member : UInt16)
  | methodType (descriptor : UInt16)
  | dynamic (bootstrap nameAndType : UInt16)
  | invokeDynamic (bootstrap nameAndType : UInt16)
  | moduleRef (name : UInt16)
  | packageRef (name : UInt16)
deriving DecidableEq, Repr

/-- A 16-bit number of a class file. -/
def readIndex : Reader Fault UInt16 := Reader.word16 .big

/-- Reads the text of a constant after its length. -/
def readUtf8 : Reader Fault String := do
  let length ← readIndex
  let bytes ← Reader.take length.toNat
  match Text.ModifiedUtf8.decode? bytes with
  | some text => return text
  | none => throw .invalidText

namespace Constant

/-- The number of slots that a constant takes. -/
def slots : Constant → Nat
  | long _ | double _ => 2
  | _ => 1

instance : Width Constant := ⟨slots⟩

/-- Reads what follows the tag of the constant at a slot. -/
def readBody (slot : Nat) (tag : UInt8) : Reader Fault Constant :=
  match tag with
  | 1 => do return utf8 (← readUtf8)
  | 3 => do return integer (← Reader.word32 .big).toInt32
  | 4 => do return float (← Reader.word32 .big)
  | 5 => do return long (← Reader.word64 .big).toInt64
  | 6 => do return double (← Reader.word64 .big)
  | 7 => do return classRef (← readIndex)
  | 8 => do return string (← readIndex)
  | 9 => do return fieldRef (← readIndex) (← readIndex)
  | 10 => do return methodRef (← readIndex) (← readIndex) false
  | 11 => do return methodRef (← readIndex) (← readIndex) true
  | 12 => do return nameAndType (← readIndex) (← readIndex)
  | 15 => do return methodHandle (← Reader.byte) (← readIndex)
  | 16 => do return methodType (← readIndex)
  | 17 => do return dynamic (← readIndex) (← readIndex)
  | 18 => do return invokeDynamic (← readIndex) (← readIndex)
  | 19 => do return moduleRef (← readIndex)
  | 20 => do return packageRef (← readIndex)
  | _ => throw (.unknownTag tag slot)

/-- Reads the constant at a slot. -/
def read (slot : Nat) : Reader Fault Constant := do
  let tag ← Reader.byte
  readBody slot tag

end Constant

/-- A field or method reference with all its texts. -/
structure MemberRef where
  owner : String
  name : String
  descriptor : String
deriving DecidableEq, Repr

/-- The constant pool of a class file. -/
structure ConstantPool where
  slots : Layout Constant
deriving Repr

namespace ConstantPool

/-- Reads constants until the slots below `count` are used up. The first argument bounds the number
of constants. -/
def readSlots (count : Nat) : Nat → Layout Constant → Reader Fault (Layout Constant)
  | 0, slots, bs => .ok (slots, bs)
  | bound + 1, slots, bs =>
    if slots.stop < count then
      match Constant.read slots.stop bs with
      | .error e => .error e
      | .ok (constant, rest) => readSlots count bound (slots.push constant) rest
    else .ok (slots, bs)

/-- Reads a constant pool after its count, which is one more than the number of slots. The last
constant must not reach past the last slot. -/
def read : Reader Fault ConstantPool := do
  let count ← readIndex
  let slots ← readSlots count.toNat count.toNat (Layout.startingAt 1)
  if count.toNat < slots.stop then
    throw (.badIndex count)
  return ⟨slots⟩

/-- The constants with their slots, in order. -/
def toList (pool : ConstantPool) : List (Nat × Constant) := pool.slots.toList

/-- The constant at a slot. -/
def get (pool : ConstantPool) (index : UInt16) : Except Fault Constant :=
  match (pool.slots.lookup index.toNat).found? with
  | some constant => .ok constant
  | none => .error (.badIndex index)

/-- The text at a slot. -/
def utf8 (pool : ConstantPool) (index : UInt16) : Except Fault String := do
  match ← pool.get index with
  | .utf8 text => return text
  | _ => throw (.wrongKind index .utf8)

/-- The name of the class at a slot. -/
def className (pool : ConstantPool) (index : UInt16) : Except Fault String := do
  match ← pool.get index with
  | .classRef name => pool.utf8 name
  | _ => throw (.wrongKind index .classRef)

/-- The name and the descriptor at a slot. -/
def nameAndType (pool : ConstantPool) (index : UInt16) : Except Fault (String × String) := do
  match ← pool.get index with
  | .nameAndType name descriptor => return (← pool.utf8 name, ← pool.utf8 descriptor)
  | _ => throw (.wrongKind index .nameAndType)

/-- The texts of a member, of which the name and descriptor are looked up before the class. -/
def memberRef (pool : ConstantPool) (owner nameAndType : UInt16) : Except Fault MemberRef := do
  let (name, descriptor) ← pool.nameAndType nameAndType
  let owner ← pool.className owner
  return { owner, name, descriptor }

/-- The field reference at a slot. -/
def fieldRef (pool : ConstantPool) (index : UInt16) : Except Fault MemberRef := do
  match ← pool.get index with
  | .fieldRef owner nameAndType => pool.memberRef owner nameAndType
  | _ => throw (.wrongKind index .fieldRef)

/-- The method reference at a slot, whether to a class or to an interface. -/
def methodRef (pool : ConstantPool) (index : UInt16) : Except Fault MemberRef := do
  match ← pool.get index with
  | .methodRef owner nameAndType _ => pool.memberRef owner nameAndType
  | _ => throw (.wrongKind index .methodRef)

end ConstantPool

end ClassImage.ClassFile
