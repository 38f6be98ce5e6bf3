import ClassImage.Bytes
import ClassImage.Search

/-!
# Class images

The compact form of a class that the target machine loads. Names, constants and members are tables
of the image; an index into one of them has 16 bits, and the index 0xFFFF stands for "none". Classes
are named by their number in a symbol table shared by all images. Floating point numbers are kept
as their bits.
-/

namespace ClassImage

/-- The number of a class in the symbol table. -/
abbrev ClassId := UInt16

/-- An index into the names of an image. -/
abbrev NameIndex := UInt16

/-- An index into the constants of an image. -/
abbrev ConstantIndex := UInt16

/-- An index into the members of an image. -/
abbrev MemberIndex := UInt16

namespace Image

/-- A constant of an image. -/
inductive Constant where
  | int (value : Int32)
  | float (bits : UInt32)
  | long (value : Int64)
  | double (bits : UInt64)
  | string (name : NameIndex)
deriving DecidableEq, Repr

/-- A field or method that code refers to; the class is part of the instruction. -/
structure Member where
  name : NameIndex
  descriptor : NameIndex
deriving DecidableEq, Repr

/-- A field of the class. -/
structure Field where
  accessFlags : UInt16
  name : NameIndex
  descriptor : NameIndex
  constantValue : Option ConstantIndex
deriving DecidableEq, Repr

/-- The start of a run of code that comes from one line. -/
structure LineEntry where
  offset : UInt16
  line : UInt16
deriving DecidableEq, Repr

/-- An exception handler, in offsets of the encoded code. -/
structure Handler where
  /-- Where the protected code starts. -/
  start : UInt16
  /-- Where the protected code ends. -/
  stop : UInt16
  /-- Where the handler starts. -/
  entry : UInt16
  /-- The class of exceptions caught; all, if there is none. -/
  catchType : Option ClassId
deriving DecidableEq, Repr

/-- A method of the class. -/
structure Method where
  accessFlags : UInt16
  name : NameIndex
  descriptor : NameIndex
  maxStack : UInt16
  maxLocals : UInt16
  /-- The encoded records; empty for a method without a body. -/
  code : Bytes
  lines : List LineEntry
  handlers : List Handler
deriving DecidableEq, Repr

/-- The line of the code at an offset: that of the last entry at or before it. -/
def lineForOffset (lines : Array LineEntry) (offset : UInt16) : Option UInt16 :=
  let after := partitionPoint lines.size fun i =>
    match lines[i]? with
    | some entry => entry.offset ≤ offset
    | none => false
  if after = 0 then none else lines[after - 1]?.map LineEntry.line

end Image

/-- The compact form of a class. -/
structure Image where
  accessFlags : UInt16
  thisClass : ClassId
  superClass : Option ClassId
  sourceFile : Option NameIndex
  interfaces : List ClassId
  names : List String
  constants : List Image.Constant
  members : List Image.Member
  fields : List Image.Field
  methods : List Image.Method
deriving DecidableEq, Repr

namespace Image

/-- The name of an index. -/
def name? (image : Image) (index : NameIndex) : Option String := image.names[index.toNat]?

/-- The first method with a name and a descriptor. -/
def method? (image : Image) (name descriptor : String) : Option Method :=
  image.methods.find? fun method =>
    image.name? method.name == some name && image.name? method.descriptor == some descriptor

/-! ### Equality of numbers

Two images hold the same numbers when their floating point constants are equal as numbers: a NaN
differs from everything, and the two zeros are the same. -/

/-- Whether the bits of a float are a NaN. -/
def isNaN32 (bits : UInt32) : Bool := bits &&& 0x7FFFFFFF > 0x7F800000

/-- Whether the bits of a double are a NaN. -/
def isNaN64 (bits : UInt64) : Bool := bits &&& 0x7FFFFFFFFFFFFFFF > 0x7FF0000000000000

/-- Whether two constants are equal as numbers. -/
def Constant.sameNumber : Constant → Constant → Bool
  | float a, float b =>
    !isNaN32 a && !isNaN32 b && (a == b || (a ||| b) &&& 0x7FFFFFFF == 0)
  | double a, double b =>
    !isNaN64 a && !isNaN64 b && (a == b || (a ||| b) &&& 0x7FFFFFFFFFFFFFFF == 0)
  | a, b => a == b

/-- Whether two images agree in everything, constants as numbers. -/
def sameNumbers (a b : Image) : Bool :=
  a.constants.length == b.constants.length &&
  (a.constants.zip b.constants).all (fun (x, y) => x.sameNumber y) &&
  a == { b with constants := a.constants }

end Image

end ClassImage
