import ClassImage.ClassFile.Attribute

/-!
# Class files

The parts of a class file in the order in which they stand in it. Bytes after the last attribute
are ignored. Access flags without a meaning are dropped while reading.
-/

namespace ClassImage

namespace ClassFile

/-- The version of the format. -/
structure Version where
  major : UInt16
  minor : UInt16
deriving DecidableEq, Repr

namespace Version

/-- The version of Java 8. -/
def java8 : Version := ⟨52, 0⟩

/-- Reads a version; the minor number comes first. -/
def read : Reader Fault Version := do
  let minor ← readIndex
  let major ← readIndex
  return { major, minor }

def text (version : Version) : String := s!"{version.major.toNat}.{version.minor.toNat}"

/-- Versions are ordered by their major and then by their minor number. -/
def ble (a b : Version) : Bool :=
  a.major < b.major || (a.major == b.major && a.minor ≤ b.minor)

end Version

/-! ### Access flags -/

/-- The access flags of a class: public, final, super, interface, abstract, synthetic, annotation,
enum and module. -/
def classFlags (bits : UInt16) : UInt16 := bits &&& 0xF631

/-- The access flags of a method: public, private, protected, static, final, synchronized, bridge,
varargs, native, abstract, strict and synthetic. -/
def methodFlags (bits : UInt16) : UInt16 := bits &&& 0x1DFF

/-- The access flags of a field: public, private, protected, static, final, volatile, transient,
synthetic and enum. -/
def fieldFlags (bits : UInt16) : UInt16 := bits &&& 0x50DF

/-! ### Members -/

/-- A field of a class. -/
structure Field where
  accessFlags : UInt16
  name : UInt16
  descriptor : UInt16
  attributes : List Attribute
deriving DecidableEq, Repr

namespace Field

def read : Reader Fault Field := do
  let accessFlags ← readIndex
  let name ← readIndex
  let descriptor ← readIndex
  let attributes ← Reader.counted .big Attribute.read
  return { accessFlags := fieldFlags accessFlags, name, descriptor, attributes }

/-- The slot of the constant that a field starts with. -/
def constantValue (pool : ConstantPool) (field : Field) : Except Fault (Option UInt16) :=
  Attribute.find pool .constantValue readIndex field.attributes

end Field

/-- A method of a class. -/
structure Method where
  accessFlags : UInt16
  name : UInt16
  descriptor : UInt16
  attributes : List Attribute
deriving DecidableEq, Repr

namespace Method

def read : Reader Fault Method := do
  let accessFlags ← readIndex
  let name ← readIndex
  let descriptor ← readIndex
  let attributes ← Reader.counted .big Attribute.read
  return { accessFlags := methodFlags accessFlags, name, descriptor, attributes }

/-- The body of a method; abstract and native methods have none. -/
def code (pool : ConstantPool) (method : Method) : Except Fault (Option Code) :=
  Attribute.find pool .code Code.read method.attributes

/-- The name of a method followed by its descriptor. -/
def signature (pool : ConstantPool) (method : Method) : Except Fault String := do
  let name ← pool.utf8 method.name
  let descriptor ← pool.utf8 method.descriptor
  return name ++ descriptor

end Method

end ClassFile

/-- A class file. -/
structure ClassFile where
  version : ClassFile.Version
  constants : ClassFile.ConstantPool
  accessFlags : UInt16
  thisClass : UInt16
  /-- Zero if there is no class above. -/
  superClass : UInt16
  interfaces : List UInt16
  fields : List ClassFile.Field
  methods : List ClassFile.Method
  attributes : List ClassFile.Attribute
deriving Repr

namespace ClassFile

/-- The number that opens a class file. -/
def magic : UInt32 := 0xCAFEBABE

/-- Reads a class file off the front of a byte string. -/
def read : Reader Fault ClassFile := do
  let opening ← Reader.word32 .big
  unless opening = magic do
    throw (Fault.badMagic opening)
  let version ← Version.read
  let constants ← ConstantPool.read
  let accessFlags ← readIndex
  let thisClass ← readIndex
  let superClass ← readIndex
  let interfaces ← Reader.counted .big readIndex
  let fields ← Reader.counted .big Field.read
  let methods ← Reader.counted .big Method.read
  let attributes ← Reader.counted .big Attribute.read
  return {
    version, constants, accessFlags := classFlags accessFlags, thisClass, superClass, interfaces,
    fields, methods, attributes }

/-- The class file that a byte string starts with. -/
def ofBytes (bytes : Bytes) : Except Fault ClassFile := do
  let (classFile, _) ← read bytes
  return classFile

/-- The name of the class. -/
def name (classFile : ClassFile) : Except Fault String :=
  classFile.constants.className classFile.thisClass

/-- The name of the class above, if there is one. -/
def superName (classFile : ClassFile) : Except Fault (Option String) :=
  if classFile.superClass = 0 then .ok none
  else (classFile.constants.className classFile.superClass).map some

/-- The name of the file that the class was compiled from, if it is given. -/
def sourceFile (classFile : ClassFile) : Except Fault (Option String) := do
  match ← Attribute.find classFile.constants .sourceFile readIndex classFile.attributes with
  | none => return none
  | some index => return some (← classFile.constants.utf8 index)

end ClassFile

end ClassImage
