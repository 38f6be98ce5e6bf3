import ClassImage.ClassFile.ConstantPool

/-!
# Attributes

An attribute is a name and a byte string. It is parsed only where its content is wanted, and then
its bytes must be used up exactly: bytes missing and bytes left over are the same fault. Attributes
are searched in order, and a name that cannot be read ends the search.
-/

namespace ClassImage.ClassFile

/-- An attribute as it stands in the file. -/
structure Attribute where
  name : UInt16
  info : Bytes
deriving DecidableEq, Repr

/-- Reads an attribute; the length of its bytes has 32 bits. -/
def Attribute.read : Reader Fault Attribute := do
  let name ← readIndex
  let length ← Reader.word32 .big
  let info ← Reader.take length.toNat
  return { name, info }

/-- A range of code whose exceptions are caught. -/
structure ExceptionEntry where
  /-- Where the protected code starts. -/
  start : UInt16
  /-- Where the protected code ends. -/
  stop : UInt16
  /-- Where the handler starts. -/
  entry : UInt16
  /-- The class of exceptions caught; zero stands for all. -/
  catchType : UInt16
deriving DecidableEq, Repr

def ExceptionEntry.read : Reader Fault ExceptionEntry := do
  let start ← readIndex
  let stop ← readIndex
  let entry ← readIndex
  let catchType ← readIndex
  return { start, stop, entry, catchType }

/-- The line of the code from an offset on. -/
structure LineNumber where
  start : UInt16
  line : UInt16
deriving DecidableEq, Repr

def LineNumber.read : Reader Fault LineNumber := do
  let start ← readIndex
  let line ← readIndex
  return { start, line }

/-- The body of a method. -/
structure Code where
  maxStack : UInt16
  maxLocals : UInt16
  bytes : Bytes
  exceptions : List ExceptionEntry
  attributes : List Attribute
deriving DecidableEq, Repr

def Code.read : Reader Fault Code := do
  let maxStack ← readIndex
  let maxLocals ← readIndex
  let length ← Reader.word32 .big
  let bytes ← Reader.take length.toNat
  let exceptions ← Reader.counted .big ExceptionEntry.read
  let attributes ← Reader.counted .big Attribute.read
  return { maxStack, maxLocals, bytes, exceptions, attributes }

/-- Reads the lines of a line number table. -/
def readLines : Reader Fault (List LineNumber) := Reader.counted .big LineNumber.read

namespace Attribute

/-- The content of an attribute, whose bytes must be used up exactly. -/
def parse {α : Type} (name : AttributeName) (content : Reader Fault α) (attr : Attribute) :
    Except Fault α :=
  match content attr.info with
  | .ok (a, []) => .ok a
  | .ok (_, _ :: _) => .error (.malformedAttribute name)
  | .error .truncated => .error (.malformedAttribute name)
  | .error e => .error e

/-- The content of the first attribute with a name. -/
def find {α : Type} (pool : ConstantPool) (name : AttributeName) (content : Reader Fault α) :
    List Attribute → Except Fault (Option α)
  | [] => .ok none
  | attr :: rest =>
    match pool.utf8 attr.name with
    | .error e => .error e
    | .ok text =>
      if text = name.text then (attr.parse name content).map some
      else find pool name content rest

/-- The contents of all attributes with a name, put in front of the reversed `done`. -/
def collectOnto {α : Type} (pool : ConstantPool) (name : AttributeName) (content : Reader Fault α) :
    List α → List Attribute → Except Fault (List α)
  | done, [] => .ok done.reverse
  | done, attr :: rest =>
    match pool.utf8 attr.name with
    | .error e => .error e
    | .ok text =>
      if text = name.text then
        match attr.parse name content with
        | .error e => .error e
        | .ok a => collectOnto pool name content (a :: done) rest
      else collectOnto pool name content done rest

/-- The contents of all attributes with a name, in order. -/
def collect {α : Type} (pool : ConstantPool) (name : AttributeName) (content : Reader Fault α)
    (attributes : List Attribute) : Except Fault (List α) :=
  collectOnto pool name content [] attributes

end Attribute

/-- The lines of a method: the entries of all its line number tables, ordered by where they start.
Entries that start at the same offset keep their order. -/
def Code.lineNumbers (pool : ConstantPool) (code : Code) : Except Fault (List LineNumber) := do
  let tables ← Attribute.collect pool .lineNumberTable readLines code.attributes
  return tables.flatten.mergeSort fun a b => a.start ≤ b.start

end ClassImage.ClassFile
