import ClassImage.Interned
import ClassImage.Image.Codec
import ClassImage.ClassFile.Basic
import ClassImage.Conversion.Error

/-!
# The table of class names

All images of a session number classes by one table, which only grows. A name entered before any
class is converted has a number that does not depend on the order of conversion.
-/

namespace ClassImage

open Conversion (Error)

/-- The numbers of the classes of a session. -/
structure SymbolTable where
  names : Interned String

namespace SymbolTable

/-- The table without names. -/
def empty : SymbolTable := ⟨.empty⟩

/-- The number of names. -/
def size (symbols : SymbolTable) : Nat := symbols.names.size

/-- The number of a class. -/
def lookup (symbols : SymbolTable) (name : String) : Option ClassId := symbols.names.indexOf? name

/-- The name of a class. -/
def name? (symbols : SymbolTable) (id : ClassId) : Option String := symbols.names.get? id

/-- All names in the order of their numbers. -/
def toList (symbols : SymbolTable) : List String := symbols.names.toList

/-- The number of a class, which is added if it is new. -/
def intern (symbols : SymbolTable) (name : String) : Except Error ClassId × SymbolTable :=
  match symbols.names.intern name with
  | (some id, names) => (.ok id, ⟨names⟩)
  | (none, names) => (.error (.unsupported .classLimit), ⟨names⟩)

/-- Enters names in order until one of them cannot be read or entered. -/
def internAll (symbols : SymbolTable) :
    List (Except ClassFile.Fault String) → Except Error Unit × SymbolTable
  | [] => (.ok (), symbols)
  | .error fault :: _ => (.error (.ofFault fault), symbols)
  | .ok name :: rest =>
    match symbols.intern name with
    | (.error e, symbols) => (.error e, symbols)
    | (.ok _, symbols) => symbols.internAll rest

/-- The names of the classes that a class file refers to, in order: its own, the class above, the
interfaces, and every class in the constant pool. -/
def classNames (classFile : ClassFile) : List (Except ClassFile.Fault String) :=
  let pool := classFile.constants
  let above := match classFile.superName with
    | .ok none => []
    | .ok (some name) => [.ok name]
    | .error fault => [.error fault]
  classFile.name :: above ++ classFile.interfaces.map pool.className ++
    pool.toList.filterMap fun (_, constant) =>
      match constant with
      | .classRef name => some (pool.utf8 name)
      | _ => none

/-- Enters every class that a class file refers to. -/
def prepopulate (symbols : SymbolTable) (classFile : ClassFile) : Except Error Unit × SymbolTable :=
  symbols.internAll (classNames classFile)

/-- The bytes that open a written table. -/
def magic : Bytes := [0x54, 0x53, 0x59, 0x4D]

/-- Writes the table: the names in order. -/
def write (symbols : SymbolTable) : Writer Unit := do
  Writer.bytes magic
  Writer.counted Image.writeText symbols.toList

/-- The bytes of the table. -/
def toBytes (symbols : SymbolTable) : Except StreamFault Bytes := symbols.write.toBytes

end SymbolTable

end ClassImage
