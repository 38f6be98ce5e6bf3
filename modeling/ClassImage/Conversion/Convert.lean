import ClassImage.Body.Assembly
import ClassImage.Body.NopFree
import ClassImage.Conversion.Lowering

/-!
# Converting classes

A class file becomes an image. A method that cannot be converted is left out: a diagnostic tells
why, and the tables of the class forget what the method entered. Problems of the class as a whole
leave no image; then only diagnostics are returned, the last of which is about the class.
-/

namespace ClassImage.Conversion

open ClassFile (ConstantPool)

/-- The constant that a field starts with. -/
def fieldConstant (constants : ConstantPool) (index : UInt16) : Convert Image.Constant := do
  match ← ofFile (constants.get index) with
  | .integer value => return .int value
  | .float bits => return .float bits
  | .long value => return .long value
  | .double bits => return .double bits
  | .string text => return .string (← internName (← ofFile (constants.utf8 text)))
  | _ => throw (.malformed (.wrongKind index .fieldConstant))

/-- Converts a field: its constant, its name and its descriptor, in this order. -/
def convertField (constants : ConstantPool) (field : ClassFile.Field) : Convert Image.Field := do
  let constantValue ← (← ofFile (field.constantValue constants)).mapM fun index => do
    internConstant (← fieldConstant constants index)
  let name ← internName (← ofFile (constants.utf8 field.name))
  let descriptor ← internName (← ofFile (constants.utf8 field.descriptor))
  return { accessFlags := field.accessFlags, name, descriptor, constantValue }

/-- Converts the code of a method. -/
def convertCode (settings : Settings) (constants : ConstantPool) (className : String)
    (code : ClassFile.Code) : Convert (Body × Body.Assembly) := do
  let lowered ← lower settings constants code
  let body ←
    if settings.dropNops then do
      let body := lowered.withoutNops
      report (.nopsDropped (lowered.instructions.length - body.instructions.length))
      pure body
    else pure lowered
  report (.lowered className body)
  let assembly ← body.assemble settings
  report (.assembled body.instructions.length assembly.records.length assembly.code.length)
  return (body, assembly)

/-- Converts a method. -/
def convertMethod (settings : Settings) (constants : ConstantPool) (className : String)
    (method : ClassFile.Method) : Convert Image.Method := do
  let name ← internName (← ofFile (constants.utf8 method.name))
  let descriptor ← internName (← ofFile (constants.utf8 method.descriptor))
  let accessFlags := method.accessFlags
  match ← ofFile (method.code constants) with
  | none =>
    return {
      accessFlags, name, descriptor, maxStack := 0, maxLocals := 0, code := [], lines := [],
      handlers := [] }
  | some code =>
    let (body, assembly) ← convertCode settings constants className code
    return {
      accessFlags, name, descriptor, maxStack := body.maxStack, maxLocals := body.maxLocals,
      code := assembly.code, lines := assembly.lines, handlers := assembly.handlers }

/-- Remembers that something was left out. -/
def leaveOut (diagnostic : Diagnostic) : Convert Unit := do
  report (.failed diagnostic)
  modify fun work => { work with diagnostics := work.diagnostics.push diagnostic }

/-- Converts a method, or leaves it out and forgets what it entered. -/
def convertOrSkip (settings : Settings) (constants : ConstantPool) (className : String)
    (method : ClassFile.Method) : Convert (Option Image.Method) := do
  let signature ← ofFile (method.signature constants)
  report (.convertingMethod className signature)
  let mark := (← get).pool.checkpoint
  try
    return some (← convertMethod settings constants className method)
  catch error =>
    if error.isClassFatal then throw error
    modify fun work => { work with pool := work.pool.rollback mark }
    leaveOut { className, method := some signature, error }
    return none

/-- Converts a class of a given name. -/
def convertFile (settings : Settings) (className : String) (classFile : ClassFile) :
    Convert Image := do
  let constants := classFile.constants
  let thisClass ← internClass className
  let superClass ← (← ofFile classFile.superName).mapM internClass
  let interfaces ← classFile.interfaces.mapM fun index => do
    internClass (← ofFile (constants.className index))
  let sourceFile ← (← ofFile classFile.sourceFile).mapM internName
  let fields ← classFile.fields.mapM (convertField constants)
  let methods ← classFile.methods.mapM (convertOrSkip settings constants className)
  let pool := (← get).pool
  return {
    accessFlags := classFile.accessFlags, thisClass, superClass, sourceFile, interfaces,
    names := pool.names.toList, constants := pool.constants.toList,
    members := pool.members.toList, fields, methods := methods.reduceOption }

/-- What a conversion leaves behind. -/
structure Outcome (α : Type) where
  /-- What was asked for, or the diagnostics that tell why there is none. -/
  result : Except (List Diagnostic) α
  symbols : SymbolTable
  events : List Event

/-- The outcome of a class that could not be looked into. -/
def Outcome.unreadable {α : Type} (symbols : SymbolTable) (description : String)
    (fault : ClassFile.Fault) : Outcome α :=
  ⟨.error [{ className := description, method := none, error := .ofFault fault }], symbols, []⟩

/-- Converts a class file into an image, with the name of the class and the diagnostics of the
methods that were left out. -/
def toImage (settings : Settings) (symbols : SymbolTable) (bytes : Bytes) :
    Outcome (String × Image × List Diagnostic) :=
  match ClassFile.ofBytes bytes with
  | .error fault => .unreadable symbols "<unreadable class>" fault
  | .ok classFile =>
    match classFile.name with
    | .error fault => .unreadable symbols "<unnamed class>" fault
    | .ok className =>
      let steps : Convert Image := do
        report (.convertingClass className classFile.version)
        try convertFile settings className classFile
        catch error =>
          leaveOut { className, method := none, error }
          throw error
      match steps.run.run (.start symbols) with
      | (.ok image, work) =>
        ⟨.ok (className, image, work.diagnostics.toList), work.symbols, work.events.toList⟩
      | (.error _, work) =>
        ⟨.error work.diagnostics.toList, work.symbols, work.events.toList⟩

/-- Converts a class file and writes the image into a sink. The result holds the diagnostics of the
methods that were left out. -/
def convertInto (settings : Settings) (symbols : SymbolTable) (bytes : Bytes) (sink : Sink) :
    Outcome (List Diagnostic) × Sink :=
  match toImage settings symbols bytes with
  | ⟨.error diagnostics, symbols, events⟩ => (⟨.error diagnostics, symbols, events⟩, sink)
  | ⟨.ok (className, image, diagnostics), symbols, events⟩ =>
    match image.write.run.run sink with
    | (.ok (), sink) => (⟨.ok diagnostics, symbols, events⟩, sink)
    | (.error fault, sink) =>
      let diagnostic : Diagnostic :=
        { className, method := none, error := .writeFailure fault }
      (⟨.error (diagnostics ++ [diagnostic]), symbols, events ++ [.failed diagnostic]⟩, sink)

/-- Converts a class file. The result holds the bytes of the image and the diagnostics of the
methods that were left out. -/
def convertClass (settings : Settings) (symbols : SymbolTable) (bytes : Bytes) :
    Outcome (Bytes × List Diagnostic) :=
  let (outcome, sink) := convertInto settings symbols bytes .unlimited
  { outcome with result := outcome.result.map fun diagnostics => (sink.bytes, diagnostics) }

end ClassImage.Conversion

namespace ClassImage

/-- Converts a single class file by the default settings and with a symbol table of its own. -/
def convert (bytes : Bytes) :
    Except (List Conversion.Diagnostic) (Bytes × List Conversion.Diagnostic) :=
  (Conversion.convertClass {} .empty bytes).result

end ClassImage
