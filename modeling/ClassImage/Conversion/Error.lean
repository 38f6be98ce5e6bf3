import ClassImage.Body.Instruction
import ClassImage.ClassFile.Fault

/-!
# Why a conversion fails

One constructor per cause; the wording is in the two `message` functions. A diagnostic says in which
class and, where it applies, in which method an error arose.
-/

namespace ClassImage.Conversion

/-- The tables of a class image that can overflow. -/
inductive TableName where
  | name
  | constant
  | member
deriving DecidableEq, Repr

def TableName.text : TableName → String
  | name => "name"
  | constant => "constant"
  | member => "member"

/-- The constants that can be loaded in a class file but not by the target machine. -/
inductive ForeignConstant where
  | methodHandle
  | methodType
  | dynamic
deriving DecidableEq, Repr

def ForeignConstant.text : ForeignConstant → String
  | methodHandle => "method handle"
  | methodType => "method type"
  | dynamic => "dynamic constant"

/-- What the target machine has no place for. -/
inductive Unsupported where
  | subroutine (name : String) (offset : Nat)
  | dynamicCall (offset : Nat)
  | loading (index : UInt16) (kind : ForeignConstant)
  | localVar (slot : UInt16)
  | bodyLength (length : Nat)
  | shortRegister (reg : Body.Register) (insn : Body.Instruction)
  | parameterCount (count : Nat)
  | parameterKind (index : Nat) (insn : Body.Instruction)
  | operands (insn : Body.Instruction) (format : Image.Format)
  | tableOverflow (table : TableName)
  | classLimit
deriving DecidableEq, Repr

/-- The text that describes what is not supported. -/
def Unsupported.message : Unsupported → String
  | subroutine name offset => s!"subroutine instruction `{name}` at offset {offset}"
  | dynamicCall offset => s!"invokedynamic at offset {offset}"
  | loading index kind => s!"loading constant #{index.toNat} ({kind.text})"
  | localVar slot => s!"local {slot.toNat} does not fit in a register"
  | bodyLength length => s!"method body of {length} bytes (at most 65535 are addressable)"
  | shortRegister reg insn =>
    s!"register {reg.text} in the short register field of `{insn.text}`"
  | parameterCount count => s!"switch with {count} parameters"
  | parameterKind index insn => s!"parameter {index} of `{insn.text}` has the wrong kind"
  | operands insn format =>
    s!"`{insn.text}` does not have the operands of a {format.name} instruction"
  | tableOverflow table => s!"{table.text} table overflow"
  | classLimit => "more than 65535 classes"

/-- Why a class or a method cannot be converted. -/
inductive Error where
  | malformed (fault : ClassFile.Fault)
  /-- The jump of the instruction at an offset of the class file's code does not land on an
  instruction. -/
  | branchTarget (offset : Nat) (target : Int)
  /-- A reference to an instruction that does not exist. References of handlers come from one past
  the last instruction. -/
  | missingInstruction (position target : Nat)
  /-- A displacement in the instruction at an offset of the encoded code does not fit its field. -/
  | displacement (offset : Nat) (amount : Int) (bits : Nat)
  | unsupported (construct : Unsupported)
  | writeFailure (fault : StreamFault)
deriving DecidableEq, Repr

/-- The coarse classification of errors. -/
inductive ErrorKind where
  | malformedBytecode
  | invalidBranchTarget
  | displacementOverflow
  | unsupportedConstruct
  | writeFailure
deriving DecidableEq, Repr

namespace Error

/-- The text that describes the error. -/
def message : Error → String
  | malformed fault => "malformed bytecode: " ++ fault.message
  | branchTarget offset target =>
    s!"branch at offset {offset} targets offset {target}, which is not an instruction"
  | missingInstruction position target =>
    s!"instruction {position} refers to missing instruction {target}"
  | displacement offset amount bits =>
    s!"displacement {amount} at offset {offset} does not fit in {bits} bits"
  | unsupported construct => "unsupported: " ++ construct.message
  | writeFailure fault => "failed to write output: " ++ fault.message

def kind : Error → ErrorKind
  | malformed _ => .malformedBytecode
  | branchTarget .. | missingInstruction .. => .invalidBranchTarget
  | displacement .. => .displacementOverflow
  | unsupported _ => .unsupportedConstruct
  | writeFailure _ => .writeFailure

/-- Whether the error makes the whole class fail and not only a method of it. -/
def isClassFatal : Error → Bool
  | writeFailure _ => true
  | _ => false

/-- A fault of the class file as an error of the conversion. -/
def ofFault : ClassFile.Fault → Error
  | .branchOutside offset target => branchTarget offset target
  | fault => malformed fault

end Error

/-- An error and where it arose. -/
structure Diagnostic where
  /-- The name of the class, or a description if it could not be read. -/
  className : String
  /-- The name of the method followed by its descriptor; none if the class as a whole failed. -/
  method : Option String
  error : Error
deriving DecidableEq, Repr

/-- The printed form of a diagnostic. -/
def Diagnostic.text (diagnostic : Diagnostic) : String :=
  match diagnostic.method with
  | some method => diagnostic.className ++ "." ++ method ++ ": " ++ diagnostic.error.message
  | none => diagnostic.className ++ ": " ++ diagnostic.error.message

end ClassImage.Conversion
