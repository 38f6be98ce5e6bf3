import ClassImage.Conversion.Error

/-!
# Method bodies

A body is a list of instructions that fall through to the next one, with exception handlers over
ranges of positions. It is valid when every reference names an instruction; only the end of a
protected range may be one past the last.
-/

namespace ClassImage

namespace Body

/-- An exception handler over a range of instructions. -/
structure Handler where
  /-- The first protected instruction. -/
  start : Nat
  /-- One past the last protected instruction. -/
  stop : Nat
  /-- The first instruction of the handler. -/
  entry : Nat
  /-- The class of exceptions caught; all, if there is none. -/
  catchType : Option ClassId
deriving DecidableEq, Repr

/-- A handler in a listing. -/
def Handler.text (handler : Handler) : String :=
  let caught := match handler.catchType with
    | some id => s!"class {id.toNat}"
    | none => "any"
  s!"  handler [@{handler.start}, @{handler.stop}) -> @{handler.entry} catches " ++ caught

/-- The first reference of a handler that is not valid in a body of `length` instructions. -/
def Handler.badReference? (length : Nat) (handler : Handler) : Option Nat :=
  if length ≤ handler.start ∨ handler.stop < handler.start then some handler.start
  else if length < handler.stop then some handler.stop
  else if length ≤ handler.entry then some handler.entry
  else none

end Body

/-- The body of a method. -/
structure Body where
  instructions : List Body.Instruction
  handlers : List Body.Handler
  maxStack : UInt16
  maxLocals : UInt16
deriving DecidableEq, Repr

namespace Body

/-- Every reference of an instruction that is not valid in a body of `length` instructions, with the
position of the instruction. -/
def badReferences (length : Nat) (insns : List (Instruction × Nat)) : List (Nat × Nat) :=
  insns.flatMap fun (insn, position) =>
    (insn.targets.filter (length ≤ ·)).map fun target => (position, target)

/-- Checks that every reference of a body names an instruction, the instructions before the
handlers. -/
def validate (body : Body) : Except Conversion.Error Unit :=
  let length := body.instructions.length
  match badReferences length body.instructions.zipIdx with
  | (position, target) :: _ => .error (.missingInstruction position target)
  | [] =>
    match body.handlers.findSome? (Handler.badReference? length) with
    | some target => .error (.missingInstruction length target)
    | none => .ok ()

/-- The printed form of a body: the instructions with their positions and lines, then the
handlers. -/
def listing (body : Body) : String :=
  String.join (body.instructions.zipIdx.map fun (insn, position) =>
    Text.column 5 position ++ " (line " ++ Text.column 4 insn.line.toNat ++ "): " ++ insn.text ++
      "\n") ++
  String.join (body.handlers.map fun handler => handler.text ++ "\n")

end Body

end ClassImage
