import ClassImage.Body.Basic
import ClassImage.ClassFile.Basic

/-!
# Events

What a conversion reports on its way, for a log. An event holds the data it tells of; its text is
made only when somebody asks for it.
-/

namespace ClassImage.Conversion

/-- What a conversion reports on its way. -/
inductive Event where
  | convertingClass (name : String) (version : ClassFile.Version)
  | convertingMethod (className signature : String)
  | nopsDropped (count : Nat)
  | lowered (className : String) (body : Body)
  | assembled (instructions records bytes : Nat)
  | failed (diagnostic : Diagnostic)
deriving Repr

/-- How much an event matters. -/
inductive EventLevel where
  | warn
  | debug
  | trace
deriving DecidableEq, Repr

namespace Event

def level : Event → EventLevel
  | convertingClass .. | convertingMethod .. => .debug
  | nopsDropped _ | lowered .. | assembled .. => .trace
  | failed _ => .warn

/-- The text that describes the event. -/
def text : Event → String
  | convertingClass name version =>
    "converting " ++ name ++ " (class file version " ++ version.text ++ ")"
  | convertingMethod className signature => "converting method " ++ className ++ "." ++ signature
  | nopsDropped count => s!"eliminated {count} nops"
  | lowered className body => "IR of " ++ className ++ ":\n" ++ body.listing
  | assembled instructions records bytes =>
    s!"emitted {instructions} instructions as {records} records ({bytes} bytes)"
  | failed diagnostic => diagnostic.text

end Event

end ClassImage.Conversion
