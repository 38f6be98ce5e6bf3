/-!
# Settings of a conversion
-/

namespace ClassImage.Conversion

/-- What a conversion may leave out or shorten. -/
structure Settings where
  /-- Drop the instructions that do nothing. -/
  dropNops : Bool := false
  /-- Push an int constant that fits the short immediate with the short instruction. -/
  foldConstants : Bool := true
  /-- Keep tables of line numbers. -/
  lineNumbers : Bool := true
deriving DecidableEq, Repr

end ClassImage.Conversion
