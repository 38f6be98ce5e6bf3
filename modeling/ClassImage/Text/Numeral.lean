/-!
# Numbers in messages and listings
-/

namespace ClassImage.Text

/-- Puts copies of `fill` in front of a text until it has at least `width` characters. -/
def padLeft (width : Nat) (fill : Char) (text : String) : String :=
  String.ofList (List.replicate (width - text.length) fill) ++ text

/-- A number in decimal, right-aligned in a column of `width` characters. -/
def column (width n : Nat) : String := padLeft width ' ' (toString n)

/-- A number in hexadecimal with at least `width` digits, after the mark `0x`. -/
def hex (width n : Nat) : String :=
  "0x" ++ padLeft width '0' (String.ofList (Nat.toDigits 16 n))

/-- A whole number in decimal that always shows its sign; zero counts as positive. -/
def signed (n : Int) : String :=
  if n < 0 then toString n else "+" ++ toString n

end ClassImage.Text
