import ClassImage.Bytes

/-!
# Modified UTF-8

Class files store text as UTF-16 code units, each in one to three bytes. There is no four-byte
form (a supplementary character is a pair of surrogates, three bytes each), and the zero byte does
not occur: the unit zero takes the two-byte form. Reading goes in two steps: bytes to units, which
can fail, and units to characters, which cannot. A surrogate without its partner is legal in a
class file but is no character, so it is read as U+FFFD.
-/

namespace ClassImage.Text.ModifiedUtf8

/-- The six bits that a continuation byte carries. -/
def continuation? (b : UInt8) : Option UInt16 :=
  if b &&& 0xC0 = 0x80 then some (b &&& 0x3F).toUInt16 else none

/-- Reads code units and puts them in front of the reversed `done`. -/
def unitsOnto (done : List UInt16) : Bytes → Option (List UInt16)
  | [] => some done.reverse
  | a :: rest =>
    if a &&& 0x80 = 0 then
      if a = 0 then none else unitsOnto (a.toUInt16 :: done) rest
    else if a &&& 0xE0 = 0xC0 then
      match rest with
      | b :: rest =>
        match continuation? b with
        | some x => unitsOnto (((a &&& 0x1F).toUInt16 <<< 6 ||| x) :: done) rest
        | none => none
      | [] => none
    else if a &&& 0xF0 = 0xE0 then
      match rest with
      | b :: c :: rest =>
        match continuation? b, continuation? c with
        | some x, some y =>
          unitsOnto (((a &&& 0x0F).toUInt16 <<< 12 ||| x <<< 6 ||| y) :: done) rest
        | _, _ => none
      | _ => none
    else none

/-- The code units of a byte string, if it is well formed. -/
def units? (bs : Bytes) : Option (List UInt16) := unitsOnto [] bs

/-- Whether a code unit is the first half of a pair. -/
def isHighSurrogate (u : UInt16) : Bool := 0xD800 ≤ u && u < 0xDC00

/-- Whether a code unit is the second half of a pair. -/
def isLowSurrogate (u : UInt16) : Bool := 0xDC00 ≤ u && u < 0xE000

/-- The character that stands for a surrogate without its partner. -/
def replacement : Char := '�'

/-- The supplementary character of a pair of surrogates. -/
def pair (high low : UInt16) : Char :=
  Char.ofNat (0x10000 + (high.toNat - 0xD800) * 0x400 + (low.toNat - 0xDC00))

/-- Reads characters and puts them in front of the reversed `done`. -/
def charsOnto (done : List Char) : List UInt16 → List Char
  | [] => done.reverse
  | u :: rest =>
    if isHighSurrogate u then
      match rest with
      | [] => charsOnto (replacement :: done) []
      | v :: rest' =>
        if isLowSurrogate v then charsOnto (pair u v :: done) rest'
        else charsOnto (replacement :: done) (v :: rest')
    else if isLowSurrogate u then charsOnto (replacement :: done) rest
    else charsOnto (Char.ofNat u.toNat :: done) rest

/-- The characters of a list of code units. -/
def chars (us : List UInt16) : List Char := charsOnto [] us

/-- The text that a byte string stands for, if it is well formed. -/
def decode? (bs : Bytes) : Option String :=
  (units? bs).map fun us => String.ofList (chars us)

end ClassImage.Text.ModifiedUtf8
