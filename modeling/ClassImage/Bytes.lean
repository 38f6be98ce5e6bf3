/-!
# Byte strings, readers and sinks

Both file formats of this library are read by functions that take a value off the front of a
byte string and hand back what is left, and written by functions that push bytes into a sink.
A reader fails with an error of the format it belongs to; the one error that every format must
be able to report is that the bytes ran out.

Numbers are digits in base 256. `ofDigits` and `digits` treat the least significant digit first;
the two byte orders are that and its reverse.
-/

namespace ClassImage

/-- A byte string. -/
abbrev Bytes := List UInt8

/-! ### Numbers as bytes -/

/-- The number whose base 256 digits are the given bytes, least significant first. -/
def ofDigits : Bytes → Nat
  | [] => 0
  | b :: bs => b.toNat + 256 * ofDigits bs

/-- The lowest `width` base 256 digits of a number, least significant first. -/
def digits : Nat → Nat → Bytes
  | 0, _ => []
  | width + 1, n => UInt8.ofNat n :: digits width (n / 256)

/-- Which end of a number comes first. -/
inductive ByteOrder where
  | big
  | little
deriving DecidableEq, Repr

/-- The number that a byte string stands for. -/
def ByteOrder.toNat : ByteOrder → Bytes → Nat
  | .little, bs => ofDigits bs
  | .big, bs => ofDigits bs.reverse

/-- The lowest `width` bytes of a number. -/
def ByteOrder.bytes : ByteOrder → Nat → Nat → Bytes
  | .little, width, n => digits width n
  | .big, width, n => (digits width n).reverse

/-! ### Readers -/

/-- Errors that can report that the input ended too early. -/
class EndOfInput (ε : Type) where
  endOfInput : ε

/-- The error of a reader that can only run out of input. -/
inductive Ended where
  | ended
deriving DecidableEq, Repr

instance : EndOfInput Ended := ⟨.ended⟩

/-- Takes a value off the front of a byte string, or fails. -/
abbrev Reader (ε : Type) := StateT Bytes (Except ε)

namespace Reader

variable {ε α : Type}

/-- The same reader with its errors renamed. -/
def mapError {ε' : Type} (f : ε → ε') (reader : Reader ε α) : Reader ε' α := fun bs =>
  match reader bs with
  | .ok result => .ok result
  | .error e => .error (f e)

/-- The next byte. -/
def byte [EndOfInput ε] : Reader ε UInt8
  | [] => .error EndOfInput.endOfInput
  | b :: rest => .ok (b, rest)

/-- The next `n` bytes. -/
def take [EndOfInput ε] (n : Nat) : Reader ε Bytes := fun bs =>
  let front := bs.take n
  if front.length = n then .ok (front, bs.drop n) else .error EndOfInput.endOfInput

/-- A number of `width` bytes. -/
def nat [EndOfInput ε] (order : ByteOrder) (width : Nat) : Reader ε Nat := do
  let bs ← take width
  return order.toNat bs

/-- A 16-bit number. -/
def word16 [EndOfInput ε] (order : ByteOrder) : Reader ε UInt16 := do
  return UInt16.ofNat (← nat order 2)

/-- A 32-bit number. -/
def word32 [EndOfInput ε] (order : ByteOrder) : Reader ε UInt32 := do
  return UInt32.ofNat (← nat order 4)

/-- A 64-bit number. -/
def word64 [EndOfInput ε] (order : ByteOrder) : Reader ε UInt64 := do
  return UInt64.ofNat (← nat order 8)

/-- Reads `n` values one after the other and puts them in front of the reversed `done`. -/
def repeatOnto (item : Reader ε α) : Nat → List α → Reader ε (List α)
  | 0, done, bs => .ok (done.reverse, bs)
  | n + 1, done, bs =>
    match item bs with
    | .error e => .error e
    | .ok (a, rest) => repeatOnto item n (a :: done) rest

/-- Reads `n` values one after the other. -/
def exactly (n : Nat) (item : Reader ε α) : Reader ε (List α) :=
  repeatOnto item n []

/-- A 16-bit count followed by that many values. -/
def counted [EndOfInput ε] (order : ByteOrder) (item : Reader ε α) : Reader ε (List α) := do
  let n ← word16 order
  exactly n.toNat item

/-- Cuts a byte string into consecutive items, each paired with the offset at which it starts.
`item` is told the offset and returns the item with its length. The first argument bounds the
number of items; the length of the input is enough, because an item is at least one byte long. -/
def cutOnto (item : Nat → Reader ε (α × Nat)) :
    Nat → Nat → List (Nat × α) → Bytes → Except ε (List (Nat × α))
  | _, _, done, [] => .ok done.reverse
  | 0, _, done, _ :: _ => .ok done.reverse
  | bound + 1, offset, done, b :: bs =>
    match item offset (b :: bs) with
    | .error e => .error e
    | .ok ((a, size), rest) => cutOnto item bound (offset + size) ((offset, a) :: done) rest

/-- Cuts a whole byte string into consecutive items with their offsets. -/
def cut (item : Nat → Reader ε (α × Nat)) (bs : Bytes) : Except ε (List (Nat × α)) :=
  cutOnto item bs.length 0 [] bs

end Reader

end ClassImage
