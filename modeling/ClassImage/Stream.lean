import ClassImage.Bytes

/-!
# Byte streams: what can go wrong, and sinks

A sink takes bytes until its room is used up. A write that no longer fits leaves in the sink what
did fit and fails, so after a failure the sink holds a leading part of what was written to it.
-/

namespace ClassImage

/-- What can go wrong while bytes are read from or written to a stream. -/
inductive StreamFault where
  /-- The input ended inside a value. -/
  | endOfInput
  /-- The input ended inside the code of a method. -/
  | endOfCode
  | badHeader
  | unknownTag
  | badName
  /-- A sequence is too long for its 16-bit count. -/
  | tooLong (length : Nat)
  /-- The sink takes no more bytes. -/
  | sinkFull
  /-- Reported by the stream itself: whether the input ended early, and a text. -/
  | reported (ended : Bool) (text : String)
deriving DecidableEq, Repr

namespace StreamFault

instance : EndOfInput StreamFault := ⟨endOfInput⟩

/-- The text that describes the fault. -/
def message : StreamFault → String
  | endOfInput => "failed to fill whole buffer"
  | endOfCode => "unexpected end of file"
  | badHeader => "bad tiny class header"
  | unknownTag => "unknown constant tag"
  | badName => "name is not UTF-8"
  | tooLong length => s!"sequence of length {length} does not fit a u16 prefix"
  | sinkFull => "failed to write whole buffer"
  | reported _ text => text

/-- Whether the fault says that the input ended too early. -/
def isEndOfInput : StreamFault → Bool
  | endOfInput | endOfCode => true
  | reported ended _ => ended
  | _ => false

end StreamFault

/-- Takes bytes until its room is used up. -/
structure Sink where
  /-- How many more bytes fit, if there is a limit. -/
  room : Option Nat
  /-- The bytes taken so far. -/
  taken : Array UInt8
deriving Repr

namespace Sink

/-- An empty sink without a limit. -/
def unlimited : Sink := ⟨none, #[]⟩

/-- An empty sink that takes `n` bytes in all. -/
def limited (n : Nat) : Sink := ⟨some n, #[]⟩

/-- The bytes taken so far. -/
def bytes (sink : Sink) : Bytes := sink.taken.toList

end Sink

/-- Writes to a sink. What was written before a failure stays in the sink. -/
abbrev Writer := ExceptT StreamFault (StateM Sink)

namespace Writer

/-- Writes a byte string. -/
def bytes (bs : Bytes) : Writer Unit := fun sink =>
  match sink.room with
  | none => (.ok (), { sink with taken := sink.taken.appendList bs })
  | some room =>
    let front := bs.take room
    let sink' := ⟨some (room - front.length), sink.taken.appendList front⟩
    if bs.length ≤ room then (.ok (), sink') else (.error .sinkFull, sink')

/-- Writes a number of `width` bytes, least significant first. -/
def nat (width n : Nat) : Writer Unit :=
  bytes (ByteOrder.little.bytes width n)

/-- Writes one byte. -/
def byte (b : UInt8) : Writer Unit := nat 1 b.toNat

/-- Writes a 16-bit number. -/
def word16 (w : UInt16) : Writer Unit := nat 2 w.toNat

/-- Writes a 32-bit number. -/
def word32 (w : UInt32) : Writer Unit := nat 4 w.toNat

/-- Writes a 64-bit number. -/
def word64 (w : UInt64) : Writer Unit := nat 8 w.toNat

/-- Writes the 16-bit count of a sequence. -/
def count (length : Nat) : Writer Unit :=
  if length ≤ 0xFFFF then word16 (UInt16.ofNat length) else throw (.tooLong length)

/-- Writes the count of a list and then its elements. -/
def counted {α : Type} (item : α → Writer Unit) (as : List α) : Writer Unit := do
  count as.length
  as.forM item

/-- Everything a writer writes when nothing limits the sink. -/
def toBytes (w : Writer Unit) : Except StreamFault Bytes :=
  match w.run.run Sink.unlimited with
  | (.ok (), sink) => .ok sink.bytes
  | (.error e, _) => .error e

end Writer

end ClassImage
