import ClassImage.Search

/-!
# Layouts

A layout is a growing sequence of entries, each addressed by the sum of the widths of the entries
before it. Constant pools are laid out like this, with indices from 1 and two slots for the wide
constants, and so is encoded code, where each kind of record has its own length.

Offsets are numbers of 64 bits. `push`, which adds an entry to a layout, lets an end beyond them
wrap around; `ofList` counts on, for the instructions of a body and the records of code, whose
offsets never come near that end.
-/

namespace ClassImage

/-- Entries that take up room in a layout. -/
class Width (α : Type) where
  width : α → Nat

export Width (width)

/-- Entries addressed by the widths before them. -/
structure Layout (α : Type) where
  entries : Array α
  /-- Where each entry starts. -/
  offsets : Array Nat
  /-- Where the next entry will start. -/
  stop : Nat
deriving Repr

/-- What stands at an offset of a layout. -/
inductive Lookup (α : Type) where
  /-- The entry of this index starts at the offset. -/
  | found (index : Nat) (entry : α)
  /-- The offset lies inside the entry of this index. -/
  | inside (index : Nat)
  /-- The offset lies before the first entry or not before the end. -/
  | outside
deriving DecidableEq, Repr

/-- The entry that starts at the offset, if one does. -/
def Lookup.found? {α : Type} : Lookup α → Option α
  | found _ entry => some entry
  | inside _ | outside => none

namespace Layout

variable {α : Type}

/-- The layout without entries that starts at an offset. -/
def startingAt (start : Nat) : Layout α := ⟨#[], #[], start⟩

/-- The number of entries. -/
def size (layout : Layout α) : Nat := layout.entries.size

/-- Adds an entry at the end, however far the end moves. -/
def extend [Width α] (layout : Layout α) (entry : α) : Layout α :=
  ⟨layout.entries.push entry, layout.offsets.push layout.stop, layout.stop + width entry⟩

/-- Adds an entry at the end. An end that is no 64-bit number wraps around. -/
def push [Width α] (layout : Layout α) (entry : α) : Layout α :=
  { layout.extend entry with stop := (layout.stop + width entry) % UInt64.size }

/-- Adds an entry at the end and tells where it starts. -/
def place [Width α] (layout : Layout α) (entry : α) : Nat × Layout α :=
  (layout.stop, layout.push entry)

/-- The layout of a list of entries. -/
def ofList [Width α] (start : Nat) (entries : List α) : Layout α :=
  entries.foldl extend (startingAt start)

/-- The entry of an index with its offset. -/
def get? (layout : Layout α) (index : Nat) : Option (Nat × α) := do
  return (← layout.offsets[index]?, ← layout.entries[index]?)

/-- The entries with their offsets, in order. -/
def toList (layout : Layout α) : List (Nat × α) :=
  layout.offsets.toList.zip layout.entries.toList

/-- What stands at an offset. -/
def lookup (layout : Layout α) (offset : Nat) : Lookup α :=
  if layout.stop ≤ offset then .outside
  else
    let before := partitionPoint layout.offsets.size fun i =>
      match layout.offsets[i]? with
      | some start => start < offset
      | none => false
    match layout.get? before with
    | some (start, entry) =>
      if start = offset then .found before entry
      else if before = 0 then .outside
      else .inside (before - 1)
    | none => if before = 0 then .outside else .inside (before - 1)

/-- The printed form of a layout: each entry as a quoted text after its offset. -/
def text (entryText : α → String) (layout : Layout α) : String :=
  "[" ++ ", ".intercalate (layout.toList.map fun (offset, entry) =>
    "\"" ++ s!"@{offset} " ++ entryText entry ++ "\"") ++ "]"

/-- Two layouts are equal when they hold the same entries at the same offsets. -/
instance [BEq α] : BEq (Layout α) where
  beq a b := a.offsets == b.offsets && a.entries == b.entries

end Layout

end ClassImage
