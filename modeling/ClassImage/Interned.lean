import Std.Data.TreeMap

/-!
# Tables of distinct values

A table holds each value once, at the index at which it was first added. Indices have 16 bits, and
the last one is reserved, so a table holds at most 65535 values. The search tree beside the entries
finds the index of a value; it is the inverse of the table.
-/

namespace ClassImage

/-- A table of distinct values with a search tree from values to indices. -/
structure Interned (α : Type) [Ord α] where
  entries : Array α
  index : Std.TreeMap α UInt16

namespace Interned

variable {α : Type} [Ord α]

/-- The greatest number of entries. -/
def capacity : Nat := 65535

/-- The table without entries. -/
def empty : Interned α := ⟨#[], ∅⟩

/-- The number of entries. -/
def size (table : Interned α) : Nat := table.entries.size

/-- The index of a value. -/
def indexOf? (table : Interned α) (a : α) : Option UInt16 := table.index[a]?

/-- The value of an index. -/
def get? (table : Interned α) (i : UInt16) : Option α := table.entries[i.toNat]?

/-- The values in the order in which they were added. -/
def toList (table : Interned α) : List α := table.entries.toList

/-- The index of a value and the table that holds it, to which the value is added if it is new.
There is no index when a new value finds the table full, and the table is then unchanged. -/
def intern (table : Interned α) (a : α) : Option UInt16 × Interned α :=
  match table with
  | ⟨entries, index⟩ =>
    match index[a]? with
    | some i => (some i, ⟨entries, index⟩)
    | none =>
      if entries.size < capacity then
        let i := UInt16.ofNat entries.size
        (some i, ⟨entries.push a, index.insert a i⟩)
      else (none, ⟨entries, index⟩)

/-- The table with its first `n` values only. -/
def truncate (table : Interned α) (n : Nat) : Interned α :=
  ⟨table.entries.take n, table.index.filter fun _ i => i.toNat < n⟩

end Interned

end ClassImage
