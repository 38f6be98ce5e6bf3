/-!
# Searching sorted data by halving
-/

namespace ClassImage

/-- Halves the range from `low` to `high` until it is empty, keeping `holds` true before `low` and
false from `high` on. The first argument bounds the number of halvings. -/
def bisect (holds : Nat → Bool) : Nat → Nat → Nat → Nat
  | 0, low, _ => low
  | bound + 1, low, high =>
    if low < high then
      let middle := (low + high) / 2
      if holds middle then bisect holds bound (middle + 1) high
      else bisect holds bound low middle
    else low

/-- The number of indices below `n` at which `holds` is true, if it is true up to some index and
false from there on. -/
def partitionPoint (n : Nat) (holds : Nat → Bool) : Nat := bisect holds n 0 n

end ClassImage
