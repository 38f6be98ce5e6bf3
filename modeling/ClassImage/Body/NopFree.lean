import ClassImage.Body.Basic

/-!
# Dropping instructions that do nothing

`Body.withoutNops` drops the `nop`s of a body. A reference to a dropped instruction moves to the
next one that is left. In the run of `nop`s at the end of a body there is no such instruction, so
the last one of them that is referred to stays. Handlers that protect nothing any more are dropped
as well.
-/

namespace ClassImage.Body

/-- Whether an instruction does nothing. -/
def Instruction.isNop (insn : Instruction) : Bool := insn.opcode == .plain .nop

/-- The positions that a body refers to: jump targets, starts of protected ranges and entries of
handlers. The end of a protected range is not a reference. -/
def references (body : Body) : List Nat :=
  body.instructions.flatMap Instruction.targets ++
    body.handlers.flatMap fun handler => [handler.start, handler.entry]

/-- For each position below `length`, whether it is in a list. -/
def marks (length : Nat) (positions : List Nat) : Array Bool :=
  positions.foldl (fun flags position => flags.setIfInBounds position true)
    (Array.replicate length false)

/-- Decides from the back which instructions stay: those that do something, and a `nop` that is
referred to when nothing after it stays. `kept` is what was decided for the instructions that
follow, and `survivor` says whether one of them stays. -/
def keepOnto (survivor : Bool) (kept : List Bool) : List (Instruction × Bool) → List Bool
  | [] => kept
  | (insn, referenced) :: before =>
    let stays := !insn.isNop || (referenced && !survivor)
    keepOnto (survivor || stays) (stays :: kept) before

/-- For each instruction of a body, whether it stays. -/
def keep (body : Body) : List Bool :=
  let flags := marks body.instructions.length body.references
  keepOnto false [] (body.instructions.zip flags.toList).reverse

/-- The number of `true`s before each position, and at the end the number of all. -/
def ranks (kept : List Bool) : Array Nat :=
  let (table, total) := kept.foldl
    (fun (table, count) stays => (table.push count, if stays then count + 1 else count))
    ((#[] : Array Nat), 0)
  table.push total

/-- Where a position of the body moves: to the number of instructions that stay before it. -/
def rank (table : Array Nat) (position : Nat) : Nat :=
  table[min position (table.size - 1)]?.getD 0

/-- Renames the positions of a handler. -/
def Handler.mapPositions (f : Nat → Nat) (handler : Handler) : Handler :=
  { handler with start := f handler.start, stop := f handler.stop, entry := f handler.entry }

/-- The body without the instructions that do nothing. -/
def withoutNops (body : Body) : Body :=
  let kept := body.keep
  let move := rank (ranks kept)
  { body with
    instructions := (body.instructions.zip kept).filterMap fun (insn, stays) =>
      if stays then some (insn.mapTargets move) else none
    handlers := (body.handlers.map (Handler.mapPositions move)).filter fun handler =>
      handler.start < handler.stop }

end ClassImage.Body
