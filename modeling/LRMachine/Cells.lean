import LRMachine.Action.Word

/-!
# Reading cells

The flat tables are arrays of 16-bit cells. A `Cells` is a place in such an array, with the table
and the owner that an error names, and a `CellReader` reads from there on. A reader that fails keeps
the place it has come to.
-/

namespace LRMachine

/-- A place in an array of cells. -/
structure Cells where
  cells : Array UInt16
  position : Nat
  table : TableKind
  /-- The state or term that the sequence belongs to. -/
  owner : Nat
deriving DecidableEq, Repr

namespace Cells

/-- The number of cells from the place on. -/
def remaining (c : Cells) : Nat := c.cells.size - c.position

/-- The error of a sequence that the cells end before. -/
def unterminated (c : Cells) : Error := .missingTerminator c.table c.owner

end Cells

/-- A computation that reads cells. -/
abbrev CellReader := EStateM Error Cells

namespace CellReader

/-- The cell at the place, which is kept. -/
def peek : CellReader UInt16 := do
  let c ← get
  match c.cells[c.position]? with
  | some cell => pure cell
  | none => throw c.unterminated

/-- Passes one cell. -/
def advance : CellReader Unit := modify fun c => { c with position := c.position + 1 }

/-- The key of the next entry; nothing where the end mark is read. -/
def nextTerm : CellReader (Option UInt16) := do
  let cell ← peek
  advance
  pure (if cell = endMark then none else some cell)

/-- A value cell. The end mark is none and is not passed. -/
def nextValue : CellReader UInt16 := do
  let cell ← peek
  if cell = endMark then
    let c ← get
    throw (.misplacedTerminator c.table c.position)
  else
    advance
    pure cell

/-- A word stored in two value cells. -/
def nextPair : CellReader UInt32 := do
  let c ← get
  match c.remaining with
  | 0 => throw c.unterminated
  | 1 => throw (.oddCells c.table c.position)
  | _ =>
    let low ← nextValue
    let high ← nextValue
    pure (Action.join low high)

/-- Names the owner of what is read next. -/
def setOwner (owner : Nat) : CellReader Unit := modify fun c => { c with owner := owner }

/-- A check that reads nothing. -/
def check {α : Type} : Except Error α → CellReader α
  | .ok a => pure a
  | .error e => throw e

end CellReader

end LRMachine
