import LRMachine.Run

/-!
# Specializations

A grammar may read a raw token as more specific terms, a keyword among the identifiers for instance.
An entry of kind `replace` takes the place of the raw term; an entry of kind `extend` is tried
before it. The table is a sequence of runs `raw, (refined, kind)*, endMark`.

`Specializations.runs` reads the table with all checks. `Specializations.entries` finds the entries
of one raw term by a plain scan of the cells, which is right on tables that `runs` accepts.
-/

namespace LRMachine

/-- Whether the raw term stays valid beside a refined one. -/
inductive SpecializationKind where
  | replace
  | extend
deriving DecidableEq, Repr

namespace SpecializationKind

/-- The cell of a kind. -/
def toCell : SpecializationKind → UInt16
  | replace => 0
  | extend => 1

/-- The kind of a cell. -/
def ofCell (cell : UInt16) : Except Error SpecializationKind :=
  if cell = 0 then .ok replace
  else if cell = 1 then .ok extend
  else .error (.invalidSpecializationKind cell)

/-- The kind of a cell that has been checked. -/
def ofCheckedCell (cell : UInt16) : SpecializationKind := if cell = 1 then extend else replace

theorem ofCell_toCell (k : SpecializationKind) : ofCell k.toCell = .ok k := by cases k <;> rfl

end SpecializationKind

/-- A term that a raw token can be read as. -/
structure Specialization where
  term : Term
  kind : SpecializationKind
deriving DecidableEq, Repr

namespace Specializations

/-! ## The checked reading -/

/-- Refuses the terms that every grammar shares. -/
def checkTerm (t : Term) : Except Error Unit :=
  if t.isReserved then .error (.reservedTerm .specializations t) else .ok ()

/-- Reads the kind that follows a refined term. -/
def checkedEntry (refined : Term) : CellReader SpecializationKind := do
  let c ← get
  if c.remaining = 0 then throw (.oddCells c.table (c.position - 1))
  else
    CellReader.check (checkTerm refined)
    let cell ← CellReader.nextValue
    CellReader.check (SpecializationKind.ofCell cell)

/-- Reads the raw term that opens a run. -/
def checkedRaw : CellReader Term := do
  let raw ← CellReader.nextValue
  CellReader.check (checkTerm raw)
  CellReader.setOwner raw.toNat
  pure raw

/-- Reads runs as long as cells are left; `n` bounds their number. -/
def readRuns : Nat → Cells → Except Error (List (Term × List Specialization))
  | 0, _ => .ok []
  | n + 1, c =>
    if c.remaining = 0 then .ok []
    else
      match checkedRaw c with
      | .error e _ => .error e
      | .ok raw c =>
        let run := Run.ofCells checkedEntry c
        match run.ending with
        | .error e => .error e
        | .ok c =>
          (readRuns n c).map fun runs =>
            (raw, run.entries.map fun (term, kind) => ⟨term, kind⟩) :: runs

/-- The runs of a table. -/
def runs (cells : Array UInt16) : Except Error (List (Term × List Specialization)) :=
  readRuns cells.size ⟨cells, 0, .specializations, 0⟩

/-- Checks a table. -/
def check (cells : Array UInt16) : Except Error Unit := (runs cells).map fun _ => ()

/-! ## The plain scan -/

/-- The entries up to the end mark. -/
def takeEntries : List UInt16 → List Specialization
  | term :: kind :: rest =>
    if term = endMark then [] else ⟨term, .ofCheckedCell kind⟩ :: takeEntries rest
  | _ => []

mutual

/-- The entries of the first run that belongs to a raw term, from the opening of a run on. -/
def scan (raw : Term) : List UInt16 → List Specialization
  | [] => []
  | key :: rest => if key = raw then takeEntries rest else skip raw rest

/-- As `scan`, from inside a run of another raw term on. -/
def skip (raw : Term) : List UInt16 → List Specialization
  | term :: kind :: rest => if term = endMark then scan raw (kind :: rest) else skip raw rest
  | _ => []

end

/-- The terms that a raw term can be read as, in table order. -/
def entries (cells : Array UInt16) (raw : Term) : List Specialization := scan raw cells.toList

/-- The first of the `entries`. -/
def first? (cells : Array UInt16) (raw : Term) : Option Specialization :=
  (entries cells raw).head?

/-! ## The written form -/

/-- The cells of a run. -/
def runCells (run : Term × List Specialization) : List UInt16 :=
  run.1 :: run.2.flatMap (fun s => [s.term, s.kind.toCell]) ++ [endMark]

end Specializations

end LRMachine
