import LRMachine.Cells

/-!
# Runs

A run is a sequence of entries, each a key and what belongs to it, that the end mark closes.
`Run.read` reads a run with any reader for what follows a key and keeps the entries in front of a
fault, so that a lookup and a check share one reading.
-/

namespace LRMachine

/-- What is read of a run. -/
structure Run (α : Type) where
  /-- The entries in front of the end mark or of the first fault. -/
  entries : List (UInt16 × α)
  /-- The place after the end mark, or the fault. -/
  ending : Except Error Cells

namespace Run

variable {α : Type}

/-- Reads a run that no more than `n` cells can hold; `entry` reads what follows a key. -/
def read (entry : UInt16 → CellReader α) : Nat → Cells → Run α
  | 0, c => ⟨[], .error c.unterminated⟩
  | n + 1, c =>
    match CellReader.nextTerm c with
    | .error e _ => ⟨[], .error e⟩
    | .ok none rest => ⟨[], .ok rest⟩
    | .ok (some key) rest =>
      match entry key rest with
      | .error e _ => ⟨[], .error e⟩
      | .ok value rest =>
        let run := read entry n rest
        ⟨(key, value) :: run.entries, run.ending⟩

/-- Reads the run that begins at a place. -/
def ofCells (entry : UInt16 → CellReader α) (c : Cells) : Run α := read entry c.remaining c

/-- The keys of a run that is closed. -/
def keys (r : Run α) : Except Error (List UInt16) := r.ending.map fun _ => r.entries.map Prod.fst

/-- The first value under a key. A fault counts only if no entry in front of it has the key. -/
def find (r : Run α) (key : UInt16) : Except Error (Option α) :=
  match r.entries.lookup key with
  | some value => .ok (some value)
  | none => r.ending.map fun _ => none

end Run

end LRMachine
