import LRMachine.Tables

/-!
# Checked tables

`Tables.check` holds arrays against the storage format: the specializations, the size of the state
table and the start state, and then state by state the nested grammar, the action run and the goto
run. `Tables.make` hands out tables only if the check passes, so their lookups fail only on states
that do not exist.
-/

namespace LRMachine

namespace Storage

/-- Refuses a state that has no record. -/
def checkTarget (s : Storage) (state : StateId) : Except Error Unit :=
  if state.toNat < s.stateCount then .ok () else .error (.unknownState state.toNat)

/-- Checks the action of a word: targets exist, a staying reduction pops a frame (it would be
repeated forever otherwise), and no reserved term is reduced. -/
def checkAction (s : Storage) (word : UInt32) : Except Error Unit := do
  match ← Action.decode word with
  | .shift target => s.checkTarget target
  | .push target => s.checkTarget target
  | .skip _ => .ok ()
  | .reduce r =>
    if r.stays && r.depth = 0 then .error (.malformedAction word)
    else if r.term.isReserved then .error (.reservedTerm .actions r.term)
    else .ok ()

/-- Reads the word that follows a term in an action run. -/
def checkedAction (s : Storage) (_ : Term) : CellReader UInt32 := do
  let word ← CellReader.nextPair
  CellReader.check (s.checkAction word)
  pure word

/-- Reads the target that follows a term in a goto run. -/
def checkedGoto (s : Storage) (term : Term) : CellReader StateId := do
  if term.isReserved then throw (.reservedTerm .gotos term)
  else
    let target ← CellReader.nextValue
    CellReader.check (s.checkTarget target)
    pure target

/-- Checks that the nested grammar which a state starts is one of `nestedCount`. -/
def checkNest (s : Storage) (nestedCount : Nat) (state : StateId) : Except Error Unit := do
  match (← s.descriptor state).nestIndex? with
  | none => .ok ()
  | some index =>
    if index < nestedCount then .ok () else .error (.invalidNestIndex state.toNat index)

/-- Checks the record of a state and its runs. -/
def checkState (s : Storage) (nestedCount : Nat) (state : StateId) : Except Error Unit := do
  s.checkNest nestedCount state
  let _ ← (Run.ofCells s.checkedAction (← s.actionPlace state)).ending
  let _ ← (Run.ofCells s.checkedGoto (← s.gotoPlace state)).ending

/-- Checks that the state table is 1 to 65536 whole records. -/
def checkSize (s : Storage) : Except Error Unit :=
  if s.states.size = 0 || s.states.size % 3 != 0 || s.stateCount > 65536 then
    .error (.invalidStateTable s.states.size)
  else .ok ()

/-- Checks the states from the last `n` on, in ascending order. -/
def checkLastStates (s : Storage) (nestedCount : Nat) : Nat → Except Error Unit
  | 0 => .ok ()
  | n + 1 => do
    s.checkState nestedCount (UInt16.ofNat (s.stateCount - (n + 1)))
    s.checkLastStates nestedCount n

/-- Checks the arrays of a grammar that comes with `nestedCount` nested grammars. -/
def check (s : Storage) (nestedCount : Nat) : Except Error Unit := do
  Specializations.check s.specializations
  s.checkSize
  s.checkTarget s.start
  s.checkLastStates nestedCount s.stateCount

end Storage

namespace Tables

/-- Checks tables; the nested ones are taken as checked. -/
def check (t : Tables) : Except Error Unit := t.toStorage.check t.nested.length

/-- The tables of the given arrays, if they pass the check. -/
def make (storage : Storage) (nested : List (Nested Tables)) : Except Error Tables := do
  storage.check nested.length
  .ok { storage with nested, names := [] }

/-- Made tables hold what they were made of, and it passed the check. -/
theorem make_eq_ok_iff (storage : Storage) (nested : List (Nested Tables)) (t : Tables) :
    make storage nested = .ok t ↔
      storage.check nested.length = .ok () ∧ t = { storage with nested, names := [] } := by
  unfold make
  cases storage.check nested.length with
  | error e => simp [bind, Except.bind]
  | ok u => simp [bind, Except.bind, eq_comm]

/-- The tables with other term names. -/
def withNames (t : Tables) (names : List String) : Tables := { t with names }

end Tables

end LRMachine
