import LRMachine.Descriptor
import LRMachine.Specialization

/-!
# Parse tables

The tables of one grammar are flat arrays: three words per state (its descriptor and the offsets of
its action and goto runs), the action runs `term, low, high`, the goto runs `term, target` and the
specializations. A grammar may come with nested grammars, each with tables of its own, that take
over the input where a state starts them.

The lookups are first-match searches of a run. On tables that `Tables.check` accepts they fail only
for states that do not exist.
-/

namespace LRMachine

/-- The flat arrays of one grammar. -/
structure Storage where
  start : StateId
  states : Array UInt32
  actions : Array UInt16
  gotos : Array UInt16
  specializations : Array UInt16
deriving DecidableEq, Repr

/-- A grammar that takes over the input while a state of the host has started it. -/
structure Nested (τ : Type) where
  name : String
  tables : τ
  /-- The host token that ends the nested region. -/
  closing : Term
  /-- The host term that is shifted over the nested region. -/
  placeholder : Term

/-- The tables of a grammar with its nested grammars and the names of its terms. -/
structure Tables extends Storage where
  nested : List (Nested Tables)
  names : List String

namespace Storage

/-! ## Records of states -/

/-- The number of whole state records. -/
def stateCount (s : Storage) : Nat := s.states.size / 3

/-- A word of a state's record. -/
def recordWord (s : Storage) (state : StateId) (field : Nat) : Except Error UInt32 :=
  match s.states[3 * state.toNat + field]? with
  | some word => .ok word
  | none => .error (.unknownState state.toNat)

/-- The descriptor of a state. -/
def descriptor (s : Storage) (state : StateId) : Except Error Descriptor :=
  (s.recordWord state 0).map Descriptor.mk

/-- The place where a sequence of a state begins. -/
def placeOf (table : TableKind) (cells : Array UInt16) (state : StateId) (offset : UInt32) :
    Except Error Cells :=
  if offset.toNat < cells.size then .ok ⟨cells, offset.toNat, table, state.toNat⟩
  else .error (.offsetOutOfRange table state.toNat offset.toNat)

/-- The place where the action run of a state begins. -/
def actionPlace (s : Storage) (state : StateId) : Except Error Cells := do
  placeOf .actions s.actions state (← s.recordWord state 1)

/-- The place where the goto run of a state begins. -/
def gotoPlace (s : Storage) (state : StateId) : Except Error Cells := do
  placeOf .gotos s.gotos state (← s.recordWord state 2)

/-! ## Lookups -/

/-- The action run of a state: terms and action words. -/
def actionRun (s : Storage) (state : StateId) : Except Error (Run UInt32) :=
  (s.actionPlace state).map (Run.ofCells fun _ => CellReader.nextPair)

/-- The goto run of a state: terms and target states. -/
def gotoRun (s : Storage) (state : StateId) : Except Error (Run StateId) :=
  (s.gotoPlace state).map (Run.ofCells fun _ => CellReader.nextValue)

/-- The first action stored in a state for a term. -/
def action (s : Storage) (state : StateId) (term : Term) : Except Error (Option Action) := do
  let run ← s.actionRun state
  match ← run.find term with
  | some word => (Action.decode word).map some
  | none => .ok none

/-- The terms that have an action in a state, in table order. -/
def actionTerms (s : Storage) (state : StateId) : Except Error (List Term) := do
  (← s.actionRun state).keys

/-- The first goto target stored in a state for a term. -/
def goto (s : Storage) (state : StateId) (term : Term) : Except Error (Option StateId) := do
  (← s.gotoRun state).find term

/-- The terms that a raw term can be read as. -/
def readings (s : Storage) (raw : Term) : List Specialization :=
  Specializations.entries s.specializations raw

/-- The term under which a raw term is read in a state, with its action. The readings are tried in
order and the raw term last; a reading of kind `replace` ends the search. -/
def resolve (s : Storage) (state : StateId) (raw : Term) :
    Except Error (Option (Term × Action)) :=
  go (s.readings raw)
where
  go : List Specialization → Except Error (Option (Term × Action))
    | [] => do
      match ← s.action state raw with
      | some action => .ok (some (raw, action))
      | none => .ok none
    | reading :: rest => do
      match ← s.action state reading.term, reading.kind with
      | some action, _ => .ok (some (reading.term, action))
      | none, .replace => .ok none
      | none, .extend => go rest

end Storage

end LRMachine
