import LRMachine.Tables.Check

/-!
# Drafts of tables

A draft collects the states, actions, gotos, specializations and nested grammars of a grammar in any
order. `Draft.layOut` puts them into the flat arrays, state by state and within a state in the order
of the calls, and hands the result to `Tables.make`.
-/

namespace LRMachine

/-- An action of a state on a term. -/
structure ActionEntry where
  state : StateId
  term : Term
  action : Action
deriving DecidableEq, Repr

/-- A goto of a state on a reduced term. -/
structure GotoEntry where
  state : StateId
  term : Term
  target : StateId
deriving DecidableEq, Repr

/-- A reading of a raw term. -/
structure ReadingEntry where
  raw : Term
  reading : Specialization
deriving DecidableEq, Repr

/-- Tables in the making. -/
structure Draft where
  start : StateId := 0
  descriptors : Array Descriptor := #[]
  actions : Array ActionEntry := #[]
  gotos : Array GotoEntry := #[]
  readings : Array ReadingEntry := #[]
  nested : Array (Nested Tables) := #[]

namespace Draft

/-! ## Collecting -/

/-- The draft of nothing. -/
def empty : Draft := {}

/-- Adds a state and gives its id. -/
def addState (d : Draft) (descriptor : Descriptor) : StateId × Draft :=
  (UInt16.ofNat d.descriptors.size, { d with descriptors := d.descriptors.push descriptor })

/-- Names the start state. -/
def setStart (d : Draft) (state : StateId) : Draft := { d with start := state }

/-- Adds an action; the first one of a state and term counts. -/
def addAction (d : Draft) (state : StateId) (term : Term) (action : Action) : Draft :=
  { d with actions := d.actions.push ⟨state, term, action⟩ }

/-- Adds a goto; the first one of a state and term counts. -/
def addGoto (d : Draft) (state : StateId) (term : Term) (target : StateId) : Draft :=
  { d with gotos := d.gotos.push ⟨state, term, target⟩ }

/-- Adds a reading of a raw term. -/
def addReading (d : Draft) (raw refined : Term) (kind : SpecializationKind) : Draft :=
  { d with readings := d.readings.push ⟨raw, ⟨refined, kind⟩⟩ }

/-- Adds a nested grammar and gives its index. -/
def addNested (d : Draft) (grammar : Nested Tables) : UInt16 × Draft :=
  (UInt16.ofNat d.nested.size, { d with nested := d.nested.push grammar })

/-! ## Laying out -/

/-- The arrays as far as they are laid out. -/
structure Layout where
  states : Array UInt32 := #[]
  actions : Array UInt16 := #[]
  gotos : Array UInt16 := #[]

/-- Adds a state's record and the cells of its runs. -/
def Layout.addState (l : Layout) (descriptor : Descriptor) (actionRun gotoRun : List UInt16) :
    Layout where
  states := l.states ++
    [descriptor.bits, UInt32.ofNat l.actions.size, UInt32.ofNat l.gotos.size]
  actions := l.actions ++ actionRun
  gotos := l.gotos ++ gotoRun

/-- The cells of an action entry. -/
def actionCells (e : ActionEntry) : Except Error (List UInt16) := do
  let cells := Action.split (← e.action.encode)
  .ok [e.term, cells.1, cells.2]

/-- The cells of a goto entry. -/
def gotoCells (e : GotoEntry) : List UInt16 := [e.term, e.target]

/-- The cells of a state's action run. -/
def actionRun (d : Draft) (state : Nat) : Except Error (List UInt16) := do
  let cells ← (d.actions.toList.filter (·.state.toNat == state)).mapM actionCells
  .ok (cells.flatten ++ [endMark])

/-- The cells of a state's goto run. -/
def gotoRun (d : Draft) (state : Nat) : List UInt16 :=
  (d.gotos.toList.filter (·.state.toNat == state)).flatMap gotoCells ++ [endMark]

/-- Lays out one state after those in front of it. -/
def layState (d : Draft) (l : Layout) (state : Descriptor × Nat) : Except Error Layout := do
  .ok (l.addState state.1 (← d.actionRun state.2) (d.gotoRun state.2))

/-- The readings by raw term, in the order in which the raw terms first come up. -/
def readingRuns (d : Draft) : List (Term × List Specialization) :=
  (d.readings.toList.map (·.raw)).eraseDups.map fun raw =>
    (raw, (d.readings.toList.filter (·.raw == raw)).map (·.reading))

/-- The states that entries belong to, actions first. -/
def owners (d : Draft) : List StateId :=
  d.actions.toList.map (·.state) ++ d.gotos.toList.map (·.state)

/-- Refuses entries of states that were not added. -/
def checkOwners (d : Draft) : Except Error Unit :=
  match d.owners.find? (d.descriptors.size ≤ ·.toNat) with
  | some state => .error (.unknownState state.toNat)
  | none => .ok ()

/-- The checked tables of a draft. -/
def layOut (d : Draft) : Except Error Tables := do
  d.checkOwners
  let l ← d.descriptors.toList.zipIdx.foldlM d.layState {}
  let specializations := (d.readingRuns.flatMap Specializations.runCells).toArray
  Tables.make ⟨d.start, l.states, l.actions, l.gotos, specializations⟩ d.nested.toList

end Draft

end LRMachine
