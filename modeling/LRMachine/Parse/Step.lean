import LRMachine.Parse

/-!
# Steps

`Parse.step` applies one action for a token: it resolves the token in the top state, and shifts,
skips, pushes, reduces or recovers. A step that fails keeps the changes that it had made, so that a
caller may look at the parse and go on.
-/

namespace LRMachine

/-- Why a computation on a parse stops early. -/
inductive Halt where
  /-- An error of the tables, the input or the caller. -/
  | error (e : Error)
  /-- A position or a count would leave its 64 bits. -/
  | overflow
  /-- The number of steps that was asked for is used up. -/
  | exhausted
deriving DecidableEq, Repr

/-- A computation on a parse, which keeps its changes when it stops early. -/
abbrev ParseM := EStateM Halt Parse

namespace Parse

/-- Stops with an error. -/
def fail {α : Type} (e : Error) : ParseM α := throw (.error e)

/-- Takes the answer of a lookup. -/
def lookUp {α : Type} : Except Error α → ParseM α
  | .ok a => pure a
  | .error e => fail e

/-! ## Moves of the stack -/

/-- Pushes a frame in the innermost grammar. -/
def pushFrame (f : Frame) : ParseM Unit := do
  let p ← get
  let stack ← lookUp (p.active.stack.push f)
  set (p.withStack stack)

/-- Pops the frames of a reduction and gives the lowest; an empty reduction pops none. -/
def popFrames (r : Reduction) (skipped : Bool) : ParseM Frame := do
  let p ← get
  if r.depth = 0 then
    if !skipped && p.items < p.skippedTail then throw .overflow
    else pure (p.emptyFrame skipped)
  else
    let (lowest, stack) ← lookUp (p.active.stack.pop r.depth.toNat)
    set (p.withStack stack)
    pure lowest

/-- Starts the nested grammar of a state that was pushed, if it has one. -/
def enterNest (state : StateId) (start : Nat) : ParseM Unit := do
  let p ← get
  match (← lookUp (p.tables.descriptor state)).nestIndex? with
  | none => pure ()
  | some index =>
    match p.tables.nested[index]? with
    | none => fail (.invalidNestIndex state.toNat index)
    | some grammar => set (p.entered grammar start)

/-! ## Actions -/

/-- Consumes a token under the term that it was read as. -/
def consume (term : Term) (token : Token) (skipped : Bool) : ParseM Unit := do
  match token.span? with
  | none => throw .overflow
  | some span => modify fun p => p.consumed term span skipped

/-- Consumes a token and pushes a state. The item belongs to a skip expression if the state does. -/
def shift (target : StateId) (term : Term) (token : Token) : ParseM Step := do
  let p ← get
  let descriptor ← lookUp (p.tables.descriptor target)
  consume term token descriptor.isSkipped
  pushFrame ⟨target, token.start, p.shiftBase, p.shiftTail⟩
  enterNest target (← get).position
  pure .shifted

/-- Consumes a token in the same state. -/
def skip (term : Term) (token : Token) : ParseM Step := do
  consume term token true
  pure .skipped

/-- Pushes a state and keeps the token. -/
def pushState (target : StateId) (token : Token) : ParseM Step := do
  pushFrame ((← get).frameHere target token.start)
  enterNest target token.start
  pure .pushed

/-- The state that follows a reduction; none if the parse stays in the state under it. -/
def gotoTarget (r : Reduction) : ParseM (Option StateId) := do
  if r.stays then pure none
  else
    let p ← get
    match ← lookUp (p.tables.goto p.state r.term) with
    | some target => pure (some target)
    | none => fail (.missingGoto p.state r.term)

/-- Reduces. -/
def reduce (r : Reduction) (token : Token) : ParseM Step := do
  let p ← get
  let descriptor ← lookUp (p.tables.descriptor p.state)
  let skipped := descriptor.isSkipped
  let lowest ← popFrames r skipped
  let next ← gotoTarget r
  let event := (← get).reduceEvent r skipped lowest
  modify fun p => p.reduced event lowest
  match next with
  | none => pure .reduced
  | some target =>
    pushFrame ⟨target, lowest.start, lowest.base, lowest.tail⟩
    enterNest target token.start
    pure .reduced

/-- Applies an action for a token that was read as `term`. -/
def apply (term : Term) (action : Action) (token : Token) : ParseM Step :=
  match action with
  | .shift target => shift target term token
  | .push target => pushState target token
  | .skip _ => skip term token
  | .reduce r => reduce r token

/-! ## Recovery -/

/-- The report on a token that has no action in the top state. -/
def mismatch (p : Parse) (token : Token) : Except Error Mismatch :=
  (p.tables.actionTerms p.state).map fun terms =>
    { position := token.start
      state := p.state
      found := token.term
      expected := terms.filter (· != Term.err) }

/-- Goes on through the state's action for the error term, as long as recoveries are left. -/
def recover (token : Token) : ParseM Step := do
  let p ← get
  let mismatch ← lookUp (p.mismatch token)
  if p.options.maxRecoveries ≤ p.recoveries then fail (.unexpected mismatch)
  else
    match ← lookUp (p.tables.action p.state Term.err) with
    | none => fail (.unexpected mismatch)
    | some action =>
      set (p.recovered ⟨mismatch, action.consumes⟩)
      apply Term.err action token

/-! ## One step -/

/-- The top state accepts the token, which is the end of input. -/
def accepts (token : Token) : ParseM Bool := do
  if token.term = Term.eof then
    let p ← get
    let descriptor ← lookUp (p.tables.descriptor p.state)
    pure descriptor.isAccepting
  else pure false

/-- Accepts: the outermost grammar finishes the parse, a nested one waits to be left. -/
def accept : ParseM Step := do
  modify fun p => if p.suspended.isEmpty then p.closed else p
  pure .accepted

/-- Applies one action for a token. -/
def step (token : Token) : ParseM Step := do
  let p ← get
  if p.finished then fail .parseFinished
  else if ← accepts token then accept
  else
    match ← lookUp (p.tables.resolve p.state token.term) with
    | some (term, action) => apply term action token
    | none => recover token

end Parse

end LRMachine
