import LRMachine.Parse.Step

/-!
# Advancing over tokens

`Parse.advance` steps until a token is consumed, or for the end of input until the parse accepts.
A token that ends nested grammars first closes them: each is driven to acceptance, left, and its
placeholder is shifted in the grammar around it. `parse` runs over a list of tokens.

No bound on the number of steps follows from the tables, so every loop takes the number of rounds
that it may make; a computation that comes to its end has the same answer under every larger number.
-/

namespace LRMachine

namespace Parse

/-- Steps until a step of the wanted kind was made. -/
def stepUntil (wanted : Step → Bool) (token : Token) : Nat → ParseM Step
  | 0 => throw .exhausted
  | fuel + 1 => do
    let made ← step token
    if wanted made then pure made else stepUntil wanted token fuel

/-- Goes back to the grammar around the innermost one. -/
def leave (entry : Suspension) : ParseM Unit := do
  let p ← get
  match p.suspended with
  | [] => pure ()
  | innermost :: outer =>
    if p.items < entry.base then throw .overflow
    else set (p.left entry innermost.host outer)

/-- The token that stands for a nested region in the grammar around it. -/
def placeholder (entry : Suspension) (position : Nat) : Token :=
  ⟨entry.grammar.placeholder, entry.start, position - entry.start⟩

/-- Finishes the nested grammar that was entered at `entry` and shifts its placeholder. -/
def closeNest (fuel : Nat) (entry : Suspension) (position : Nat) : ParseM Unit := do
  let _ ← stepUntil (· == .accepted) (Token.eof position) fuel
  leave entry
  let _ ← stepUntil Step.consumed (placeholder entry position) fuel

/-- A token ends a nested grammar if it is the end of input or the grammar's closing token. -/
def endsNest (entry : Suspension) (token : Token) : Bool :=
  token.term == Term.eof || token.term == entry.grammar.closing

/-- Closes nested grammars as long as the token ends the innermost one; `steps` bounds each drive
and the last argument their number. -/
def closeNests (steps : Nat) (token : Token) : Nat → ParseM Unit
  | 0 => throw .exhausted
  | fuel + 1 => do
    match (← get).suspended with
    | [] => pure ()
    | entry :: _ =>
      if endsNest entry token then
        closeNest steps entry token.start
        closeNests steps token fuel
      else pure ()

/-- The step with which a token is done: it was consumed, or the end of input was accepted. -/
def settles (token : Token) (made : Step) : Bool :=
  made == .accepted || (made.consumed && token.term != Term.eof)

/-- Feeds one token. -/
def advance (fuel : Nat) (token : Token) : ParseM Step := do
  if (← get).finished then fail .parseFinished
  else
    closeNests fuel token fuel
    stepUntil (settles token) token fuel

/-- Feeds tokens until one is accepted, and the end of input at `stop` behind the last one. -/
def feed (fuel : Nat) : List Token → Nat → ParseM Unit
  | [], stop => do
    let _ ← advance fuel (Token.eof stop)
  | token :: rest, _ => do
    match token.stop? with
    | none => throw .overflow
    | some stop =>
      let made ← advance fuel token
      if made = .accepted then pure () else feed fuel rest stop

end Parse

/-- Runs a list of tokens to acceptance. -/
def parse (fuel : Nat) (tables : Tables) (tokens : List Token) (options : Options) :
    EStateM.Result Halt Parse Unit :=
  Parse.feed fuel tokens 0 (Parse.new tables options)

end LRMachine
