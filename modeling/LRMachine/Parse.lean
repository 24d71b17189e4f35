import LRMachine.Event
import LRMachine.Stack
import LRMachine.Tables

/-!
# The state of a parse

A parse runs one grammar at a time. While a nested grammar runs, the grammars around it are
suspended, the innermost first, each with the counters that its parse resumes with. The automaton
does not hold the tree: `items` counts the items that the consumer of the events has pending, and
`skippedTail` how many of them, at the end, are skipped content.

Each function of this module is one change of the state, with no way to fail; `LRMachine.Parse.Step`
decides which of them happens.
-/

namespace LRMachine

/-- The limits of a parse. -/
structure Options where
  maxRecoveries : Nat := 32
  /-- The number of frames that a stack may have, its base frame included. -/
  maxStackDepth : Nat := 65536
deriving DecidableEq, Repr

/-- What one step did. -/
inductive Step where
  /-- The token was consumed and a state pushed. -/
  | shifted
  /-- The token was consumed in the same state. -/
  | skipped
  /-- A state was pushed and the token kept. -/
  | pushed
  | reduced
  | accepted
deriving DecidableEq, Repr

/-- The step passed its token. -/
def Step.consumed : Step → Bool
  | shifted => true
  | skipped => true
  | _ => false

/-- A grammar with its stack. -/
structure Level where
  tables : Tables
  stack : Stack

/-- A grammar that waits for a nested one, with the counters at the entry of the nested one. -/
structure Suspension where
  host : Level
  grammar : Nested Tables
  /-- Where the nested region begins. -/
  start : Nat
  /-- The pending items at the entry. -/
  base : Nat
  /-- The skipped items among them, at their end. -/
  tail : Nat
  /-- The end of the host's content at the entry. -/
  contentEnd : Nat

/-- A parse. -/
structure Parse where
  /-- The innermost grammar. -/
  active : Level
  /-- The grammars around it, the innermost first. -/
  suspended : List Suspension
  options : Options
  /-- The end of the consumed input. -/
  position : Nat
  /-- The end of the last content that was not skipped. -/
  contentEnd : Nat
  /-- The number of items pending with the consumer of the events. -/
  items : Nat
  /-- How many of the pending items, at their end, are skipped content. -/
  skippedTail : Nat
  /-- The items that a finished nested grammar leaves to its placeholder. -/
  mount : Nat
  recoveries : Nat
  /-- The outermost grammar has accepted. -/
  finished : Bool
  /-- The events so far, newest first. -/
  log : List Event

/-- The level of a grammar before its first token. -/
def Level.new (tables : Tables) (start limit : Nat) : Level :=
  ⟨tables, Stack.new tables.start start limit⟩

namespace Parse

/-- A parse before its first token. -/
def new (tables : Tables) (options : Options) : Parse where
  active := .new tables 0 options.maxStackDepth
  suspended := []
  options
  position := 0
  contentEnd := 0
  items := 0
  skippedTail := 0
  mount := 0
  recoveries := 0
  finished := false
  log := []

/-! ## Views -/

/-- The tables of the innermost grammar. -/
def tables (p : Parse) : Tables := p.active.tables

/-- The top state of the innermost grammar. -/
def state (p : Parse) : StateId := p.active.stack.state

/-- The states of the innermost grammar's stack, from the base up. -/
def states (p : Parse) : List StateId := p.active.stack.states

/-- The number of nested grammars that are running. -/
def nestDepth (p : Parse) : Nat := p.suspended.length

/-- The innermost nested grammar; none while the outermost grammar runs. -/
def activeGrammar? (p : Parse) : Option (Nested Tables) := p.suspended.head?.map (·.grammar)

/-- The events so far, oldest first. -/
def events (p : Parse) : List Event := p.log.reverse

/-- The number of pending items that belong to the grammars around the innermost one. -/
def floor (p : Parse) : Nat :=
  match p.suspended with
  | [] => 0
  | s :: _ => s.base

/-- Where a node ends that is built now: behind the content, or behind everything if it is
skipped content itself. -/
def nodeEnd (p : Parse) (skipped : Bool) : Nat := if skipped then p.position else p.contentEnd

/-! ## Changes -/

/-- The parse with another stack. -/
def withStack (p : Parse) (stack : Stack) : Parse := { p with active := { p.active with stack } }

/-- The pending items below the next shifted one, which adopts the mounted items. -/
def shiftBase (p : Parse) : Nat := p.items - p.mount

/-- The skipped items at the end of those. -/
def shiftTail (p : Parse) : Nat := p.skippedTail - p.mount

/-- The parse behind a consumed token. -/
def consumed (p : Parse) (term : Term) (span : Span) (skipped : Bool) : Parse :=
  let position := max p.position span.stop
  { p with
    position
    contentEnd := if skipped then p.contentEnd else position
    items := p.shiftBase + 1
    skippedTail := if skipped then p.shiftTail + 1 else 0
    mount := 0
    log := .shift ⟨term, span, p.mount, skipped⟩ :: p.log }

/-- The frame of a state that is pushed now, above all pending items. -/
def frameHere (p : Parse) (state : StateId) (start : Nat) : Frame :=
  ⟨state, start, p.items, p.skippedTail⟩

/-- The frame that an empty reduction stands on: in front of the skipped items at the end, unless
the node is skipped content itself. -/
def emptyFrame (p : Parse) (skipped : Bool) : Frame :=
  if skipped then p.frameHere p.state p.position
  else ⟨p.state, p.contentEnd, max (p.items - p.skippedTail) p.floor, 0⟩

/-- The event of a reduction whose lowest frame is given. It takes all items above the frame but the
skipped ones at the end, which are hoisted out of the node. -/
def reduceEvent (p : Parse) (r : Reduction) (skipped : Bool) (lowest : Frame) : ReduceEvent :=
  let available := p.items - lowest.base
  let hoisted := if skipped then 0 else min p.skippedTail available
  { term := r.term
    span := ⟨lowest.start, max (p.nodeEnd skipped) lowest.start⟩
    depth := r.depth.toNat
    children := available - hoisted
    hoisted
    repeats := r.repeats
    skipped }

/-- The parse after the event of a reduction. -/
def reduced (p : Parse) (e : ReduceEvent) (lowest : Frame) : Parse :=
  { p with
    items := lowest.base + 1 + e.hoisted
    skippedTail := if e.skipped then lowest.tail + 1 else e.hoisted
    log := .reduce e :: p.log }

/-- The parse that goes on after a mismatch. -/
def recovered (p : Parse) (d : Diagnostic) : Parse :=
  { p with recoveries := p.recoveries + 1, log := .diagnostic d :: p.log }

/-- The parse inside a nested grammar that starts without content of its own. -/
def entered (p : Parse) (grammar : Nested Tables) (start : Nat) : Parse :=
  { p with
    active := .new grammar.tables start p.options.maxStackDepth
    suspended := ⟨p.active, grammar, start, p.items, p.skippedTail, p.contentEnd⟩ :: p.suspended
    contentEnd := start
    skippedTail := 0 }

/-- The parse back in `host`, with the items since the entry mounted for the placeholder. -/
def left (p : Parse) (entry : Suspension) (host : Level) (outer : List Suspension) : Parse :=
  { p with
    active := host
    suspended := outer
    contentEnd := entry.contentEnd
    skippedTail := entry.tail + (p.items - entry.base)
    mount := p.items - entry.base }

/-- The parse after the outermost grammar has accepted. -/
def closed (p : Parse) : Parse := { p with finished := true }

end Parse

end LRMachine
