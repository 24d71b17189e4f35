import LRMachine.Term

/-!
# Actions

An action is what the automaton does with a lookahead term in a state: consume the token and push a
state, push a state without consuming, consume without leaving the state, or reduce. `Action.flags`
gives the modifier flags under which an action is stored in an action word.
-/

namespace LRMachine

/-- A reduction: the `depth` top frames are replaced by one node of `term`. -/
structure Reduction where
  term : Term
  depth : UInt16
  /-- The reduction folds a repetition body into its repeat term. -/
  repeats : Bool := false
  /-- The parse resumes in the state under the reduced frames instead of following a goto. -/
  stays : Bool := false
deriving DecidableEq, Repr

/-- What the automaton does in a state on a term. -/
inductive Action where
  /-- Consume the token and push the target. -/
  | shift (target : StateId)
  /-- Push the target and keep the token. -/
  | push (target : StateId)
  /-- Consume the token and stay; the state is the one that the word names. -/
  | skip (state : StateId)
  | reduce (reduction : Reduction)
deriving DecidableEq, Repr

/-- The two layouts of an action word. -/
inductive ActionKind where
  | shift
  | reduce
deriving DecidableEq, Repr

/-- The modifier flags of an action, as a byte whose unused bits are kept. -/
structure ActionFlags where
  bits : UInt8
deriving DecidableEq, Repr

namespace ActionFlags

/-- Bit 0: stay in the state, or resume it after a reduction. -/
def stay (f : ActionFlags) : Bool := f.bits.toNat.testBit 0

/-- Bit 1: the reduction folds a repetition. -/
def fold (f : ActionFlags) : Bool := f.bits.toNat.testBit 1

/-- Bit 2: the shift pushes without consuming. -/
def push (f : ActionFlags) : Bool := f.bits.toNat.testBit 2

/-- The byte that has the given flags and no other bit. -/
def ofBools (stay fold push : Bool) : ActionFlags :=
  ⟨(if stay then 1 else 0) + (if fold then 2 else 0) + (if push then 4 else 0)⟩

theorem stay_ofBools (s f p : Bool) : (ofBools s f p).stay = s := by
  cases s <;> cases f <;> cases p <;> rfl

theorem fold_ofBools (s f p : Bool) : (ofBools s f p).fold = f := by
  cases s <;> cases f <;> cases p <;> rfl

theorem push_ofBools (s f p : Bool) : (ofBools s f p).push = p := by
  cases s <;> cases f <;> cases p <;> rfl

end ActionFlags

namespace Action

/-- Marks a reduction as a fold of a repetition; other actions are kept. -/
def repeating : Action → Action
  | reduce r => reduce { r with repeats := true }
  | a => a

/-- Marks a reduction as staying; other actions are kept. -/
def staying : Action → Action
  | reduce r => reduce { r with stays := true }
  | a => a

/-- The layout of the action's word. -/
def kind : Action → ActionKind
  | reduce _ => .reduce
  | _ => .shift

/-- The target, state or term that the action's word holds. -/
def value : Action → UInt16
  | shift target => target
  | push target => target
  | skip state => state
  | reduce r => r.term

/-- The depth that the action's word holds. -/
def depth : Action → UInt16
  | reduce r => r.depth
  | _ => 0

/-- The modifier flags of the action. -/
def flags : Action → ActionFlags
  | shift _ => .ofBools false false false
  | push _ => .ofBools false false true
  | skip _ => .ofBools true false false
  | reduce r => .ofBools r.stays r.repeats false

/-- A shift that consumes its token. -/
def consumes : Action → Bool
  | shift _ => true
  | skip _ => true
  | _ => false

end Action

end LRMachine
