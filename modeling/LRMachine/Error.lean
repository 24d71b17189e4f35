import LRMachine.Term

/-!
# Errors

One type holds every reason for which decoding a word, checking tables, reading a table document or
running the automaton fails. Each constructor is a cause with its data; `Error.message` holds all
the wording.
-/

namespace LRMachine

/-- The flat tables, as named in error messages. -/
inductive TableKind where
  | states
  | actions
  | gotos
  | specializations
deriving DecidableEq, Repr

/-- The name of a table in an error message. -/
def TableKind.name : TableKind → String
  | states => "state"
  | actions => "action"
  | gotos => "goto"
  | specializations => "specialization"

/-- What is wrong with a table document. -/
inductive DocumentError where
  | malformed (detail : String)
  | noInteger (key : String)
  | outOfRange (key : String) (value : Nat)
  | missing (key : String)
  | notArray (key : String)
  | strayElement (key : String)
  | noGrammar
deriving DecidableEq, Repr

/-- A word between double quotes. -/
def quoteKey (key : String) : String := "\"" ++ key ++ "\""

/-- The wording of a fault in a table document. -/
def DocumentError.message : DocumentError → String
  | malformed detail => detail
  | noInteger key => "missing or non-integer " ++ quoteKey key
  | outOfRange key value => quoteKey key ++ " value " ++ toString value ++ " is out of range"
  | missing key => "missing " ++ quoteKey key
  | notArray key => quoteKey key ++ " is not an array"
  | strayElement key => "non-integer in " ++ quoteKey key
  | noGrammar => "nested grammar without \"grammar\""

/-- A token for which the automaton has no action. -/
structure Mismatch where
  position : Nat
  state : StateId
  found : Term
  expected : List Term
deriving DecidableEq, Repr

/-- The wording of a mismatch: terms by their plain names. -/
def Mismatch.message (m : Mismatch) : String :=
  "unexpected " ++ m.found.name ++ " at " ++ toString m.position ++
    " (state " ++ toString m.state.toNat ++ ")" ++
    if m.expected.isEmpty then ""
    else ", expected one of: " ++ ", ".intercalate (m.expected.map Term.name)

/-- Every reason for a failure. -/
inductive Error where
  /-- The word 0 stands for an absent action. -/
  | absentAction
  | valueOutOfRange (value : UInt32)
  | depthOutOfRange (depth : UInt32)
  /-- A consuming shift to state 0, whose word would be the absent action. -/
  | shiftToStartState
  | malformedAction (word : UInt32)
  /-- One cell is left where two are needed. -/
  | oddCells (table : TableKind) (offset : Nat)
  | missingTerminator (table : TableKind) (owner : Nat)
  /-- The end mark stands where a value is needed. -/
  | misplacedTerminator (table : TableKind) (offset : Nat)
  | offsetOutOfRange (table : TableKind) (state offset : Nat)
  /-- The state table is not 1 to 65536 whole records. -/
  | invalidStateTable (length : Nat)
  | unknownState (state : Nat)
  /-- The end of input or the error term stands where it may not. -/
  | reservedTerm (table : TableKind) (term : Term)
  | invalidSpecializationKind (cell : UInt16)
  | invalidNestIndex (state index : Nat)
  | document (cause : DocumentError)
  | stackUnderflow (depth available : Nat)
  | stackOverflow (limit : Nat)
  | missingGoto (state : StateId) (term : Term)
  | parseFinished
  | unexpected (mismatch : Mismatch)
  | render (reason : String)
deriving DecidableEq, Repr

/-- The lower-case hexadecimal text of a word. -/
def hexWord (word : UInt32) : String := "0x" ++ String.ofList (Nat.toDigits 16 word.toNat)

namespace Error

/-- The wording of an error. -/
def message : Error → String
  | absentAction => "no action (0) cannot be decoded"
  | valueOutOfRange value =>
    "action value " ++ toString value.toNat ++ " does not fit a state or term id"
  | depthOutOfRange depth => "reduce depth " ++ toString depth.toNat ++ " is too large"
  | shiftToStartState => "shift actions may not target state 0"
  | malformedAction word => "malformed action " ++ hexWord word
  | oddCells table offset => table.name ++ " table: odd cell count at offset " ++ toString offset
  | missingTerminator table owner =>
    table.name ++ " table: sequence for " ++ toString owner ++ " is not terminated"
  | misplacedTerminator table offset =>
    table.name ++ " table: end marker used as a value at offset " ++ toString offset
  | offsetOutOfRange table state offset =>
    table.name ++ " table: offset " ++ toString offset ++ " for state " ++ toString state ++
      " is out of range"
  | invalidStateTable length =>
    "state table length " ++ toString length ++ " is not 1 to 65536 whole states"
  | unknownState state => "unknown state " ++ toString state
  | reservedTerm table term => table.name ++ " table: reserved term " ++ term.name ++ " used here"
  | invalidSpecializationKind cell => "invalid specialization kind " ++ toString cell.toNat
  | invalidNestIndex state index =>
    "state " ++ toString state ++ " refers to missing nested grammar " ++ toString index
  | document cause => "invalid table document: " ++ cause.message
  | stackUnderflow depth available =>
    "reduction of depth " ++ toString depth ++ " with only " ++ toString available ++
      " frames above the base"
  | stackOverflow limit => "stack exceeded " ++ toString limit ++ " frames"
  | missingGoto state term =>
    "no goto from state " ++ toString state.toNat ++ " on term " ++ toString term.toNat
  | parseFinished => "parse already finished"
  | unexpected mismatch => "parse error: " ++ mismatch.message
  | render reason => "failed to render graph: " ++ reason

/-- All errors but a mismatch in the input come from the tables or from misuse. -/
def isFatal : Error → Bool
  | unexpected _ => false
  | _ => true

end Error

end LRMachine
