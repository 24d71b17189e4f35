import LRMachine.Document
import LRMachine.Grammar.Sum
import LRMachine.Parse.Advance
import LRMachine.Tree.Graph
import LRMachine.Tree.Text

/-!
# The command line

The command names tables, ready-made or in a file, and the tokens of an input, which are read as if
single blanks stood between them. It prints the tree on one line or as a DOT graph. `Request.ofArgs`
reads the arguments, `Request.answer` does the work; reading the file and printing are left to the
caller.
-/

namespace LRMachine

/-- Where the tables come from. -/
inductive TableSource where
  | sum
  | file (path : String)
deriving DecidableEq, Repr

/-- What the command is asked to do. -/
structure Request where
  asDot : Bool
  source : TableSource
  /-- The tokens, by name or id. -/
  words : List String
deriving DecidableEq, Repr

/-- Why the command fails. -/
inductive Failure where
  | unreadable (path : String)
  | halted (halt : Halt)
deriving DecidableEq, Repr

/-- How the command ends. -/
inductive Outcome where
  | printed (out notes : String)
  | misused (notes : String)
  | failed (failure : Failure)
deriving DecidableEq, Repr

/-- The wording of a failure. -/
def Failure.message : Failure → String
  | unreadable path => "cannot read " ++ path
  | halted (.error e) => e.message
  | halted .overflow => "a position leaves its 64 bits"
  | halted .exhausted => "the parse does not end"

namespace Request

/-- How the command is used. -/
def usage : String :=
  "usage: shiftreduce [--dot] <sum | tables.json> <token>...\n" ++
    "tokens are term names or ids, read as if separated by single spaces\n"

/-- The source that an argument names. -/
def sourceOf (arg : String) : TableSource := if arg = "sum" then .sum else .file arg

/-- The request of the arguments; none if no tables are named. -/
def ofArgs : List String → Option Request
  | [] => none
  | arg :: rest =>
    if arg = "--dot" then
      match rest with
      | [] => none
      | source :: words => some ⟨true, sourceOf source, words⟩
    else some ⟨false, sourceOf arg, rest⟩

/-! ## Tokens -/

/-- The id that decimal digits write, with an optional plus in front. -/
def termId? (word : String) : Option Term :=
  let digits :=
    match word.toList with
    | '+' :: rest => rest
    | cs => cs
  if digits.isEmpty || !digits.all Char.isDigit then none
  else
    let n := Text.ofDigits digits
    if n < 65536 then some (UInt16.ofNat n) else none

/-- The term of a word: the first term of that name, or else the id that the word writes. -/
def term? (names : List String) (word : String) : Option Term :=
  match names.findIdx? (· == word) with
  | some i => if i < 65536 then some (UInt16.ofNat i) else none
  | none => termId? word

/-- The tokens of words that begin at a position, or the first word that is no term. Lengths are in
bytes. -/
def tokens (names : List String) : Nat → List String → Except String (List Token)
  | _, [] => .ok []
  | position, word :: rest =>
    match term? names word with
    | none => .error word
    | some term =>
      (tokens names (position + word.utf8ByteSize + 1) rest).map
        (⟨term, position, word.utf8ByteSize⟩ :: ·)

/-! ## The answer -/

/-- The number of rounds after which a parse is given up. -/
def patience : Nat := 1 <<< 40

/-- The tables of a source; the text is the content of the file, if it can be read. -/
def tables (source : TableSource) (text : Option String) : Except Failure Tables :=
  match source with
  | .sum => .ok Grammar.sum
  | .file path =>
    match text with
    | none => .error (.unreadable path)
    | some text =>
      match Tables.ofText text with
      | .ok tables => .ok tables
      | .error e => .error (.halted (.error e))

/-- The notes on the mismatches that a parse recovered from. -/
def notes (t : Tree) : String :=
  String.join (t.errors.map fun d => "recovered: " ++ d.mismatch.message ++ "\n")

/-- The printed form of a tree. -/
def print (asDot : Bool) (t : Tree) (names : List String) : String :=
  if asDot then t.dot names else t.text names ++ "\n"

/-- Does what the request asks. -/
def answer (request : Request) (text : Option String) : Outcome :=
  match tables request.source text with
  | .error failure => .failed failure
  | .ok tables =>
    match tokens tables.names 0 request.words with
    | .error word => .misused ("unknown term " ++ word ++ "\n" ++ usage)
    | .ok tokens =>
      match parse patience tables tokens {} with
      | .error halt _ => .failed (.halted halt)
      | .ok _ p =>
        let tree := Tree.ofEvents p.events
        .printed (print request.asDot tree tables.names) (notes tree)

end Request

end LRMachine
