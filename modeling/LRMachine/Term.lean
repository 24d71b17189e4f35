/-!
# Terms and states

Terms and states are 16-bit ids. A term with an odd id is tagged and shows in the printed tree; a
term with an even id is synthetic and is replaced there by its children. The end of input and the
error term have fixed ids, a grammar gives out the others. One cell value, `endMark`, is never an
id: it closes the sequences of the flat tables.
-/

namespace LRMachine

/-- The id of a term: a token kind or a grammar symbol. -/
abbrev Term := UInt16

/-- The id of an automaton state. -/
abbrev StateId := UInt16

/-- The cell that closes a sequence in a flat table. -/
def endMark : UInt16 := 0xffff

namespace Term

/-- The end of the input. -/
def eof : Term := 0

/-- The error term, on which recovery actions are stored. -/
def err : Term := 1

/-- The tagged terms are the odd ones. -/
def isTagged (t : Term) : Bool := t.toNat % 2 == 1

/-- The two terms that every grammar shares. -/
def isReserved (t : Term) : Bool := t == eof || t == err

/-- The name of a term where the grammar gives none. -/
def name (t : Term) : String :=
  if t = eof then "Eof" else if t = err then "Err" else "#" ++ toString t.toNat

/-- The name at the term's place in a list of names; an empty or missing one gives way to `name`. -/
def display (names : List String) (t : Term) : String :=
  match names[t.toNat]? with
  | some given => if given.isEmpty then t.name else given
  | none => t.name

theorem isReserved_iff (t : Term) : t.isReserved = true ↔ t = eof ∨ t = err := by
  simp [isReserved]

end Term

end LRMachine
