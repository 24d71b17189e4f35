import LRMachine.Tables.Check

/-!
# The grammar of sums

Sums of numbers, `Num (Plus Num)*`, with blanks skipped between the tokens: ready-made tables with
the names of their terms.
-/

namespace LRMachine.Grammar

/-- The names of the terms of `sum`. -/
def sumNames : List String := ["", "", "", "Num", "", "Plus", "", "Sum", "Ws"]

/-- The arrays of the grammar of sums. State 1 holds a number in front, state 2 a sum, state 3 a sum
and a plus, and state 4 a sum, a plus and a number. -/
def sumStorage : Storage where
  start := 0
  states := #[
    0, 0, 1,
    0, 7, 0,
    2, 17, 0,
    0, 24, 0,
    0, 31, 0]
  actions := #[
    3, 1, 0, 8, 0, 4, 0xffff,
    5, 7, 9, 0, 7, 9, 8, 1, 4, 0xffff,
    5, 3, 0, 8, 2, 4, 0xffff,
    3, 4, 0, 8, 3, 4, 0xffff,
    5, 7, 25, 0, 7, 25, 8, 4, 4, 0xffff]
  gotos := #[
    0xffff,
    7, 2, 0xffff]
  specializations := #[]

/-- The tables of the grammar of sums. -/
def sum : Tables := { sumStorage with nested := [], names := sumNames }

end LRMachine.Grammar
