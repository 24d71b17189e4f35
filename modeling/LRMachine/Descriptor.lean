import LRMachine.Term

/-!
# State descriptors

The descriptor word of a state holds three flags in its low bits and, for a state that starts a
nested grammar, the index of that grammar from bit 10 up. Other bits are kept as they are.
-/

namespace LRMachine

/-- The descriptor word of a state. -/
structure Descriptor where
  bits : UInt32
deriving DecidableEq, Repr, Inhabited

namespace Descriptor

/-- The flag of states inside a skip expression. -/
def skippedFlag : UInt32 := 1

/-- The flag of states in which the end of input accepts. -/
def acceptingFlag : UInt32 := 2

/-- The flag of states that start a nested grammar. -/
def nestFlag : UInt32 := 4

/-- A descriptor without a nested grammar. -/
def plain (flags : UInt32) : Descriptor := ⟨flags &&& ~~~nestFlag⟩

/-- A descriptor that starts the nested grammar of the given index. -/
def nest (flags : UInt32) (index : UInt16) : Descriptor :=
  ⟨flags ||| nestFlag ||| index.toUInt32 <<< 10⟩

/-- The three flags without the other bits. -/
def flags (d : Descriptor) : UInt32 := d.bits &&& (skippedFlag ||| acceptingFlag ||| nestFlag)

/-- The state belongs to a skip expression. -/
def isSkipped (d : Descriptor) : Bool := d.bits &&& skippedFlag != 0

/-- The end of input accepts in the state. -/
def isAccepting (d : Descriptor) : Bool := d.bits &&& acceptingFlag != 0

/-- The state starts a nested grammar. -/
def startsNest (d : Descriptor) : Bool := d.bits &&& nestFlag != 0

/-- The index of the nested grammar that the state starts. -/
def nestIndex? (d : Descriptor) : Option Nat :=
  if d.startsNest then some (d.bits >>> 10).toNat else none

end Descriptor

end LRMachine
