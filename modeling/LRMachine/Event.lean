import LRMachine.Error

/-!
# Tokens and events

The lexer supplies tokens; the automaton reports what it did as events. Events describe a tree from
the leaves up against a list of pending items that the consumer keeps:

* a shift appends one item, which adopts the last `children` items (more than none only for the
  placeholder of a finished nested grammar);
* a reduction replaces the `children` items in front of the last `hoisted` ones by one item;
* a diagnostic reports a mismatch that was recovered from and adds nothing.

Positions are 64-bit offsets; a token that would end beyond them has no end.
-/

namespace LRMachine

/-- A stretch of the input. -/
structure Span where
  start : Nat
  stop : Nat
deriving DecidableEq, Repr

namespace Span

/-- The number of positions in a span; none if it stops before it starts. -/
def length (s : Span) : Nat := s.stop - s.start

/-- The span has no position. -/
def isEmpty (s : Span) : Bool := s.length == 0

end Span

/-- A raw term and its place in the input. -/
structure Token where
  term : Term
  start : Nat
  length : Nat
deriving DecidableEq, Repr

namespace Token

/-- The end of the input at a position. -/
def eof (position : Nat) : Token := ⟨Term.eof, position, 0⟩

/-- The position after a token, if it has 64 bits. -/
def stop? (t : Token) : Option Nat :=
  if t.start + t.length < UInt64.size then some (t.start + t.length) else none

/-- The span of a token. -/
def span? (t : Token) : Option Span := t.stop?.map (Span.mk t.start)

theorem stop?_eq_some_iff {t : Token} {stop : Nat} :
    t.stop? = some stop ↔ t.start + t.length = stop ∧ stop < UInt64.size := by
  unfold stop?
  split
  · rw [Option.some.injEq]
    exact ⟨fun h => ⟨h, h ▸ ‹_›⟩, And.left⟩
  · simp only [reduceCtorEq, false_iff, not_and]
    omega

theorem span?_eq_some_iff {t : Token} {span : Span} :
    t.span? = some span ↔ t.start = span.start ∧ t.stop? = some span.stop := by
  obtain ⟨start, stop⟩ := span
  simp only [span?, Option.map_eq_some_iff, Span.mk.injEq]
  exact ⟨fun ⟨_, h, hstart, hstop⟩ => ⟨hstart, hstop ▸ h⟩, fun ⟨hstart, h⟩ => ⟨_, h, hstart, rfl⟩⟩

theorem exists_span {t : Token} (h : t.stop?.isSome = true) : ∃ span, t.span? = some span := by
  obtain ⟨stop, hstop⟩ := Option.isSome_iff_exists.mp h
  exact ⟨⟨t.start, stop⟩, by rw [span?, hstop]; rfl⟩

theorem span?_ne_none {t : Token} (h : t.stop?.isSome = true) : t.span? ≠ none := by
  obtain ⟨span, hspan⟩ := exists_span h
  rw [hspan]
  exact Option.some_ne_none span

theorem start_lt_of_stop? {t : Token} (h : t.stop?.isSome = true) : t.start < UInt64.size := by
  obtain ⟨stop, hstop⟩ := Option.isSome_iff_exists.mp h
  have := stop?_eq_some_iff.mp hstop
  omega

end Token

/-- A mismatch that was recovered from. -/
structure Diagnostic where
  mismatch : Mismatch
  /-- The offending token became an error leaf. -/
  consumed : Bool
deriving DecidableEq, Repr

/-- A shift, as the consumer sees it. -/
structure ShiftEvent where
  term : Term
  span : Span
  children : Nat := 0
  skipped : Bool := false
deriving DecidableEq, Repr

/-- A reduction, as the consumer sees it. -/
structure ReduceEvent where
  term : Term
  span : Span
  depth : Nat := 0
  children : Nat := 0
  hoisted : Nat := 0
  /-- The reduction folds a repetition body into its repeat term. -/
  repeats : Bool := false
  skipped : Bool := false
deriving DecidableEq, Repr

/-- What the automaton reports. -/
inductive Event where
  | shift (e : ShiftEvent)
  | reduce (e : ReduceEvent)
  | diagnostic (d : Diagnostic)
deriving DecidableEq, Repr

end LRMachine
