import LRMachine.Proofs.Runs

/-!
# Invariants of runs

What holds of a new parse, is kept by every step and is kept by the way out of a nested grammar
holds at every point of a run (`Invariant.visited`). The steps of a run are made with the tokens of
the calls and with two kinds of tokens that `advance` makes up, and the way out of a nested grammar
works with the record of its entry: `Invariant` carries a property of the tokens and one of these
records along.

A step keeps what each of its changes keeps (`KeptByChanges.outcome`).
-/

namespace LRMachine

namespace Parse

variable {t : Tables} {o : Options} {u : User} {token : Token} {p q : Parse}

/-! ## Changes of a step -/

/-- Every change that a step with `token` makes keeps `I`. The frames that it puts on top of a parse
satisfy `J`. -/
structure KeptByChanges (token : Token) (I : Parse → Prop) (J : Parse → Frame → Prop) : Prop where
  recovered {p : Parse} (d : Diagnostic) : I p → I (p.recovered d)
  closed {p : Parse} : I p → I p.closed
  consumed {p : Parse} {span : Span} (term : Term) (skipped : Bool) : I p →
    token.span? = some span → I (p.consumed term span skipped)
  shifted {p : Parse} {span : Span} (term : Term) (skipped : Bool) (target : StateId) : I p →
    J (p.consumed term span skipped) ⟨target, token.start, p.shiftBase, p.shiftTail⟩
  pushed {p : Parse} (target : StateId) : I p → J p (p.frameHere target token.start)
  popped {p : Parse} {r : Reduction} {skipped : Bool} {lowest : Frame} {stack : Stack} : I p →
    Stands p r skipped lowest stack → I (p.withStack stack)
  reduced {p : Parse} {r : Reduction} {skipped : Bool} {lowest : Frame} {stack : Stack} : I p →
    Stands p r skipped lowest stack →
    I ((p.withStack stack).reduced (p.reduceEvent r skipped lowest) lowest)
  built {p : Parse} {r : Reduction} {skipped : Bool} {lowest : Frame} {stack : Stack}
    (target : StateId) : I p → Stands p r skipped lowest stack →
    J ((p.withStack stack).reduced (p.reduceEvent r skipped lowest) lowest)
      ⟨target, lowest.start, lowest.base, lowest.tail⟩
  raised {p : Parse} {f : Frame} : I p → J p f →
    p.active.stack.length < p.active.stack.limit → I (p.raised f)
  entered {p : Parse} {start : Nat} (g : Nested Tables) : I p →
    start = token.start ∨ start = p.position → I (p.entered g start)

namespace KeptByChanges

variable {I : Parse → Prop} {J : Parse → Frame → Prop}

theorem lands (h : KeptByChanges token I J) {f : Frame} {start : Nat} {made : Step} {r : Result}
    (l : Lands p f start made r) (hI : I p) (hJ : J p f)
    (hstart : start = token.start ∨ start = p.position) : I r.parse := by
  cases l with
  | full => exact hI
  | rests room => exact h.raised hI hJ room
  | enters room => exact h.entered _ (h.raised hI hJ room) hstart

theorem applies (h : KeptByChanges token I J) {term : Term} {a : Action} {r : Result}
    (happlies : Applies term token p a r) (hI : I p) : I r.parse := by
  cases happlies with
  | unspanned => exact hI
  | shift _ _ hs lands =>
    exact h.lands lands (h.consumed _ _ hI hs) (h.shifted _ _ _ hI) (.inr rfl)
  | push _ lands => exact h.lands lands hI (h.pushed _ hI) (.inl rfl)
  | skip hs => exact h.consumed _ _ hI hs
  | reduce _ reduces =>
    cases reduces with
    | underflow => exact hI
    | uncounted => exact hI
    | missing hl => exact h.popped hI hl
    | stays hl => exact h.reduced hI hl
    | goes hl _ _ _ lands => exact h.lands lands (h.reduced hI hl) (h.built _ hI hl) (.inl rfl)

theorem outcome (h : KeptByChanges token I J) {r : Result} (hout : Outcome token p r)
    (hI : I p) : I r.parse := by
  cases hout with
  | finished => exact hI
  | accepted =>
    show I (if p.suspended.isEmpty then p.closed else p)
    split
    · exact h.closed hI
    · exact hI
  | resolved _ _ _ applies => exact h.applies applies hI
  | mismatched => exact hI
  | recovered _ _ _ _ _ applies => exact h.applies applies (h.recovered _ hI)

end KeptByChanges

/-! ## Points of a run -/

/-- The token of the task satisfies `T`, and the entry of a nested grammar that it closes
satisfies `E`. -/
def Task.Meets (T : Token → Prop) (E : Suspension → Prop) : Task → Prop
  | .idle => True
  | .stepping token => T token
  | .opening token => T token
  | .driving token entry => T token ∧ E entry
  | .leaving token entry => T token ∧ E entry
  | .mounting token entry => T token ∧ E entry
  | .feeding token => T token

theorem Task.Meets.after {T : Token → Prop} {E : Suspension → Prop} {task : Task}
    (h : task.Meets T E) (made : Step) : (task.after made).Meets T E := by
  cases task with
  | idle => exact h
  | opening => exact h
  | leaving => exact h
  | stepping => trivial
  | driving token entry =>
    show (if made == .accepted then Task.leaving token entry else .driving token entry).Meets T E
    split
    · exact h
    · exact h
  | mounting token entry =>
    show (if made.consumed then Task.opening token else .mounting token entry).Meets T E
    split
    · exact h.1
    · exact h
  | feeding token =>
    show (if settles token made then Task.idle else .feeding token).Meets T E
    split
    · trivial
    · exact h

/-- The steps of the user's runs and the ways out of nested grammars keep `I`. The tokens that the
steps are made with satisfy `T`, the entries of the nested grammars satisfy `E`. -/
structure Invariant (t : Tables) (u : User) (I : Parse → Prop) (T : Token → Prop)
    (E : Suspension → Prop) : Prop where
  call {c : Call} : u.makes c → T c.token
  eof {token : Token} : T token → T (Token.eof token.start)
  placeholder {token : Token} {entry : Suspension} : T token → E entry →
    T (placeholder entry token.start)
  entry {p : Parse} {s : Suspension} : I p → Sound t p → s ∈ p.suspended → E s
  step {p : Parse} {token : Token} {r : Result} : I p → T token → Sound t p →
    Outcome token p r → I r.parse
  left {p : Parse} {entry innermost : Suspension} {outer : List Suspension} : I p → E entry →
    p.suspended = innermost :: outer → entry.base ≤ p.items →
    I (p.left entry innermost.host outer)

namespace Invariant

variable {I : Parse → Prop} {T : Token → Prop} {E : Suspension → Prop}

theorem lookahead (h : Invariant t u I T E) {task : Task} (htask : task.Meets T E)
    (hl : task.lookahead = some token) : T token := by
  cases task with
  | idle => cases hl
  | opening => cases hl
  | leaving => cases hl
  | stepping =>
    cases hl
    exact htask
  | feeding =>
    cases hl
    exact htask
  | driving =>
    cases hl
    exact h.eof htask.1
  | mounting =>
    cases hl
    exact h.placeholder htask.1 htask.2

theorem leave (h : Invariant t u I T E) {entry : Suspension} (hI : I p) (hE : E entry)
    (hq : Parse.leave entry p = .ok () q) : I q := by
  rcases leave_eq_ok hq with ⟨-, rfl⟩ | ⟨innermost, outer, hs, hle, rfl⟩
  · exact hI
  · exact h.left hI hE hs hle

/-- An invariant of a new parse holds at every point of the user's runs. -/
theorem visited (h : Invariant t u I T E) (hv : t.Valid) (hnew : I (new t o)) {x : Point}
    (hx : Visited t o u x) : I x.parse ∧ x.task.Meets T E := by
  induction hx with
  | refl => exact ⟨hnew, trivial⟩
  | @tail y z hpath hmove ih =>
    obtain ⟨hI, htask⟩ := ih
    have hsound : Sound t y.parse := Visited.sound hv hpath
    cases hmove with
    | callStep hc => exact ⟨hI, h.call hc⟩
    | callAdvance hc => exact ⟨hI, h.call hc⟩
    | close hs => exact ⟨hI, htask, h.entry hI hsound (by rw [hs]; exact List.mem_cons_self)⟩
    | feed => exact ⟨hI, htask⟩
    | made _ hl hstep =>
      exact ⟨h.step hI (h.lookahead htask hl) hsound (hsound.step hv hstep).1, htask.after _⟩
    | left hleave => exact ⟨h.leave hI htask.2 hleave, htask⟩
    | failed _ _ hl hstep =>
      exact ⟨h.step hI (h.lookahead htask hl) hsound (hsound.step hv hstep).1, trivial⟩

end Invariant

end Parse

end LRMachine
