import LRMachine.Proofs.Runs

/-!
# Errors of runs

`Tables.check` promises that no lookup of a parse fails. The main statement, `error_arisesInRuns`,
keeps the promise for every user: over tables that were obtained in any of the ways there are, a
call fails only because a stack is too low or too high, a goto is missing, the parse was finished or
the token does not fit. No fault of the tables shows, also after earlier errors and inside nested
grammars.
-/

namespace LRMachine

/-- The errors that a parse over valid tables can come to. -/
def Error.arisesInRuns : Error → Bool
  | stackUnderflow _ _ => true
  | stackOverflow _ => true
  | missingGoto _ _ => true
  | parseFinished => true
  | unexpected _ => true
  | _ => false

namespace Parse

variable {token : Token} {p : Parse} {r : Result}

/-- If the result is an error, it is one that arises in runs. -/
def Result.Regular : Result → Prop
  | .error (.error e) _ => e.arisesInRuns = true
  | _ => True

/-! ## The errors of a step -/

theorem Lands.regular {f : Frame} {start : Nat} {made : Step} (h : Lands p f start made r) :
    r.Regular := by
  cases h with
  | full => exact rfl
  | rests => trivial
  | enters => trivial

theorem Reduces.regular {red : Reduction} {skipped : Bool} (h : Reduces token red skipped p r) :
    r.Regular := by
  cases h with
  | underflow => exact rfl
  | uncounted => trivial
  | missing => exact rfl
  | stays => trivial
  | goes _ _ _ _ lands => exact lands.regular

theorem Applies.regular {term : Term} {a : Action} (h : Applies term token p a r) : r.Regular := by
  cases h with
  | unspanned => trivial
  | shift _ _ _ lands => exact lands.regular
  | push _ lands => exact lands.regular
  | skip => trivial
  | reduce _ reduces => exact reduces.regular

theorem Outcome.regular (h : Outcome token p r) : r.Regular := by
  cases h with
  | finished => exact rfl
  | accepted => trivial
  | resolved _ _ _ applies => exact applies.regular
  | mismatched => exact rfl
  | recovered _ _ _ _ _ applies => exact applies.regular

/-! ## The errors of a call -/

/-- Over tables that were obtained in any way, a call by anyone at any time fails only with an error
that arises in runs, never with a fault of the tables. -/
theorem error_arisesInRuns {t : Tables} (ht : t.Obtained) (o : Options) {p : Parse}
    (hp : Reachable t o .anyone p) (c : Call) (fuel : Nat) {e : Error} {q : Parse}
    (h : c.run fuel p = .error (.error e) q) : e.arisesInRuns = true := by
  have hv := ht.valid
  rcases step_error_of_call (u := .anyone) trivial h with ⟨-, rfl, -⟩ | ⟨y, token, hpath, -, hstep⟩
  · rfl
  · have hsound := Visited.sound hv (Relation.ReflTransGen.trans hp.visited hpath)
    have hregular := (hsound.step hv hstep).1.regular
    exact hregular

/-- A second number after the first does not fit, in a parse that has consumed the first. -/
theorem error_arisesInRuns_of_second_number :
    Grammar.sum.Obtained ∧ ∃ p m q, Reachable Grammar.sum {} .anyone p ∧
      (Call.advance ⟨3, 1, 1⟩).run 2 p = .error (.error (.unexpected m)) q ∧
      (Error.unexpected m).arisesInRuns = true := by
  have hp := Reachable.new (t := Grammar.sum) (o := {}) (u := .anyone)
  have hq := hp.ok (.advance ⟨3, 0, 1⟩) 2 trivial rfl
  refine ⟨Grammar.sum_obtained, _, _, _, hq, rfl, ?_⟩
  exact error_arisesInRuns Grammar.sum_obtained {} hq (.advance ⟨3, 1, 1⟩) 2 rfl

end Parse

end LRMachine
