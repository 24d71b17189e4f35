import LRMachine.Proofs.Conditions
import LRMachine.Proofs.Runs

/-!
# Runs of a single grammar

Where no state starts a nested grammar, one grammar runs at every point and nothing is ever mounted
(`Parse.Alone`). What every step keeps then holds at every point of a run (`Visited.kept`), and
feeding a token is a loop of steps with that token (`advance_ends`).

An input ends with the first end of input among its tokens, or with one behind the last of them
(`endToken`).
-/

namespace LRMachine

theorem Nesting.eq_nil {t u : Tables} {suspended : List Suspension} (h : Nesting t u suspended)
    (hn : t.Nestless) : suspended = [] := by
  induction h with
  | outermost => rfl
  | inner host _ hd hi _ ih =>
    rw [host.eq_of_nil ih] at hd
    rw [hn _ _ hd] at hi
    cases hi

namespace Parse

variable {t : Tables} {o : Options} {u : User} {token : Token} {p q : Parse}

/-! ## One level -/

theorem Sound.suspended_eq (h : Sound t p) (hn : t.Nestless) : p.suspended = [] :=
  h.nesting.eq_nil hn

theorem Sound.tables_eq (h : Sound t p) (hn : t.Nestless) : p.tables = t :=
  h.nesting.eq_of_nil (h.suspended_eq hn)

/-- The levels are sound and no items are mounted. -/
structure Alone (t : Tables) (p : Parse) : Prop where
  sound : Sound t p
  mount_eq : p.mount = 0

theorem alone_new (hv : t.Valid) (o : Options) : Alone t (new t o) := ⟨sound_new hv o, rfl⟩

theorem Lands.mount_eq {f : Frame} {start : Nat} {made : Step} {r : Result}
    (h : Lands p f start made r) : r.parse.mount = p.mount := by
  cases h <;> rfl

theorem Applies.mount_eq {term : Term} {a : Action} {r : Result} (h : Applies term token p a r)
    (hm : p.mount = 0) : r.parse.mount = 0 := by
  cases h with
  | unspanned => exact hm
  | shift _ _ _ lands => exact lands.mount_eq
  | push _ lands => exact lands.mount_eq.trans hm
  | skip => rfl
  | reduce _ reduces =>
    cases reduces with
    | goes _ _ _ _ lands => exact lands.mount_eq.trans hm
    | _ => exact hm

theorem Outcome.mount_eq {r : Result} (h : Outcome token p r) (hm : p.mount = 0) :
    r.parse.mount = 0 := by
  cases h with
  | accepted =>
    show (if p.suspended.isEmpty then p.closed else p).mount = 0
    split <;> exact hm
  | resolved _ _ _ applies => exact applies.mount_eq hm
  | recovered _ _ _ _ _ applies => exact applies.mount_eq hm
  | _ => exact hm

theorem Alone.step (h : Alone t p) (hv : t.Valid) {r : Result} (hr : Parse.step token p = r) :
    Outcome token p r ∧ Alone t r.parse := by
  obtain ⟨hout, hsound⟩ := h.sound.step hv hr
  exact ⟨hout, hsound, hout.mount_eq h.mount_eq⟩

/-! ## Steps that stay in a grammar -/

/-- The same grammars run, and the stack of the innermost one stands on the same frame. -/
structure SameLevel (p q : Parse) : Prop where
  suspended_eq : q.suspended = p.suspended
  tables_eq : q.tables = p.tables
  bottom_eq : q.active.stack.bottom = p.active.stack.bottom

theorem SameLevel.refl (p : Parse) : SameLevel p p := ⟨rfl, rfl, rfl⟩

theorem SameLevel.trans {x : Parse} (h : SameLevel p q) (h' : SameLevel q x) : SameLevel p x :=
  ⟨h'.suspended_eq.trans h.suspended_eq, h'.tables_eq.trans h.tables_eq,
    h'.bottom_eq.trans h.bottom_eq⟩

theorem Lands.sameLevel {f : Frame} {start : Nat} {made : Step} {r : Result}
    (l : Lands p f start made r) (hn : p.tables.Nestless) : SameLevel p r.parse := by
  cases l with
  | full => exact .refl p
  | rests => exact ⟨rfl, rfl, rfl⟩
  | enters _ hd hi =>
    rw [hn _ _ hd] at hi
    cases hi

theorem Applies.sameLevel {term : Term} {a : Action} {r : Result} (h : Applies term token p a r)
    (hn : p.tables.Nestless) : SameLevel p r.parse := by
  cases h with
  | unspanned => exact .refl p
  | @shift _ d span _ _ _ _ lands =>
    exact .trans (q := p.consumed term span d.isSkipped) ⟨rfl, rfl, rfl⟩ (lands.sameLevel hn)
  | push _ lands => exact lands.sameLevel hn
  | skip => exact ⟨rfl, rfl, rfl⟩
  | @reduce r d _ _ reduces =>
    cases reduces with
    | underflow => exact .refl p
    | uncounted => exact .refl p
    | missing hl => exact ⟨rfl, rfl, hl.bottom_eq⟩
    | stays hl => exact ⟨rfl, rfl, hl.bottom_eq⟩
    | @goes lowest stack _ _ hl _ _ _ lands =>
      exact .trans (q := (p.withStack stack).reduced (p.reduceEvent r d.isSkipped lowest) lowest)
        ⟨rfl, rfl, hl.bottom_eq⟩ (lands.sameLevel hn)

/-- A step over tables without nested grammars stays in its grammar, whatever it comes to. -/
theorem Outcome.sameLevel {r : Result} (h : Outcome token p r) (hn : p.tables.Nestless) :
    SameLevel p r.parse := by
  cases h with
  | finished => exact .refl p
  | mismatched => exact .refl p
  | accepted =>
    show SameLevel p (if p.suspended.isEmpty then p.closed else p)
    split <;> exact ⟨rfl, rfl, rfl⟩
  | resolved _ _ _ applies => exact applies.sameLevel hn
  | @recovered m a _ _ _ _ _ _ applies =>
    exact .trans (q := p.recovered ⟨m, a.consumes⟩) ⟨rfl, rfl, rfl⟩ (applies.sameLevel hn)

/-! ## Runs -/

/-- The task has a token with the given property, and it closes no nested grammar. -/
def Task.Feeds (P : Token → Prop) : Task → Prop
  | .idle => True
  | .stepping token => P token
  | .opening token => P token
  | .feeding token => P token
  | _ => False

theorem Task.Feeds.lookahead {P : Token → Prop} {task : Task} (h : task.Feeds P)
    (hl : task.lookahead = some token) : P token := by
  cases task with
  | driving | mounting => exact h.elim
  | stepping | feeding =>
    cases hl
    exact h
  | _ => cases hl

theorem Task.Feeds.after {P : Token → Prop} {task : Task} (h : task.Feeds P) (made : Step) :
    (task.after made).Feeds P := by
  cases task with
  | feeding token =>
    show (if settles token made then Task.idle else .feeding token).Feeds P
    split
    · trivial
    · exact h
  | driving | leaving | mounting => exact h.elim
  | idle | stepping => trivial
  | opening => exact h

/-- What holds of a new parse and is kept by every step with a token of the user's calls, whatever
the step comes to, holds at every point of the user's runs. -/
theorem Visited.kept {I : Parse → Prop} (hv : t.Valid) (hn : t.Nestless) (hnew : I (new t o))
    (hkeep : ∀ {p token r}, Alone t p → I p → (∃ c, u.makes c ∧ c.token = token) →
      Outcome token p r → I r.parse) {x : Point} (h : Visited t o u x) : I x.parse := by
  suffices hall : Alone t x.parse ∧ I x.parse ∧
      x.task.Feeds fun token => ∃ c, u.makes c ∧ c.token = token from hall.2.1
  induction h with
  | refl => exact ⟨alone_new hv o, hnew, trivial⟩
  | tail _ hmove ih =>
    obtain ⟨halone, hI, htask⟩ := ih
    cases hmove with
    | callStep hc => exact ⟨halone, hI, _, hc, rfl⟩
    | callAdvance hc => exact ⟨halone, hI, _, hc, rfl⟩
    | close hs =>
      rw [halone.sound.suspended_eq hn] at hs
      cases hs
    | feed => exact ⟨halone, hI, htask⟩
    | made _ hl hstep =>
      obtain ⟨hout, hafter⟩ := halone.step hv hstep
      exact ⟨hafter, hkeep halone hI (htask.lookahead hl) hout, htask.after _⟩
    | left => exact htask.elim
    | failed _ _ hl hstep =>
      obtain ⟨hout, hafter⟩ := halone.step hv hstep
      exact ⟨hafter, hkeep halone hI (htask.lookahead hl) hout, trivial⟩

theorem Visited.alone (hv : t.Valid) (hn : t.Nestless) {x : Point} (h : Visited t o u x) :
    Alone t x.parse :=
  h.kept (I := Alone t) hv hn (alone_new hv o) fun halone _ _ hout =>
    ⟨hout.sound halone.sound hv, hout.mount_eq halone.mount_eq⟩

/-! ## Loops of steps -/

/-- A loop of steps with a token ends with a wanted step or in a step that fails, on a parse of the
given kind; or it is out of steps there. -/
def StepEnds (I : Parse → Prop) (wanted : Step → Bool) (token : Token) : Result → Prop
  | .ok made q => wanted made = true ∧ ∃ x, I x ∧ step token x = .ok made q
  | .error h q => (∃ x, I x ∧ step token x = .error h q) ∨ I q ∧ h = .exhausted

section Loops

variable {I : Parse → Prop}

theorem stepUntil_ends {wanted : Step → Bool}
    (hkeep : ∀ {p made q}, I p → step token p = .ok made q → wanted made = false → I q) :
    ∀ fuel {p}, I p → StepEnds I wanted token (stepUntil wanted token fuel p) := by
  intro fuel
  induction fuel with
  | zero => exact fun h => .inr ⟨h, rfl⟩
  | succ fuel ih =>
    intro p h
    rw [run_stepUntil]
    cases hstep : step token p with
    | error halt q => exact .inl ⟨p, h, hstep⟩
    | ok made q =>
      dsimp only
      by_cases hw : wanted made = true
      · rw [if_pos hw]
        exact ⟨hw, p, h, hstep⟩
      · rw [if_neg hw]
        exact ih (hkeep h hstep (by simpa using hw))

/-- With no nested grammar to close, feeding a token is a loop of steps. -/
theorem run_advance (hs : p.suspended = []) (hf : p.finished = false) (fuel : Nat) :
    advance (fuel + 1) token p = stepUntil (settles token) token (fuel + 1) p := by
  have hclose : closeNests (fuel + 1) token (fuel + 1) p = .ok () p := by
    simp only [closeNests, run_bind, run_get, hs, run_pure]
  simp only [advance, run_bind, run_get, hf, Bool.false_eq_true, if_false, hclose]

theorem advance_ends (hI : ∀ {p}, I p → p.suspended = [])
    (hkeep : ∀ {p made q}, I p → step token p = .ok made q → settles token made = false → I q)
    (fuel : Nat) (h : I p) : StepEnds I (settles token) token (advance fuel token p) := by
  cases hf : p.finished with
  | true =>
    rw [run_advance_finished fuel hf]
    refine .inl ⟨p, h, ?_⟩
    simp only [step, run_bind, run_get, hf, if_true, run_fail]
  | false =>
    cases fuel with
    | zero =>
      simp only [advance, run_bind, run_get, hf, Bool.false_eq_true, if_false, closeNests,
        run_throw]
      exact .inr ⟨h, rfl⟩
    | succ fuel =>
      rw [run_advance (hI h) hf]
      exact stepUntil_ends hkeep (fuel + 1) h

end Loops

end Parse

/-! ## Inputs -/

/-- The tokens in front of the end of input. -/
def bodyTokens (tokens : List Token) : List Token := tokens.takeWhile (·.term != Term.eof)

/-- The end of input of a list of tokens: the first one in it, or else the one behind its last
token, where `stop` is the position in front of the list. -/
def endToken : List Token → Nat → Token
  | [], stop => Token.eof stop
  | token :: rest, _ =>
    if token.term = Term.eof then token else endToken rest (token.start + token.length)

theorem term_endToken (tokens : List Token) (stop : Nat) :
    (endToken tokens stop).term = Term.eof := by
  induction tokens generalizing stop with
  | nil => rfl
  | cons token rest ih =>
    unfold endToken
    split
    · assumption
    · exact ih _

end LRMachine
