import LRMachine.Parse.Advance
import LRMachine.Proofs.Limits
import LRMachine.Proofs.Overflow

/-!
# Decisions do not depend on positions

A parse reads positions from its tokens and writes them into events and errors; it never decides
anything by them. `Parse.atOrigin` moves every position of a parse to 0 and leaves the terms, the
states and all counters alone. Where tokens end within 64 bits, running a computation and moving the
parse commute: `Moves` states this for one computation, with a lemma for each of the functions that
a parse is made of. Hence two lists with the same terms, whose parses at the origin are one and the
same, come to the same end with the same events (`sameEnd_of_same_terms`).
-/

namespace LRMachine

/-! ## Positions moved to 0 -/

/-- The empty token at 0 with the same term. -/
def Token.atOrigin (token : Token) : Token := ⟨token.term, 0, 0⟩

/-- The report without its position. -/
def Mismatch.atOrigin (m : Mismatch) : Mismatch := { m with position := 0 }

/-- The error without the position of a mismatch. -/
def Error.atOrigin : Error → Error
  | .unexpected m => .unexpected m.atOrigin
  | e => e

/-- The halt without the position of a mismatch. -/
def Halt.atOrigin : Halt → Halt
  | .error e => .error e.atOrigin
  | h => h

/-- The event with an empty span at 0, or without the position of its mismatch. -/
def Event.atOrigin : Event → Event
  | .shift e => .shift { e with span := ⟨0, 0⟩ }
  | .reduce e => .reduce { e with span := ⟨0, 0⟩ }
  | .diagnostic d => .diagnostic { d with mismatch := d.mismatch.atOrigin }

/-- The frame with content that begins at 0. -/
def Frame.atOrigin (f : Frame) : Frame := { f with start := 0 }

/-- The stack with all frames at 0. -/
def Stack.atOrigin (s : Stack) : Stack where
  bottom := s.bottom.atOrigin
  above := s.above.map Frame.atOrigin
  height := s.height
  limit := s.limit
  height_eq := by simp [s.height_eq]

/-- The grammar with its stack at 0. -/
def Level.atOrigin (l : Level) : Level := { l with stack := l.stack.atOrigin }

/-- The suspended grammar with all its positions at 0. -/
def Suspension.atOrigin (s : Suspension) : Suspension :=
  { s with host := s.host.atOrigin, start := 0, contentEnd := 0 }

namespace Stack

theorem state_atOrigin (s : Stack) : s.atOrigin.state = s.state := by
  obtain ⟨bottom, above, height, limit, hheight⟩ := s
  cases above <;> rfl

theorem push_atOrigin (s : Stack) (f : Frame) :
    s.atOrigin.push f.atOrigin = (s.push f).map atOrigin := by
  unfold push
  show (if s.limit ≤ s.length then _ else _) = _
  split <;> rfl

theorem lower_atOrigin (s : Stack) (n : Nat) : s.atOrigin.lower n = (s.lower n).atOrigin := by
  simp [lower, atOrigin, List.map_drop]

theorem pop_atOrigin (s : Stack) (depth : Nat) :
    s.atOrigin.pop depth = (s.pop depth).map fun (f, below) => (f.atOrigin, below.atOrigin) := by
  cases depth with
  | zero => rfl
  | succ n =>
    have habove : s.atOrigin.above[n]? = s.above[n]?.map Frame.atOrigin := List.getElem?_map
    simp only [pop, habove, lower_atOrigin]
    cases s.above[n]? <;> rfl

end Stack

namespace Parse

/-- The parse with all positions at 0, those of its events included. -/
def atOrigin (p : Parse) : Parse :=
  { p with
    active := p.active.atOrigin
    suspended := p.suspended.map Suspension.atOrigin
    position := 0
    contentEnd := 0
    log := p.log.map Event.atOrigin }

variable {t : Tables} {o : Options} {token : Token} {p q : Parse}

theorem events_atOrigin (p : Parse) : p.atOrigin.events = p.events.map Event.atOrigin :=
  List.map_reverse.symm

theorem state_atOrigin (p : Parse) : p.atOrigin.state = p.state := Stack.state_atOrigin _

theorem floor_atOrigin (p : Parse) : p.atOrigin.floor = p.floor := by
  unfold floor atOrigin
  cases p.suspended <;> rfl

theorem emptyFrame_atOrigin (p : Parse) (skipped : Bool) :
    p.atOrigin.emptyFrame skipped = (p.emptyFrame skipped).atOrigin := by
  unfold emptyFrame frameHere
  rw [state_atOrigin, floor_atOrigin]
  cases skipped <;> rfl

theorem consumed_atOrigin (p : Parse) (term : Term) (span : Span) (skipped : Bool) :
    p.atOrigin.consumed term ⟨0, 0⟩ skipped = (p.consumed term span skipped).atOrigin := by
  cases skipped <;> rfl

theorem reduced_atOrigin (p : Parse) (r : Reduction) (skipped : Bool) (lowest : Frame) :
    p.atOrigin.reduced (p.atOrigin.reduceEvent r skipped lowest.atOrigin) lowest.atOrigin =
      (p.reduced (p.reduceEvent r skipped lowest) lowest).atOrigin := by
  cases skipped <;> rfl

theorem mismatch_atOrigin (p : Parse) (token : Token) :
    p.atOrigin.mismatch token.atOrigin = (p.mismatch token).map Mismatch.atOrigin := by
  unfold mismatch
  rw [state_atOrigin]
  show (p.tables.actionTerms p.state).map _ = _
  cases p.tables.actionTerms p.state <;> rfl

/-! ## Computations that commute with the move -/

/-- The second result is the first one at the origin, with the value moved by `g`. -/
inductive Moved {α : Type} (g : α → α) :
    EStateM.Result Halt Parse α → EStateM.Result Halt Parse α → Prop where
  | ok (a : α) (q : Parse) : Moved g (.ok a q) (.ok (g a) q.atOrigin)
  | error {h h' : Halt} (q : Parse) (hh : h'.atOrigin = h.atOrigin) :
    Moved g (.error h q) (.error h' q.atOrigin)

theorem Moved.eq_ok {α : Type} {g : α → α} {a : α} {s : EStateM.Result Halt Parse α}
    (h : Moved g (.ok a q) s) : s = .ok (g a) q.atOrigin := by
  cases h
  rfl

theorem Moved.eq_error {α : Type} {g : α → α} {halt : Halt} {s : EStateM.Result Halt Parse α}
    (h : Moved g (.error halt q) s) :
    ∃ halt', halt'.atOrigin = halt.atOrigin ∧ s = .error halt' q.atOrigin := by
  cases h with
  | error _ hh => exact ⟨_, hh, rfl⟩

/-- Running `y` on the parse at the origin gives what `x` gives on the parse, at the origin. -/
def Moves {α : Type} (g : α → α) (p : Parse) (x y : ParseM α) : Prop := Moved g (x p) (y p.atOrigin)

namespace Moves

variable {α β : Type} {g : α → α} {g' : β → β}

theorem pure (a : α) : Moves g p (pure a) (pure (g a)) := .ok a p

theorem throw {h h' : Halt} (hh : h'.atOrigin = h.atOrigin) :
    Moves g p (throw h) (throw h') := .error p hh

theorem set (q : Parse) : Moves id p (set q) (set q.atOrigin) := .ok () q

/-- An answer that does not depend on positions. -/
theorem lookUp (answer : Except Error α) : Moves id p (lookUp answer) (lookUp answer) := by
  cases answer with
  | error e => exact throw rfl
  | ok a => exact pure a

theorem lookUp_map (answer : Except Error α) :
    Moves g p (Parse.lookUp answer) (Parse.lookUp (answer.map g)) := by
  cases answer with
  | error e => exact throw rfl
  | ok a => exact pure a

theorem bind {x y : ParseM α} {f h : α → ParseM β} (hx : Moves g p x y)
    (hf : ∀ a q, x p = .ok a q → Moves g' q (f a) (h (g a))) :
    Moves g' p (x >>= f) (y >>= h) := by
  unfold Moves at hx ⊢
  rw [run_bind, run_bind]
  cases hfirst : x p with
  | error halt q =>
    rw [hfirst] at hx
    obtain ⟨halt', hh, hsecond⟩ := hx.eq_error
    rw [hsecond]
    exact .error q hh
  | ok a q =>
    rw [hfirst] at hx
    rw [hx.eq_ok]
    exact hf a q hfirst

theorem get_bind {f h : Parse → ParseM β} (hf : Moves g' p (f p) (h p.atOrigin)) :
    Moves g' p (get >>= f) (get >>= h) := hf

theorem modify {f h : Parse → Parse} (hf : h p.atOrigin = (f p).atOrigin) :
    Moves id p (modify f) (modify h) := by
  unfold Moves
  rw [run_modify, run_modify, hf]
  exact .ok () (f p)

end Moves

/-! ## Moves of the stack -/

theorem moves_pushFrame (p : Parse) (f : Frame) :
    Moves id p (pushFrame f) (pushFrame f.atOrigin) := by
  refine .get_bind (.bind (g := Stack.atOrigin) ?_ fun stack q _ => .set (p.withStack stack))
  show Moves _ p _ (lookUp (p.active.stack.atOrigin.push f.atOrigin))
  rw [Stack.push_atOrigin]
  exact .lookUp_map _

theorem moves_popFrames (p : Parse) (r : Reduction) (skipped : Bool) :
    Moves Frame.atOrigin p (popFrames r skipped) (popFrames r skipped) := by
  refine .get_bind ?_
  dsimp only
  split
  · rw [emptyFrame_atOrigin]
    show Moves _ p _ (if (!skipped && decide (p.items < p.skippedTail)) = true then _ else _)
    split
    · exact .throw rfl
    · exact .pure _
  · refine .bind (g := fun (f, below) => (f.atOrigin, below.atOrigin)) ?_ ?_
    · show Moves _ p _ (lookUp (p.active.stack.atOrigin.pop _))
      rw [Stack.pop_atOrigin]
      exact .lookUp_map _
    · rintro ⟨lowest, stack⟩ q -
      exact .bind (.set (p.withStack stack)) fun _ q _ => .pure lowest

theorem moves_enterNest (p : Parse) (state : StateId) (start : Nat) :
    Moves id p (enterNest state start) (enterNest state 0) := by
  refine .get_bind (.bind (.lookUp _) fun d q _ => ?_)
  dsimp only [id]
  cases d.nestIndex? with
  | none => exact .pure ()
  | some index =>
    have htables : p.atOrigin.tables = p.tables := rfl
    rw [htables]
    dsimp only
    cases p.tables.nested[index]? with
    | none => exact .throw rfl
    | some grammar => exact .set (p.entered grammar start)

/-! ## Actions -/

theorem moves_consume (ht : token.stop?.isSome = true) (p : Parse) (term : Term) (skipped : Bool) :
    Moves id p (consume term token skipped) (consume term token.atOrigin skipped) := by
  obtain ⟨span, hspan⟩ := Token.exists_span ht
  unfold consume
  rw [hspan]
  exact .modify (consumed_atOrigin p term span skipped)

theorem moves_shift (ht : token.stop?.isSome = true) (p : Parse) (target : StateId) (term : Term) :
    Moves id p (shift target term token) (shift target term token.atOrigin) := by
  refine .get_bind (.bind (.lookUp _) fun d q _ => ?_)
  refine .bind (moves_consume ht q term d.isSkipped) fun _ q _ => ?_
  refine .bind (moves_pushFrame q _) fun _ q _ => .get_bind ?_
  exact .bind (moves_enterNest q target _) fun _ q _ => .pure _

theorem moves_skip (ht : token.stop?.isSome = true) (p : Parse) (term : Term) :
    Moves id p (skip term token) (skip term token.atOrigin) :=
  .bind (moves_consume ht p term true) fun _ _ _ => .pure _

theorem moves_pushState (p : Parse) (target : StateId) (token : Token) :
    Moves id p (pushState target token) (pushState target token.atOrigin) := by
  refine .get_bind (.bind (moves_pushFrame p _) fun _ q _ => ?_)
  exact .bind (moves_enterNest q target _) fun _ q _ => .pure _

theorem moves_gotoTarget (p : Parse) (r : Reduction) :
    Moves id p (gotoTarget r) (gotoTarget r) := by
  unfold gotoTarget
  split
  · exact .pure _
  · refine .get_bind ?_
    rw [state_atOrigin]
    refine .bind (.lookUp _) fun found q _ => ?_
    cases found with
    | none => exact .throw rfl
    | some target => exact .pure _

theorem moves_reduce (p : Parse) (r : Reduction) (token : Token) :
    Moves id p (reduce r token) (reduce r token.atOrigin) := by
  refine .get_bind ?_
  rw [state_atOrigin]
  refine .bind (.lookUp _) fun d q _ => ?_
  refine .bind (moves_popFrames q r _) fun lowest q _ => ?_
  refine .bind (moves_gotoTarget q r) fun next q _ => .get_bind ?_
  refine .bind (.modify (reduced_atOrigin q r _ lowest)) fun _ q _ => ?_
  cases next with
  | none => exact .pure _
  | some target =>
    refine .bind (moves_pushFrame q _) fun _ q _ => ?_
    exact .bind (moves_enterNest q target _) fun _ q _ => .pure _

theorem moves_apply (ht : token.stop?.isSome = true) (p : Parse) (term : Term) (action : Action) :
    Moves id p (apply term action token) (apply term action token.atOrigin) := by
  cases action with
  | shift target => exact moves_shift ht p target term
  | push target => exact moves_pushState p target token
  | skip state => exact moves_skip ht p term
  | reduce r => exact moves_reduce p r token

/-! ## One step -/

theorem moves_recover (ht : token.stop?.isSome = true) (p : Parse) :
    Moves id p (recover token) (recover token.atOrigin) := by
  refine .get_bind ?_
  rw [mismatch_atOrigin, state_atOrigin]
  refine .bind (.lookUp_map _) fun m q _ => ?_
  show Moves id q _ (if p.options.maxRecoveries ≤ p.recoveries then _ else _)
  split
  · exact .throw rfl
  · refine .bind (.lookUp _) fun found q _ => ?_
    cases found with
    | none => exact .throw rfl
    | some action =>
      exact .bind (.set (p.recovered ⟨m, action.consumes⟩)) fun _ q _ =>
        moves_apply ht q Term.err action

theorem moves_accepts (p : Parse) (token : Token) :
    Moves id p (accepts token) (accepts token.atOrigin) := by
  unfold accepts
  show Moves id p _ (if token.term = Term.eof then _ else _)
  split
  · refine .get_bind ?_
    rw [state_atOrigin]
    exact .bind (.lookUp _) fun d q _ => .pure _
  · exact .pure _

theorem moves_accept (p : Parse) : Moves id p accept accept := by
  refine .bind (.modify ?_) fun _ q _ => .pure _
  have hempty : p.atOrigin.suspended.isEmpty = p.suspended.isEmpty := List.isEmpty_map
  rw [hempty]
  split <;> rfl

/-- A step makes the same decision at the origin. -/
theorem moves_step (ht : token.stop?.isSome = true) (p : Parse) :
    Moves id p (step token) (step token.atOrigin) := by
  refine .get_bind ?_
  rw [state_atOrigin]
  show Moves id p _ (if p.finished then _ else _)
  split
  · exact .throw rfl
  · refine .bind (moves_accepts p token) fun accepted q _ => ?_
    show Moves id q _ (if accepted then _ else _)
    split
    · exact moves_accept q
    · refine .bind (.lookUp _) fun found q _ => ?_
      cases found with
      | none => exact moves_recover ht q
      | some reading => exact moves_apply ht q _ _

/-! ## Runs -/

theorem moves_stepUntil (wanted : Step → Bool) (ht : token.stop?.isSome = true) :
    ∀ fuel p,
      Moves id p (stepUntil wanted token fuel) (stepUntil wanted token.atOrigin fuel) := by
  intro fuel
  induction fuel with
  | zero => exact fun _ => .throw rfl
  | succ fuel ih =>
    intro p
    refine .bind (moves_step ht p) fun made q _ => ?_
    show Moves id q _ (if wanted made then _ else _)
    split
    · exact .pure _
    · exact ih q

theorem moves_leave (p : Parse) (entry : Suspension) :
    Moves id p (leave entry) (leave entry.atOrigin) := by
  have hmap : p.atOrigin.suspended = p.suspended.map Suspension.atOrigin := rfl
  unfold Moves
  rw [run_leave, run_leave, hmap]
  cases p.suspended with
  | nil => exact .ok () p
  | cons innermost outer =>
    show Moved id _ (if p.items < entry.base then _ else _)
    dsimp only
    split
    · exact .error p rfl
    · exact .ok () (p.left entry innermost.host outer)

theorem moves_closeNest (fuel : Nat) {entry : Suspension} {position : Nat}
    (hpos : position < UInt64.size) (hstart : entry.start < UInt64.size) (p : Parse) :
    Moves id p (closeNest fuel entry position) (closeNest fuel entry.atOrigin 0) := by
  refine .bind (moves_stepUntil _ (stop?_eof hpos) fuel p) fun _ q _ => ?_
  refine .bind (moves_leave q entry) fun _ q _ => ?_
  exact .bind (moves_stepUntil _ (stop?_placeholder hstart hpos) fuel q) fun _ q _ => .pure _

section Visited

variable (hv : t.Valid) (ht : token.stop?.isSome = true)

include hv ht

theorem moves_closeNests (steps : Nat) :
    ∀ fuel {p : Parse}, Visited t o .inRange ⟨.opening token, p⟩ →
      Moves id p (closeNests steps token fuel) (closeNests steps token.atOrigin fuel) := by
  intro fuel
  induction fuel with
  | zero => exact fun _ => .throw rfl
  | succ fuel ih =>
    intro p hp
    refine .get_bind ?_
    have hmap : p.atOrigin.suspended = p.suspended.map Suspension.atOrigin := rfl
    rw [hmap]
    cases hs : p.suspended with
    | nil => exact .pure ()
    | cons entry outer =>
      show Moves id p _ (if endsNest entry token then _ else _)
      dsimp only
      split
      · rename_i hends
        -- the placeholder of the nested region ends within 64 bits, as the region begins there
        obtain ⟨hrange, -⟩ := (inRange_invariant t).visited hv (inRange_new t o) hp
        have hstart : entry.start < UInt64.size :=
          hrange.starts_lt entry (by rw [hs]; exact List.mem_cons_self)
        refine .bind (moves_closeNest steps (Token.start_lt_of_stop? ht) hstart p) fun _ q hq => ?_
        have hclosed := follows_closeNest (u := .inRange) token steps entry p
        rw [hq] at hclosed
        exact ih (Relation.ReflTransGen.trans (hp.tail (.close hs hends)) hclosed)
      · exact .pure ()

theorem moves_advance (fuel : Nat) (hp : Visited t o .inRange ⟨.idle, p⟩) :
    Moves id p (advance fuel token) (advance fuel token.atOrigin) := by
  refine .get_bind ?_
  show Moves id p _ (if p.finished then _ else _)
  split
  · exact .throw rfl
  · rename_i hf
    have hopening : Visited t o .inRange ⟨.opening token, p⟩ :=
      hp.tail (.callAdvance ht (by simpa using hf))
    exact .bind (moves_closeNests hv ht fuel fuel hopening) fun _ q _ =>
      moves_stepUntil (settles token) ht fuel q

end Visited

theorem moves_feed (hv : t.Valid) (fuel : Nat) :
    ∀ tokens {stop : Nat} {p : Parse}, (∀ token ∈ tokens, token.stop?.isSome = true) →
      stop < UInt64.size → Visited t o .inRange ⟨.idle, p⟩ →
      Moves id p (feed fuel tokens stop) (feed fuel (tokens.map Token.atOrigin) 0) := by
  intro tokens
  induction tokens with
  | nil =>
    intro stop p _ hstop hp
    exact .bind (moves_advance hv (stop?_eof hstop) fuel hp) fun _ q _ => .pure _
  | cons token rest ih =>
    intro stop p htokens _ hp
    obtain ⟨htoken, hrest⟩ := List.forall_mem_cons.mp htokens
    obtain ⟨behind, hbehind⟩ := Option.isSome_iff_exists.mp htoken
    rw [List.map_cons]
    unfold feed
    rw [hbehind]
    refine .bind (moves_advance hv htoken fuel hp) fun made q hq => ?_
    show Moves id q _ (if made = .accepted then _ else _)
    split
    · exact .pure _
    · exact ih hrest (Token.stop?_eq_some_iff.mp hbehind).2 (hp.advance_ok htoken hq)

/-! ## Lists with the same terms -/

/-- Two parses over the tables come to the same end: both accept, both fail with the same error, the
position of a mismatch apart, both stop with an overflow on the way out of a nested grammar that
lacks items, or both use up their rounds. -/
inductive SameEnd (t : Tables) (o : Options) :
    EStateM.Result Halt Parse Unit → EStateM.Result Halt Parse Unit → Prop where
  | accepted (q q' : Parse) : SameEnd t o (.ok () q) (.ok () q')
  | failed {e e' : Error} (q q' : Parse) (h : e.atOrigin = e'.atOrigin) :
    SameEnd t o (.error (.error e) q) (.error (.error e') q')
  | overflowed {q q' : Parse} (h : LacksItems t o q) (h' : LacksItems t o q') :
    SameEnd t o (.error .overflow q) (.error .overflow q')
  | exhausted (q q' : Parse) : SameEnd t o (.error .exhausted q) (.error .exhausted q')

/-- Two results that are one and the same at the origin are the same end. -/
theorem Moved.sameEnd {r r' s : EStateM.Result Halt Parse Unit} (h : Moved id r s)
    (h' : Moved id r' s) (hr : ∀ q, r = .error .overflow q → LacksItems t o q)
    (hr' : ∀ q, r' = .error .overflow q → LacksItems t o q) :
    SameEnd t o r r' ∧ (final r).atOrigin = (final r').atOrigin := by
  cases r with
  | ok a q =>
    obtain rfl := h.eq_ok
    cases r' with
    | ok a' q' =>
      obtain ⟨-, hq⟩ := EStateM.Result.ok.inj h'.eq_ok
      exact ⟨.accepted q q', hq⟩
    | error halt' q' =>
      obtain ⟨_, -, hs⟩ := h'.eq_error
      cases hs
  | error halt q =>
    obtain ⟨moved, hmoved, rfl⟩ := h.eq_error
    cases r' with
    | ok a' q' => cases h'.eq_ok
    | error halt' q' =>
      obtain ⟨_, hmoved', hs⟩ := h'.eq_error
      obtain ⟨rfl, hq⟩ := EStateM.Result.error.inj hs
      refine ⟨?_, hq⟩
      have hhalt : halt.atOrigin = halt'.atOrigin := hmoved.symm.trans hmoved'
      cases halt with
      | error e =>
        cases halt' with
        | error e' => exact .failed q q' (Halt.error.inj hhalt)
        | overflow | exhausted => cases hhalt
      | overflow =>
        cases halt' with
        | overflow => exact .overflowed (hr q rfl) (hr' q' rfl)
        | error | exhausted => cases hhalt
      | exhausted =>
        cases halt' with
        | exhausted => exact .exhausted q q'
        | error | overflow => cases hhalt

/-- At the origin a parse depends on the terms alone. -/
theorem moves_parse (hv : t.Valid) (o : Options) {tokens : List Token}
    (htokens : ∀ token ∈ tokens, token.stop?.isSome = true) (fuel : Nat) :
    Moved id (parse fuel t tokens o)
      (parse fuel t ((tokens.map Token.term).map fun term => ⟨term, 0, 0⟩) o) := by
  have hmoves := moves_feed (o := o) hv fuel tokens htokens (Nat.zero_lt_succ _) .refl
  rw [List.map_map]
  exact hmoves

/-- Two lists with the same terms, whose tokens end within 64 bits, wherever these stand: with the
same number of rounds both parses come to the same end, and they have reported the same events,
spans and the positions of mismatches apart. -/
theorem sameEnd_of_same_terms (hv : t.Valid) (o : Options) {tokens tokens' : List Token}
    (hterms : tokens.map Token.term = tokens'.map Token.term)
    (htokens : ∀ token ∈ tokens, token.stop?.isSome = true)
    (htokens' : ∀ token ∈ tokens', token.stop?.isSome = true) (fuel : Nat) :
    SameEnd t o (parse fuel t tokens o) (parse fuel t tokens' o) ∧
      (final (parse fuel t tokens o)).events.map Event.atOrigin =
        (final (parse fuel t tokens' o)).events.map Event.atOrigin := by
  have hmoved := moves_parse hv o htokens fuel
  have hmoved' := moves_parse hv o htokens' fuel
  rw [← hterms] at hmoved'
  obtain ⟨hend, hfinal⟩ := hmoved.sameEnd hmoved'
    (fun _ => lacksItems_of_parse hv htokens) (fun _ => lacksItems_of_parse hv htokens')
  rw [← events_atOrigin, ← events_atOrigin, hfinal]
  exact ⟨hend, rfl⟩

/-- A word that is read by recovery, once behind the opening 3 and once in front of it. -/
theorem sameEnd_of_same_terms_tolerant :
    tolerant.Valid ∧ ∃ q q', parse 2 tolerant [⟨3, 0, 1⟩, ⟨9, 1, 1⟩] {} = .ok () q ∧
      parse 2 tolerant [⟨3, 6, 2⟩, ⟨9, 4, 0⟩] {} = .ok () q' ∧ q.events ≠ q'.events ∧
      q.events.map Event.atOrigin = q'.events.map Event.atOrigin := by
  have hterms : List.map Token.term [⟨3, 0, 1⟩, ⟨9, 1, 1⟩] =
      List.map Token.term [⟨3, 6, 2⟩, ⟨9, 4, 0⟩] := rfl
  obtain ⟨-, hevents⟩ :=
    sameEnd_of_same_terms tolerant_valid {} hterms (by decide) (by decide) 2
  have hdiffer : (match parse 2 tolerant [⟨3, 0, 1⟩, ⟨9, 1, 1⟩] {},
        parse 2 tolerant [⟨3, 6, 2⟩, ⟨9, 4, 0⟩] {} with
      | .ok _ q, .ok _ q' => q.events != q'.events
      | _, _ => false) = true := by decide +kernel
  split at hdiffer
  · rename_i q _ q' hrun hrun'
    rw [hrun, hrun'] at hevents
    exact ⟨tolerant_valid, q, q', hrun, hrun', by simpa using hdiffer, hevents⟩
  · cases hdiffer

end Parse

end LRMachine
