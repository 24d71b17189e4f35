import LRMachine.Parse.Step
import LRMachine.Proofs.CheckedTables

/-!
# The outcomes of a step

`Parse.Outcome` lists everything that one step can do on valid tables: the parse it leaves, whether
it succeeds, and the lookups that led there. `Parse.outcome_step` proves the list complete. The
invariants of a parse are proved by cases on it and do not open the definition of a step again.

The constructors follow the functions of a step: `Lands` puts a frame on top and enters the nested
grammar of its state, `Stands` finds the frame under a reduction, `Reduces` and `Applies` carry out
an action.
-/

namespace LRMachine

/-- Every state on the stack has a record in the tables. -/
def Level.InTables (l : Level) : Prop := ∀ f ∈ l.stack.frames, f.state.toNat < l.tables.stateCount

theorem Level.InTables.top {l : Level} (h : l.InTables) :
    l.stack.state.toNat < l.tables.stateCount := by
  apply h
  unfold Stack.top Stack.frames
  cases l.stack.above <;> simp

namespace Parse

/-- What a step comes to. -/
abbrev Result := EStateM.Result Halt Parse Step

/-- The parse that a step leaves. -/
def Result.parse : Result → Parse
  | .ok _ q => q
  | .error _ q => q

/-- The parse with one more frame on top. -/
def raised (p : Parse) (f : Frame) : Parse := p.withStack (p.active.stack.raise f)

/-! ## What can happen -/

/-- A frame is put on top, and the nested grammar that its state starts is entered. -/
inductive Lands (p : Parse) (f : Frame) (start : Nat) (made : Step) : Result → Prop where
  | full (h : p.active.stack.limit ≤ p.active.stack.length) :
    Lands p f start made (.error (.error (.stackOverflow p.active.stack.limit)) p)
  | rests {d : Descriptor} (room : p.active.stack.length < p.active.stack.limit)
    (hd : p.tables.descriptor f.state = .ok d) (hi : d.nestIndex? = none) :
    Lands p f start made (.ok made (p.raised f))
  | enters {d : Descriptor} {i : Nat} {g : Nested Tables}
    (room : p.active.stack.length < p.active.stack.limit)
    (hd : p.tables.descriptor f.state = .ok d) (hi : d.nestIndex? = some i)
    (hg : p.tables.nested[i]? = some g) :
    Lands p f start made (.ok made ((p.raised f).entered g start))

/-- The frame that a reduction stands on, and the stack that it leaves. -/
inductive Stands (p : Parse) (r : Reduction) (skipped : Bool) : Frame → Stack → Prop where
  | empty (hd : r.depth = 0) (hc : skipped = true ∨ p.skippedTail ≤ p.items) :
    Stands p r skipped (p.emptyFrame skipped) p.active.stack
  | popped {n : Nat} {f : Frame} (hd : r.depth.toNat = n + 1)
    (hf : p.active.stack.above[n]? = some f) :
    Stands p r skipped f (p.active.stack.lower (n + 1))

/-- A reduction is carried out. -/
inductive Reduces (token : Token) (r : Reduction) (skipped : Bool) (p : Parse) : Result → Prop where
  | underflow (depth available : Nat) :
    Reduces token r skipped p (.error (.error (.stackUnderflow depth available)) p)
  | uncounted (hd : r.depth = 0) (hs : skipped = false) (hc : p.items < p.skippedTail) :
    Reduces token r skipped p (.error .overflow p)
  | missing {lowest : Frame} {stack : Stack} (hl : Stands p r skipped lowest stack)
    (hstay : r.stays = false) :
    Reduces token r skipped p
      (.error (.error (.missingGoto stack.state r.term)) (p.withStack stack))
  | stays {lowest : Frame} {stack : Stack} (hl : Stands p r skipped lowest stack)
    (hstay : r.stays = true) :
    Reduces token r skipped p
      (.ok .reduced ((p.withStack stack).reduced (p.reduceEvent r skipped lowest) lowest))
  | goes {lowest : Frame} {stack : Stack} {target : StateId} {result : Result}
    (hl : Stands p r skipped lowest stack) (hstay : r.stays = false)
    (hgoto : p.tables.goto stack.state r.term = .ok (some target))
    (ht : target.toNat < p.tables.stateCount)
    (lands : Lands ((p.withStack stack).reduced (p.reduceEvent r skipped lowest) lowest)
      ⟨target, lowest.start, lowest.base, lowest.tail⟩ token.start .reduced result) :
    Reduces token r skipped p result

/-- An action is carried out for a token that was read as `term`. -/
inductive Applies (term : Term) (token : Token) (p : Parse) : Action → Result → Prop where
  | unspanned {a : Action} (ha : a.consumes = true) (hs : token.span? = none) :
    Applies term token p a (.error .overflow p)
  | shift {target : StateId} {d : Descriptor} {span : Span} {result : Result}
    (ht : target.toNat < p.tables.stateCount) (hd : p.tables.descriptor target = .ok d)
    (hs : token.span? = some span)
    (lands : Lands (p.consumed term span d.isSkipped)
      ⟨target, token.start, p.shiftBase, p.shiftTail⟩
      (p.consumed term span d.isSkipped).position .shifted result) :
    Applies term token p (.shift target) result
  | push {target : StateId} {result : Result} (ht : target.toNat < p.tables.stateCount)
    (lands : Lands p (p.frameHere target token.start) token.start .pushed result) :
    Applies term token p (.push target) result
  | skip {state : StateId} {span : Span} (hs : token.span? = some span) :
    Applies term token p (.skip state) (.ok .skipped (p.consumed term span true))
  | reduce {r : Reduction} {d : Descriptor} {result : Result}
    (hd : p.tables.descriptor p.state = .ok d)
    (reduces : Reduces token r d.isSkipped p result) :
    Applies term token p (.reduce r) result

/-- The outcomes of a step. -/
inductive Outcome (token : Token) (p : Parse) : Result → Prop where
  | finished (hf : p.finished = true) : Outcome token p (.error (.error .parseFinished) p)
  | accepted {d : Descriptor} (hf : p.finished = false) (ht : token.term = Term.eof)
    (hd : p.tables.descriptor p.state = .ok d) (ha : d.isAccepting = true) :
    Outcome token p (.ok .accepted (if p.suspended.isEmpty then p.closed else p))
  | resolved {term : Term} {a : Action} {result : Result} (hf : p.finished = false)
    (hr : p.tables.resolve p.state token.term = .ok (some (term, a)))
    (ha : p.tables.action p.state term = .ok (some a))
    (applies : Applies term token p a result) : Outcome token p result
  | mismatched {m : Mismatch} (hf : p.finished = false)
    (hr : p.tables.resolve p.state token.term = .ok none) (hm : p.mismatch token = .ok m) :
    Outcome token p (.error (.error (.unexpected m)) p)
  | recovered {m : Mismatch} {a : Action} {result : Result} (hf : p.finished = false)
    (hr : p.tables.resolve p.state token.term = .ok none) (hm : p.mismatch token = .ok m)
    (hmax : p.recoveries < p.options.maxRecoveries)
    (ha : p.tables.action p.state Term.err = .ok (some a))
    (applies : Applies Term.err token (p.recovered ⟨m, a.consumes⟩) a result) :
    Outcome token p result

/-! ## Acceptance -/

theorem Lands.made_eq {p q : Parse} {f : Frame} {start : Nat} {made made' : Step}
    (h : Lands p f start made (.ok made' q)) : made' = made := by
  cases h with
  | rests => rfl
  | enters => rfl

/-- Putting a frame on top and entering a nested grammar report nothing. -/
theorem Lands.log_eq {p : Parse} {f : Frame} {start : Nat} {made : Step} {r : Result}
    (h : Lands p f start made r) : r.parse.log = p.log := by
  cases h <;> rfl

theorem Lands.items_eq {p : Parse} {f : Frame} {start : Nat} {made : Step} {r : Result}
    (h : Lands p f start made r) : r.parse.items = p.items := by
  cases h <;> rfl

theorem Applies.made_ne_accepted {p q : Parse} {term : Term} {token : Token} {a : Action}
    {made : Step} (h : Applies term token p a (.ok made q)) : made ≠ .accepted := by
  cases h with
  | shift _ _ _ lands => rw [lands.made_eq]; decide
  | push _ lands => rw [lands.made_eq]; decide
  | skip => decide
  | reduce _ reduces =>
    cases reduces with
    | stays => decide
    | goes _ _ _ _ lands => rw [lands.made_eq]; decide

theorem Applies.made_consumed {p q : Parse} {term : Term} {token : Token} {a : Action}
    {made : Step} (h : Applies term token p a (.ok made q)) (ha : a.consumes = true) :
    made.consumed = true := by
  cases h with
  | shift _ _ _ lands => rw [lands.made_eq]; rfl
  | skip => rfl
  | push => cases ha
  | reduce => cases ha

/-- A step accepts only at the end of input in an accepting state, and then it may at most finish
the parse. -/
theorem Outcome.accepted_inv {p q : Parse} {token : Token} (h : Outcome token p (.ok .accepted q)) :
    p.finished = false ∧ token.term = Term.eof ∧
      (∃ d, p.tables.descriptor p.state = .ok d ∧ d.isAccepting = true) ∧
      q = if p.suspended.isEmpty then p.closed else p := by
  cases h with
  | accepted hf ht hd ha => exact ⟨hf, ht, ⟨_, hd, ha⟩, rfl⟩
  | resolved _ _ _ applies => exact absurd rfl applies.made_ne_accepted
  | recovered _ _ _ _ _ applies => exact absurd rfl applies.made_ne_accepted

/-! ## Running the computations -/

section Run

variable {α β : Type} {p : Parse}

theorem run_bind (m : ParseM α) (f : α → ParseM β) :
    (m >>= f) p = match m p with
      | .ok a q => f a q
      | .error h q => .error h q := by
  simp only [bind, EStateM.bind]
  cases m p <;> rfl

theorem run_pure (a : α) : (pure a : ParseM α) p = .ok a p := rfl

theorem run_get : (get : ParseM Parse) p = .ok p p := rfl

theorem run_set (q : Parse) : (set q : ParseM Unit) p = .ok () q := rfl

theorem run_modify (f : Parse → Parse) : (modify f : ParseM Unit) p = .ok () (f p) := rfl

theorem run_throw (h : Halt) : (throw h : ParseM α) p = .error h p := rfl

theorem run_fail (e : Error) : (fail e : ParseM α) p = .error (.error e) p := rfl

theorem run_lookUp_ok (a : α) : lookUp (.ok a) p = .ok a p := rfl

theorem run_lookUp_error (e : Error) :
    lookUp (.error e : Except Error α) p = .error (.error e) p := rfl

end Run

/-! ## Every outcome is listed -/

section Complete

variable {p : Parse} {token : Token} {term : Term}

theorem run_pushFrame (p : Parse) (f : Frame) :
    pushFrame f p =
      if p.active.stack.limit ≤ p.active.stack.length then
        .error (.error (.stackOverflow p.active.stack.limit)) p
      else .ok () (p.raised f) := by
  unfold pushFrame Stack.push
  simp only [run_bind, run_get]
  by_cases h : p.active.stack.limit ≤ p.active.stack.length
  · simp only [if_pos h, run_lookUp_error]
  · simp only [if_neg h, run_lookUp_ok]
    rfl

/-- With room on the stack, a frame whose state has a record is put on top and its nest entered. -/
theorem lands_of_room (hv : p.tables.Valid) {f : Frame} (hf : f.state.toNat < p.tables.stateCount)
    (room : ¬ p.active.stack.limit ≤ p.active.stack.length) (start : Nat) (made : Step) :
    Lands p f start made ((do enterNest f.state start; pure made : ParseM Step) (p.raised f)) := by
  obtain ⟨d, hd⟩ := Storage.exists_descriptor hf
  have hd' : (p.raised f).tables.descriptor f.state = .ok d := hd
  unfold enterNest
  simp only [run_bind, run_get, hd', run_lookUp_ok]
  cases hi : d.nestIndex? with
  | none => exact .rests (by omega) hd hi
  | some i =>
    obtain ⟨g, hg⟩ := hv.exists_nested hf hd hi
    have hg' : (p.raised f).tables.nested[i]? = some g := hg
    simp only [hg', run_set]
    exact .enters (by omega) hd hi hg

theorem lands (hv : p.tables.Valid) {f : Frame} (hf : f.state.toNat < p.tables.stateCount)
    (start : Nat) (made : Step) :
    Lands p f start made
      ((do pushFrame f; enterNest f.state start; pure made : ParseM Step) p) := by
  by_cases hroom : p.active.stack.limit ≤ p.active.stack.length
  · simp only [run_bind, run_pushFrame, if_pos hroom]
    exact .full hroom
  · have h := lands_of_room hv hf hroom start made
    rw [run_bind, run_pushFrame, if_neg hroom]
    exact h

theorem applies_shift (hv : p.tables.Valid) {target : StateId}
    (ht : target.toNat < p.tables.stateCount) :
    Applies term token p (.shift target) (shift target term token p) := by
  obtain ⟨d, hd⟩ := Storage.exists_descriptor ht
  unfold shift consume
  simp only [run_bind, run_get, hd, run_lookUp_ok]
  cases hs : token.span? with
  | none => exact .unspanned rfl hs
  | some span =>
    refine .shift ht hd hs ?_
    simp only [run_modify, run_pushFrame, run_pure]
    by_cases hroom : (p.consumed term span d.isSkipped).active.stack.limit ≤
        (p.consumed term span d.isSkipped).active.stack.length
    · simp only [if_pos hroom]
      exact .full hroom
    · have h := lands_of_room (p := p.consumed term span d.isSkipped) hv
        (f := ⟨target, token.start, p.shiftBase, p.shiftTail⟩) ht hroom
        (p.consumed term span d.isSkipped).position .shifted
      simp only [run_bind, run_pure] at h
      simp only [if_neg hroom]
      exact h

theorem applies_push (hv : p.tables.Valid) {target : StateId}
    (ht : target.toNat < p.tables.stateCount) :
    Applies term token p (.push target) (pushState target token p) := by
  refine .push ht ?_
  unfold pushState
  simp only [run_bind, run_get]
  have h := lands hv (f := p.frameHere target token.start) ht token.start .pushed
  simp only [run_bind] at h
  exact h

theorem applies_skip (state : StateId) :
    Applies term token p (.skip state) (skip term token p) := by
  unfold skip consume
  simp only [run_bind]
  cases hs : token.span? with
  | none => exact .unspanned rfl hs
  | some span => exact .skip hs

/-- Popping the frames of a reduction finds the frame to stand on, or fails and changes nothing. -/
theorem run_popFrames (p : Parse) (r : Reduction) (skipped : Bool) :
    (∃ lowest stack, Stands p r skipped lowest stack ∧
      popFrames r skipped p = .ok lowest (p.withStack stack)) ∨
    (∃ depth available,
      popFrames r skipped p = .error (.error (.stackUnderflow depth available)) p) ∨
    (popFrames r skipped p = .error .overflow p ∧ r.depth = 0 ∧ skipped = false ∧
      p.items < p.skippedTail) := by
  unfold popFrames
  simp only [run_bind, run_get]
  by_cases hd : r.depth = 0
  · simp only [if_pos hd]
    by_cases hc : (!skipped && decide (p.items < p.skippedTail)) = true
    · simp only [if_pos hc]
      simp only [Bool.and_eq_true, Bool.not_eq_true', decide_eq_true_eq] at hc
      exact .inr (.inr ⟨rfl, hd, hc.1, hc.2⟩)
    · simp only [if_neg hc]
      refine .inl ⟨_, _, .empty hd ?_, rfl⟩
      cases skipped
      · right
        simpa using hc
      · exact .inl rfl
  · simp only [if_neg hd, Stack.pop]
    cases hn : r.depth.toNat with
    | zero => exact absurd (UInt16.toNat_inj.mp hn) hd
    | succ n =>
      cases hf : p.active.stack.above[n]? with
      | none =>
        refine .inr (.inl ⟨n + 1, p.active.stack.height, ?_⟩)
        simp only [run_bind, hf, run_lookUp_error]
      | some f =>
        refine .inl ⟨f, _, .popped hn hf, ?_⟩
        simp only [run_bind, hf, run_lookUp_ok, run_set, run_pure]

theorem Stands.above_subset {r : Reduction} {skipped : Bool} {lowest : Frame} {stack : Stack}
    (h : Stands p r skipped lowest stack) : stack.above ⊆ p.active.stack.above := by
  cases h with
  | empty => exact List.Subset.refl _
  | popped => exact List.drop_subset _ _

theorem Stands.bottom_eq {r : Reduction} {skipped : Bool} {lowest : Frame} {stack : Stack}
    (h : Stands p r skipped lowest stack) : stack.bottom = p.active.stack.bottom := by
  cases h <;> rfl

theorem Stands.frames_subset {r : Reduction} {skipped : Bool} {lowest : Frame} {stack : Stack}
    (h : Stands p r skipped lowest stack) : stack.frames ⊆ p.active.stack.frames := by
  intro f hmem
  unfold Stack.frames at hmem ⊢
  rw [h.bottom_eq] at hmem
  exact List.mem_append.mpr ((List.mem_append.mp hmem).imp_left fun ha => h.above_subset ha)

theorem Stands.state_lt {r : Reduction} {skipped : Bool} {lowest : Frame} {stack : Stack}
    (h : Stands p r skipped lowest stack) (hs : p.active.InTables) :
    ∀ f ∈ stack.frames, f.state.toNat < p.tables.stateCount :=
  fun f hmem => hs f (h.frames_subset hmem)

theorem applies_reduce (hv : p.tables.Valid) (hs : p.active.InTables) (r : Reduction) :
    Applies term token p (.reduce r) (reduce r token p) := by
  obtain ⟨d, hd⟩ := Storage.exists_descriptor hs.top
  refine .reduce hd ?_
  have hd' : p.tables.descriptor p.state = .ok d := hd
  unfold reduce
  simp only [run_bind, run_get, hd', run_lookUp_ok]
  rcases run_popFrames p r d.isSkipped with
    ⟨lowest, stack, hl, hpop⟩ | ⟨depth, available, hpop⟩ | ⟨hpop, h0, hsk, hc⟩
  · simp only [hpop, gotoTarget]
    have hstack : Level.InTables ⟨p.tables, stack⟩ := hl.state_lt hs
    obtain ⟨found, hgoto, hgood⟩ := Storage.exists_goto hv.check_eq hstack.top r.term
    cases hstay : r.stays with
    | true => exact .stays hl hstay
    | false =>
      have hgoto' : (p.withStack stack).tables.goto (p.withStack stack).state r.term = .ok found :=
        hgoto
      simp only [Bool.false_eq_true, if_false, run_bind, run_get, hgoto', run_lookUp_ok]
      cases found with
      | none => exact .missing hl hstay
      | some target =>
        have ht : target.toNat < p.tables.stateCount := hgood target rfl
        refine .goes hl hstay hgoto ht ?_
        have h := lands
          (p := (p.withStack stack).reduced (p.reduceEvent r d.isSkipped lowest) lowest) hv
          (f := ⟨target, lowest.start, lowest.base, lowest.tail⟩) ht token.start .reduced
        simp only [run_bind] at h
        simp only [run_pure, run_modify, run_bind]
        exact h
  · simp only [hpop]
    exact .underflow depth available
  · simp only [hpop]
    exact .uncounted h0 hsk hc

theorem applies_apply (hv : p.tables.Valid) (hs : p.active.InTables) {a : Action}
    (ha : p.tables.Admits a) : Applies term token p a (apply term a token p) := by
  cases a with
  | shift target => exact applies_shift hv ha
  | push target => exact applies_push hv ha
  | skip state => exact applies_skip state
  | reduce r => exact applies_reduce hv hs r

theorem run_accepts {d : Descriptor} (hd : p.tables.descriptor p.state = .ok d) :
    accepts token p = .ok (decide (token.term = Term.eof) && d.isAccepting) p := by
  by_cases ht : token.term = Term.eof
  · simp only [accepts, if_pos ht, run_bind, run_get, hd, run_lookUp_ok, run_pure]
    simp [ht]
  · simp only [accepts, if_neg ht, run_pure]
    simp [ht]

/-- Every step on valid tables has one of the listed outcomes. -/
theorem outcome_step (hv : p.tables.Valid) (hs : p.active.InTables) (token : Token) :
    Outcome token p (step token p) := by
  unfold step
  simp only [run_bind, run_get]
  cases hf : p.finished with
  | true => exact .finished hf
  | false =>
    obtain ⟨d, hd⟩ := Storage.exists_descriptor hs.top
    have hd' : p.tables.descriptor p.state = .ok d := hd
    simp only [Bool.false_eq_true, if_false, run_bind, run_accepts hd']
    by_cases hacc : (decide (token.term = Term.eof) && d.isAccepting) = true
    · simp only [if_pos hacc]
      simp only [Bool.and_eq_true, decide_eq_true_eq] at hacc
      exact .accepted hf hacc.1 hd' hacc.2
    · simp only [if_neg hacc]
      obtain ⟨found, hr, hfound⟩ := Storage.exists_resolve hv.check_eq hs.top token.term
      have hr' : p.tables.resolve p.state token.term = .ok found := hr
      simp only [run_bind, hr', run_lookUp_ok]
      cases found with
      | some reading =>
        obtain ⟨term, a⟩ := reading
        have ha := hfound term a rfl
        exact .resolved hf hr' ha
          (applies_apply hv hs (Storage.admits_of_action hv.check_eq hs.top ha))
      | none =>
        -- the token has no action: a recovery looks for one for the error term
        obtain ⟨terms, hterms⟩ := Storage.exists_actionTerms hv.check_eq hs.top
        have hterms' : p.tables.actionTerms p.state = .ok terms := hterms
        obtain ⟨action?, hact, -⟩ := Storage.exists_action hv.check_eq hs.top Term.err
        have hact' : p.tables.action p.state Term.err = .ok action? := hact
        obtain ⟨m, hm⟩ : ∃ m, p.mismatch token = .ok m := by
          simp only [mismatch, hterms', Except.map]
          exact ⟨_, rfl⟩
        unfold recover
        simp only [run_bind, run_get, hm, run_lookUp_ok]
        by_cases hmax : p.options.maxRecoveries ≤ p.recoveries
        · simp only [if_pos hmax]
          exact .mismatched hf hr' hm
        · simp only [if_neg hmax, run_bind, hact', run_lookUp_ok]
          cases action? with
          | none => exact .mismatched hf hr' hm
          | some a =>
            have hadm := Storage.admits_of_action hv.check_eq hs.top hact
            simp only [run_bind, run_set]
            exact .recovered hf hr' hm (by omega) hact'
              (applies_apply (p := p.recovered ⟨m, a.consumes⟩) hv hs hadm)

end Complete

end Parse

end LRMachine
