import LRMachine.Proofs.Conditions
import LRMachine.Proofs.Outcome

/-!
# Steps whose lookups are known

`Parse.Outcome` lists what a step may do. Where the lookups of a step are known, it does one thing:
these equations run a step, and a shift, a skip, a reduction and a mismatch, on a single grammar.
-/

namespace LRMachine

namespace Parse

variable {p : Parse} {token : Token} {term : Term} {d : Descriptor}

theorem run_step_accepting (hf : p.finished = false) (hd : p.tables.descriptor p.state = .ok d)
    (ht : token.term = Term.eof) (ha : d.isAccepting = true) (hs : p.suspended = []) :
    step token p = .ok .accepted p.closed := by
  unfold step
  simp only [run_bind, run_get, hf, Bool.false_eq_true, if_false, run_accepts hd, ht, ha,
    decide_true, Bool.and_self, if_true, accept, run_modify, hs, List.isEmpty_nil, run_pure]

/-- A step that does not accept does what the lookup of its token says. -/
theorem run_step (hf : p.finished = false) (hd : p.tables.descriptor p.state = .ok d)
    (ha : token.term = Term.eof → d.isAccepting = false) :
    step token p = match p.tables.resolve p.state token.term with
      | .ok (some (term, a)) => apply term a token p
      | .ok none => recover token p
      | .error e => .error (.error e) p := by
  have hnot : (decide (token.term = Term.eof) && d.isAccepting) = false := by simpa using ha
  unfold step
  simp only [run_bind, run_get, hf, Bool.false_eq_true, if_false, run_accepts hd, hnot]
  cases hr : p.tables.resolve p.state token.term with
  | error e => rfl
  | ok found => cases found <;> rfl

theorem run_recover (hv : p.tables.Valid) (hs : p.active.InTables)
    (herr : p.tables.action p.state Term.err = .ok none) :
    ∃ m, recover token p = .error (.error (.unexpected m)) p ∧ m.position = token.start := by
  obtain ⟨terms, hterms⟩ := Storage.exists_actionTerms hv.check_eq hs.top
  have hterms : p.tables.actionTerms p.state = .ok terms := hterms
  have hm : p.mismatch token =
      .ok ⟨token.start, p.state, token.term, terms.filter (· != Term.err)⟩ := by
    rw [mismatch, hterms]
    rfl
  refine ⟨⟨token.start, p.state, token.term, terms.filter (· != Term.err)⟩, ?_, rfl⟩
  unfold recover
  simp only [run_bind, run_get, hm, run_lookUp_ok]
  split
  · rfl
  · simp only [run_bind, herr, run_lookUp_ok]
    rfl

/-- Where no nested grammar starts, a frame is put on top if there is room, and that is all. -/
theorem Lands.of_nestless {f : Frame} {start : Nat} {made : Step} {r : Result}
    (l : Lands p f start made r) (hn : p.tables.Nestless) :
    (p.active.stack.limit ≤ p.active.stack.length ∧
      r = .error (.error (.stackOverflow p.active.stack.limit)) p) ∨
    (p.active.stack.length < p.active.stack.limit ∧ r = .ok made (p.raised f)) := by
  cases l with
  | full h => exact .inl ⟨h, rfl⟩
  | rests room => exact .inr ⟨room, rfl⟩
  | enters _ hd hi _ =>
    rw [hn _ _ hd] at hi
    cases hi

theorem Lands.eq_ok {f : Frame} {start : Nat} {made : Step} {r : Result}
    (l : Lands p f start made r) (hn : p.tables.Nestless)
    (room : p.active.stack.length < p.active.stack.limit) : r = .ok made (p.raised f) := by
  rcases l.of_nestless hn with ⟨full, -⟩ | ⟨-, hr⟩
  · omega
  · exact hr

theorem Lands.eq_raised {q : Parse} {f : Frame} {start : Nat} {made made' : Step}
    (l : Lands p f start made (.ok made' q)) (hn : p.tables.Nestless) : q = p.raised f := by
  rcases l.of_nestless hn with ⟨-, hr⟩ | ⟨-, hr⟩
  · cases hr
  · cases hr
    rfl

theorem run_shift (hv : p.tables.Valid) (hn : p.tables.Nestless) {target : StateId}
    (ht : target.toNat < p.tables.stateCount) (hd : p.tables.descriptor target = .ok d)
    {span : Span} (hs : token.span? = some span)
    (room : p.active.stack.length < p.active.stack.limit) :
    shift target term token p = .ok .shifted ((p.consumed term span d.isSkipped).raised
      ⟨target, token.start, p.shiftBase, p.shiftTail⟩) := by
  have happlies : Applies term token p (.shift target) (shift target term token p) :=
    applies_shift hv ht
  generalize shift target term token p = r at happlies ⊢
  cases happlies with
  | unspanned _ hnone =>
    rw [hs] at hnone
    cases hnone
  | shift _ hd' hs' lands =>
    obtain rfl := Except.ok.inj (hd.symm.trans hd')
    obtain rfl := Option.some.inj (hs.symm.trans hs')
    exact lands.eq_ok hn room

theorem run_skip {span : Span} (hs : token.span? = some span) :
    skip term token p = .ok .skipped (p.consumed term span true) := by
  unfold skip consume
  simp only [run_bind, hs, run_modify, run_pure]

theorem run_popFrames_of_stands {r : Reduction} {skipped : Bool} {lowest : Frame} {stack : Stack}
    (hl : Stands p r skipped lowest stack) :
    popFrames r skipped p = .ok lowest (p.withStack stack) := by
  unfold popFrames
  simp only [run_bind, run_get]
  cases hl with
  | empty hzero hc =>
    have hcounted : (!skipped && decide (p.items < p.skippedTail)) = false := by
      rcases hc with rfl | hle
      · rfl
      · simp [Nat.not_lt.mpr hle]
    simp only [if_pos hzero, hcounted, Bool.false_eq_true, if_false, run_pure]
    rfl
  | popped hdepth hf =>
    have hne : r.depth ≠ 0 := by
      rintro hzero
      rw [hzero] at hdepth
      cases hdepth
    simp only [if_neg hne, Stack.pop, hdepth, hf, run_bind, run_lookUp_ok, run_set, run_pure]

theorem run_reduce (hv : p.tables.Valid) (hn : p.tables.Nestless) {r : Reduction} {lowest : Frame}
    {stack : Stack} {target : StateId} (hd : p.tables.descriptor p.state = .ok d)
    (hl : Stands p r d.isSkipped lowest stack) (hstay : r.stays = false)
    (hgoto : p.tables.goto stack.state r.term = .ok (some target))
    (ht : target.toNat < p.tables.stateCount) (room : stack.length < stack.limit) :
    reduce r token p = .ok .reduced
      (((p.withStack stack).reduced (p.reduceEvent r d.isSkipped lowest) lowest).raised
        ⟨target, lowest.start, lowest.base, lowest.tail⟩) := by
  have hgoto : (p.withStack stack).tables.goto (p.withStack stack).state r.term =
      .ok (some target) := hgoto
  have hlands := lands
    (p := (p.withStack stack).reduced (p.reduceEvent r d.isSkipped lowest) lowest) hv
    (f := ⟨target, lowest.start, lowest.base, lowest.tail⟩) ht token.start .reduced
  have hrun := hlands.eq_ok hn room
  simp only [run_bind] at hrun
  unfold reduce
  simp only [run_bind, run_get, hd, run_lookUp_ok, run_popFrames_of_stands hl, gotoTarget, hstay,
    Bool.false_eq_true, if_false, hgoto, run_pure, run_modify]
  exact hrun

end Parse

end LRMachine
