import Mathlib.Data.Fintype.EquivFin
import Mathlib.Order.RelClasses
import LRMachine.Proofs.Evaluation
import LRMachine.Proofs.Readings
import LRMachine.Proofs.SingleGrammar

/-!
# Feeding a token comes to an end

Feeding a token steps until the token is consumed, or for the end of input until the parse accepts.
Nothing in the tables bounds the number of steps: a reduction of one frame leaves the stack as high
as it was, and a recovery at the end of input keeps the token even if it consumes an error leaf.
Where the states can be ranked such that a reduction of one frame leads to a state of lower rank,
and the actions that need no input are reductions of at least one frame (`Tables.Ranked`), every
step that does not settle its token makes the parse smaller (`Smaller`): it uses up a recovery, or
lowers the stack, or lowers the rank of the top state. Hence every loop of steps comes to its end
(`advance_comes_to_end`), with an overflow only for a token that does not end within 64 bits.
-/

namespace LRMachine

/-! ## Ranked tables -/

namespace Tables

/-- The states are ranked such that a reduction of one frame leads to a state of lower rank. The
actions are shifts, skips and reductions of at least one frame, at the end of input reductions only,
and no state starts a nested grammar. -/
structure Ranked {α : Type} [Preorder α] (t : Tables) (rank : StateId → α) : Prop where
  nestless : t.Nestless
  pushless : ∀ state term target, t.action state term ≠ .ok (some (.push target))
  consuming : ∀ state term r, t.action state term = .ok (some (.reduce r)) → r.depth ≠ 0
  shiftless : ∀ state a, t.action state Term.eof = .ok (some a) → ∃ r, a = .reduce r
  falls : ∀ state term r below target, t.action state term = .ok (some (.reduce r)) →
    r.stays = false → r.depth = 1 → t.goto below r.term = .ok (some target) →
    rank target < rank state

/-- No goto on the term leads to a state that does not pass the test. -/
def gotosPass (t : Tables) (term : Term) (test : StateId → Bool) : Bool :=
  t.everywhere fun below _ => (t.goto below term).toOption.join.all test

def isRanked (t : Tables) (rank : StateId → Nat) : Bool :=
  t.isNestless && t.everywhere fun state _ =>
    ((t.action state Term.eof).toOption.join.all fun
      | .reduce _ => true
      | _ => false) &&
    (t.actionsOf state).all fun
      | .push _ => false
      | .reduce r => r.depth != 0 && (r.stays || r.depth != 1 ||
          t.gotosPass r.term fun target => rank target < rank state)
      | _ => true

theorem ranked_of_isRanked {t : Tables} {rank : StateId → Nat} (h : t.isRanked rank = true) :
    t.Ranked rank := by
  obtain ⟨hnestless, hall⟩ := (Bool.and_eq_true _ _).mp h
  have htest : ∀ {state term a}, t.action state term = .ok (some a) → _ := fun ha =>
    let ⟨_, hd⟩ := Storage.exists_descriptor_of_action ha
    (Bool.and_eq_true _ _).mp (Storage.test_of_everywhere hall hd)
  refine ⟨nestless_of_isNestless hnestless, fun state term target ha => ?_,
    fun state term r ha => ?_, fun state a ha => ?_,
    fun state term r below target ha hstay h1 hgoto => ?_⟩
  · exact absurd (Storage.test_of_action (htest ha).2 ha) (by simp)
  · have hr := Storage.test_of_action (htest ha).2 ha
    simp only [Bool.and_eq_true, bne_iff_ne] at hr
    exact hr.1
  · have heof := (htest ha).1
    simp only [ha, Except.toOption, Option.join_some, Option.all_some] at heof
    cases a with
    | reduce r => exact ⟨r, rfl⟩
    | _ => cases heof
  · have hr := Storage.test_of_action (htest ha).2 ha
    obtain ⟨d, hd⟩ := Storage.exists_descriptor_of_goto hgoto
    simp only [hstay, h1, Bool.and_eq_true, Bool.false_or, bne_self_eq_false, gotosPass] at hr
    simpa [hgoto, Except.toOption] using Storage.test_of_everywhere hr.2 hd

end Tables

theorem wellFounded_rank {α : Type} [Preorder α] (rank : StateId → α) :
    WellFounded fun s s' : StateId => rank s < rank s' := by
  have : Finite StateId := Finite.of_injective UInt16.toFin fun _ _ => UInt16.toFin_inj.mp
  have : IsTrans StateId fun s s' => rank s < rank s' := ⟨fun _ _ _ => lt_trans⟩
  have : Std.Irrefl fun s s' : StateId => rank s < rank s' := ⟨fun s => lt_irrefl _⟩
  exact Finite.wellFounded_of_trans_of_irrefl _

namespace Parse

variable {t : Tables} {o : Options} {u : User} {token : Token} {p q : Parse} {α : Type} [Preorder α]
  {rank : StateId → α}

/-! ## Smaller parses -/

/-- The number of recoveries that the limit still allows. -/
def recoveriesLeft (p : Parse) : Nat := p.options.maxRecoveries - p.recoveries

/-- Fewer recoveries are left, or as many on a lower stack, or as many on a stack of the same height
with a top state of lower rank. -/
def Smaller (rank : StateId → α) (q p : Parse) : Prop :=
  Prod.Lex (· < ·) (Prod.Lex (· < ·) fun s s' => rank s < rank s')
    (q.recoveriesLeft, q.active.stack.height, q.state)
    (p.recoveriesLeft, p.active.stack.height, p.state)

theorem wellFounded_smaller (rank : StateId → α) : WellFounded (Smaller rank) :=
  InvImage.wf (fun p : Parse => (p.recoveriesLeft, p.active.stack.height, p.state))
    (wellFounded_lt.prod_lex (wellFounded_lt.prod_lex (wellFounded_rank rank)))

theorem smaller_iff : Smaller rank q p ↔ q.recoveriesLeft < p.recoveriesLeft ∨
    q.recoveriesLeft = p.recoveriesLeft ∧ (q.active.stack.height < p.active.stack.height ∨
      q.active.stack.height = p.active.stack.height ∧ rank q.state < rank p.state) := by
  simp only [Smaller, Prod.lex_def]

theorem Stands.height_eq {r : Reduction} {skipped : Bool} {lowest : Frame} {stack : Stack}
    (h : Stands p r skipped lowest stack) :
    stack.height + r.depth.toNat = p.active.stack.height := by
  cases h with
  | empty h0 =>
    rw [h0]
    rfl
  | @popped n f hd hf =>
    have hlt := (List.getElem?_eq_some_iff.mp hf).1
    have hheight := p.active.stack.height_eq
    show p.active.stack.height - (n + 1) + r.depth.toNat = _
    omega

theorem Lands.recoveriesLeft_eq {f : Frame} {start : Nat} {made : Step} {r : Result}
    (l : Lands p f start made r) : r.parse.recoveriesLeft = p.recoveriesLeft := by
  cases l <;> rfl

theorem Applies.recoveriesLeft_eq {term : Term} {a : Action} {r : Result}
    (h : Applies term token p a r) : r.parse.recoveriesLeft = p.recoveriesLeft := by
  cases h with
  | unspanned => rfl
  | shift _ _ _ lands => exact lands.recoveriesLeft_eq
  | push _ lands => exact lands.recoveriesLeft_eq
  | skip => rfl
  | reduce _ reduces =>
    cases reduces with
    | goes _ _ _ _ lands => exact lands.recoveriesLeft_eq
    | _ => rfl

/-! ## Steps -/

/-- A reduction lowers the stack; if it pops one frame and follows a goto, the stack has the same
height again, and the rank of the top state falls. -/
theorem Reduces.smaller {r : Reduction} {skipped : Bool} {term : Term} {made : Step}
    (h : Reduces token r skipped p (.ok made q)) (hr : p.tables.Ranked rank)
    (ha : p.tables.action p.state term = .ok (some (.reduce r))) : Smaller rank q p := by
  have hdepth : r.depth.toNat ≠ 0 := fun h0 => hr.consuming _ _ _ ha (UInt16.toNat_inj.mp h0)
  rw [smaller_iff]
  refine .inr ?_
  cases h with
  | @stays lowest stack hl =>
    have hheight := hl.height_eq
    refine ⟨rfl, .inl ?_⟩
    show stack.height < p.active.stack.height
    omega
  | @goes lowest stack target _ hl hstay hgoto _ lands =>
    have hheight := hl.height_eq
    obtain rfl := lands.eq_raised hr.nestless
    refine ⟨rfl, ?_⟩
    show stack.height + 1 < p.active.stack.height ∨
      stack.height + 1 = p.active.stack.height ∧ rank target < rank p.state
    by_cases h1 : r.depth.toNat = 1
    · exact .inr ⟨by omega, hr.falls _ _ _ _ _ ha hstay (UInt16.toNat_inj.mp h1) hgoto⟩
    · exact .inl (by omega)

theorem eq_reduce_of_resolve_eof (hv : t.Valid) (hr : t.Ranked rank) {state : StateId} {term : Term}
    {a : Action} (hresolve : t.resolve state Term.eof = .ok (some (term, a)))
    (ha : t.action state term = .ok (some a)) : ∃ r, a = .reduce r := by
  have hne : term ≠ Term.err := hv.ne_err_of_resolve hresolve (by decide)
  obtain rfl := (hv.eq_of_reads_eof (Storage.reads_of_resolve hresolve)).resolve_right hne
  exact hr.shiftless _ _ ha

/-- A step that does not settle its token makes the parse smaller. -/
theorem Outcome.smaller {made : Step} (h : Outcome token p (.ok made q)) (hv : p.tables.Valid)
    (hr : p.tables.Ranked rank) (hs : settles token made = false) : Smaller rank q p := by
  cases h with
  | accepted => simp [settles] at hs
  | @resolved term a _ _ hresolve ha applies =>
    -- a step that consumes settles every token but the end of input
    have hkept : a.consumes = true → False := by
      intro hconsumes
      have hmade := applies.made_consumed hconsumes
      simp only [settles, hmade, Bool.true_and, Bool.or_eq_false_iff, bne_eq_false_iff_eq] at hs
      rw [hs.2] at hresolve
      obtain ⟨r, rfl⟩ := eq_reduce_of_resolve_eof hv hr hresolve ha
      cases hconsumes
    cases applies with
    | push => exact absurd ha (hr.pushless _ _ _)
    | reduce _ reduces => exact reduces.smaller hr ha
    | shift => exact (hkept rfl).elim
    | skip => exact (hkept rfl).elim
  | @recovered m a _ _ _ _ hmax _ applies =>
    have hleft := applies.recoveriesLeft_eq
    rw [smaller_iff]
    left
    rw [show q.recoveriesLeft = _ from hleft]
    show p.options.maxRecoveries - (p.recoveries + 1) < p.options.maxRecoveries - p.recoveries
    omega

/-- The step or the call came back, or a token that does not end within 64 bits made it overflow. -/
def Result.Ends (token : Token) (r : Result) : Prop :=
  r.returns = true ∨ token.stop? = none ∧ ∃ q, r = .error .overflow q

theorem Result.Ends.ne_exhausted {r : Result} (h : r.Ends token) (q : Parse) :
    r ≠ .error .exhausted q := by
  rintro rfl
  rcases h with hreturns | ⟨-, q', heq⟩
  · cases hreturns
  · cases heq

theorem Lands.returns {f : Frame} {start : Nat} {made : Step} {r : Result}
    (l : Lands p f start made r) : r.returns = true := by
  cases l <;> rfl

theorem Applies.ends {term : Term} {a : Action} {r : Result} (h : Applies term token p a r)
    (hr : p.tables.Ranked rank) (ha : p.tables.action p.state term = .ok (some a)) :
    r.Ends token := by
  cases h with
  | unspanned _ hnone =>
    refine .inr ⟨?_, p, rfl⟩
    rw [← Option.not_isSome_iff_eq_none]
    exact fun hsome => Token.span?_ne_none hsome hnone
  | shift _ _ _ lands => exact .inl lands.returns
  | push _ lands => exact .inl lands.returns
  | skip => exact .inl rfl
  | reduce _ reduces =>
    cases reduces with
    | uncounted h0 => exact absurd h0 (hr.consuming _ _ _ ha)
    | goes _ _ _ _ lands => exact .inl lands.returns
    | _ => exact .inl rfl

/-- A step comes back, or it overflows at a token that does not end within 64 bits. -/
theorem Outcome.ends {r : Result} (h : Outcome token p r) (hr : p.tables.Ranked rank) :
    r.Ends token := by
  cases h with
  | resolved _ _ ha applies => exact applies.ends hr ha
  | recovered _ _ _ _ ha applies => exact applies.ends (p := p.recovered _) hr ha
  | _ => exact .inl rfl

/-! ## Loops -/

/-- A loop of steps, each of which makes the parse smaller, comes to its end: with any number of
steps that is large enough it comes to what one last step comes to. -/
theorem exists_end_of_stepUntil {I : Parse → Prop} {wanted : Step → Bool}
    (hkeep : ∀ {p made q}, I p → step token p = .ok made q → wanted made = false →
      I q ∧ Smaller rank q p) (h : I p) :
    ∃ n x, I x ∧ ∀ fuel, n ≤ fuel → stepUntil wanted token fuel p = step token x := by
  induction p using (wellFounded_smaller rank).induction with
  | _ p ih =>
    have hlast : (∀ fuel, stepUntil wanted token (fuel + 1) p = step token p) →
        ∃ n x, I x ∧ ∀ fuel, n ≤ fuel → stepUntil wanted token fuel p = step token x := by
      intro hends
      refine ⟨1, p, h, fun fuel hfuel => ?_⟩
      rw [← Nat.sub_add_cancel hfuel]
      exact hends _
    cases hstep : step token p with
    | error e q => exact hlast fun fuel => by rw [run_stepUntil, hstep]
    | ok made q =>
      by_cases hw : wanted made = true
      · exact hlast fun fuel => by rw [run_stepUntil, hstep]; exact if_pos hw
      · obtain ⟨hq, hsmaller⟩ := hkeep h hstep (by simpa using hw)
        obtain ⟨n, x, hx, hends⟩ := ih q hsmaller hq
        refine ⟨n + 1, x, hx, fun fuel hfuel => ?_⟩
        obtain ⟨m, rfl⟩ : ∃ m, fuel = m + 1 := ⟨fuel - 1, by omega⟩
        rw [run_stepUntil, hstep]
        exact (if_neg hw).trans (hends m (by omega))

theorem Alone.exists_end_of_advance (h : Alone t p) (hv : t.Valid) (hr : t.Ranked rank)
    (token : Token) : ∃ (n : Nat) (r : Result), (∀ fuel, n ≤ fuel → advance fuel token p = r) ∧
      Alone t r.parse ∧ r.Ends token := by
  cases hf : p.finished with
  | true => exact ⟨0, _, fun fuel _ => run_advance_finished fuel hf, h, .inl rfl⟩
  | false =>
    have hkeep : ∀ {p made q}, Alone t p → Parse.step token p = .ok made q →
        settles token made = false → Alone t q ∧ Smaller rank q p := by
      intro p made q hp hstep hs
      obtain ⟨hout, hq⟩ := hp.step hv hstep
      have htables := hp.sound.tables_eq hr.nestless
      exact ⟨hq, hout.smaller (htables ▸ hv) (htables ▸ hr) hs⟩
    obtain ⟨n, x, hx, hends⟩ := exists_end_of_stepUntil hkeep h
    obtain ⟨hout, hafter⟩ : Outcome token x (Parse.step token x) ∧ _ := hx.step hv rfl
    refine ⟨n + 1, Parse.step token x, fun fuel hfuel => ?_, hafter,
      hout.ends (hx.sound.tables_eq hr.nestless ▸ hr)⟩
    obtain ⟨m, rfl⟩ : ∃ m, fuel = m + 1 := ⟨fuel - 1, by omega⟩
    rw [run_advance (h.sound.suspended_eq hr.nestless) hf]
    exact hends _ (by omega)

/-- Over valid ranked tables, whatever calls were made before and whatever limits there are, feeding
a token comes to an end after finitely many steps: with a step or an error, unless the token does
not end within 64 bits, at which the call may overflow. -/
theorem advance_comes_to_end (hv : t.Valid) (hr : t.Ranked rank) (o : Options)
    (hp : Reachable t o .anyone p) (token : Token) :
    ∃ (n : Nat) (r : Result), (∀ fuel, n ≤ fuel → advance fuel token p = r) ∧ r.Ends token := by
  obtain ⟨n, r, hruns, -, hends⟩ :=
    (hp.visited.alone hv hr.nestless).exists_end_of_advance hv hr token
  exact ⟨n, r, hruns, hends⟩

theorem Alone.exists_end_of_feed (hv : t.Valid) (hr : t.Ranked rank) :
    ∀ {tokens : List Token} {stop : Nat} {p : Parse}, Alone t p →
      ∃ n r, (∀ fuel, n ≤ fuel → feed fuel tokens stop p = r) ∧ ∀ q, r ≠ .error .exhausted q := by
  intro tokens
  induction tokens with
  | nil =>
    intro stop p h
    obtain ⟨n, r, hruns, -, hends⟩ := h.exists_end_of_advance hv hr (Token.eof stop)
    cases r with
    | ok made q =>
      refine ⟨n, .ok () q, fun fuel hfuel => ?_, fun q' => by simp⟩
      simp only [feed, run_bind, hruns fuel hfuel, run_pure]
    | error halt q =>
      refine ⟨n, .error halt q, fun fuel hfuel => ?_, fun q' heq => ?_⟩
      · simp only [feed, run_bind, hruns fuel hfuel]
      · cases heq
        exact hends.ne_exhausted q rfl
  | cons token rest ih =>
    intro stop p h
    cases hstop : token.stop? with
    | none =>
      refine ⟨0, .error .overflow p, fun fuel _ => ?_, fun q => by simp⟩
      simp only [feed, hstop, run_throw]
    | some stop' =>
      obtain ⟨n, r, hruns, hafter, hends⟩ := h.exists_end_of_advance hv hr token
      cases r with
      | error halt q =>
        refine ⟨n, .error halt q, fun fuel hfuel => ?_, fun q' heq => ?_⟩
        · simp only [feed, hstop, run_bind, hruns fuel hfuel]
        · cases heq
          exact hends.ne_exhausted q rfl
      | ok made q =>
        by_cases hmade : made = .accepted
        · refine ⟨n, .ok () q, fun fuel hfuel => ?_, fun q' => by simp⟩
          simp only [feed, hstop, run_bind, hruns fuel hfuel, if_pos hmade, run_pure]
        · obtain ⟨m, r, hrest, hends⟩ := @ih stop' q hafter
          -- enough steps for this token and for each of the others
          refine ⟨max n m, r, fun fuel hfuel => ?_, hends⟩
          simp only [feed, hstop, run_bind, hruns fuel (by omega), if_neg hmade]
          exact hrest fuel (by omega)

/-- A whole parse over ranked tables comes to an end, whatever the tokens are. -/
theorem parse_comes_to_end (hv : t.Valid) (hr : t.Ranked rank) (o : Options)
    (tokens : List Token) :
    ∃ n r, (∀ fuel, n ≤ fuel → parse fuel t tokens o = r) ∧ ∀ q, r ≠ .error .exhausted q :=
  (alone_new hv o).exists_end_of_feed hv hr

/-- The number in front of a sum is reduced to the sum, and no other reduction pops a single
frame. -/
theorem sum_ranked : Grammar.sum.Ranked fun state => if state = 1 ∨ state = 4 then 1 else 0 :=
  Tables.ranked_of_isRanked rfl

/-- The end of input behind a number comes to an end with a step or an error. -/
theorem advance_comes_to_end_of_number :
    Grammar.sum.Valid ∧ ∃ (p : Parse) (n : Nat) (r : Result),
      Reachable Grammar.sum {} .anyone p ∧ p.states = [0, 1] ∧
      (∀ fuel, n ≤ fuel → advance fuel (Token.eof 1) p = r) ∧ r.returns = true := by
  have hp : Reachable Grammar.sum {} .anyone _ :=
    Reachable.new.ok (.advance ⟨3, 0, 1⟩) 2 trivial rfl
  obtain ⟨n, r, hends, hreturns⟩ :=
    advance_comes_to_end Grammar.sum_obtained.valid sum_ranked {} hp (Token.eof 1)
  refine ⟨Grammar.sum_obtained.valid, _, n, r, hp, rfl, hends, ?_⟩
  exact hreturns.resolve_right fun hstop => absurd hstop.1 (by decide)

/-- A number that does not end within 64 bits does not come back, with any number of steps. -/
theorem overflow_of_endless_number :
    Grammar.sum.Valid ∧ (Grammar.sum.Ranked fun state => if state = 1 ∨ state = 4 then 1 else 0) ∧
      ∀ fuel, 1 ≤ fuel → ∃ q,
        advance fuel ⟨3, 18446744073709551615, 1⟩ (new Grammar.sum {}) = .error .overflow q := by
  refine ⟨Grammar.sum_obtained.valid, sum_ranked, fun fuel hfuel => ?_⟩
  obtain ⟨m, rfl⟩ : ∃ m, fuel = m + 1 := ⟨fuel - 1, by omega⟩
  rw [run_advance rfl rfl, run_stepUntil]
  exact ⟨_, rfl⟩

end Parse

end LRMachine
