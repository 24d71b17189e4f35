import LRMachine.Proofs.SumSteps
import LRMachine.Proofs.SumWords

/-!
# The tables of sums accept sums

Between its calls a parse over the tables of sums is at one of four stages: nothing was read, a
number, a sum and a plus, or a sum, a plus and a number (`Outline`). A token takes it to the next
stage or does not fit, and the first that does not fit is the first with which the terms are not
viable. At the end of input a number in front or a summand is reduced to a sum, which is accepted
(`parse_sum`).
-/

namespace LRMachine.Grammar

open Parse

variable {p : Parse} {token : Token}

/-! ## Stages -/

/-- What is on the stack and pending when the given terms were read: the state on top, the states
below it and the texts. -/
inductive Outline : List Term → StateId → List StateId → List String → Prop where
  | start : Outline [] 0 [] []
  | number : Outline (sumWord 0) 1 [0] ["Num"]
  | plus (k : Nat) : Outline (sumWord k ++ [5]) 3 [2, 0] [sumText k, "Plus"]
  | summand (k : Nat) : Outline (sumWord (k + 1)) 4 [3, 2, 0] [sumText k, "Plus", "Num"]

/-- A parse has read the given terms, apart from blanks. -/
inductive Stage (p : Parse) (w : List Term) : Prop where
  | intro {state : StateId} {below : List StateId} {texts : List String}
    (outline : Outline w state below texts) (summing : Summing p (state :: below) texts) :
    Stage p w

theorem bracketed_summand (k : Nat) :
    Node.bracketed "Sum" [sumText k, "Plus", "Num"] = sumText (k + 1) := by
  have hopening : "Sum" ++ "[" = "Sum[" := rfl
  have hclosing : " " ++ ("Plus" ++ (" " ++ ("Num" ++ "]"))) = " Plus Num]" := rfl
  show "Sum" ++ "[" ++ (sumText k ++ " " ++ "Plus" ++ " " ++ "Num") ++ "]" =
    "Sum[" ++ sumText k ++ " Plus Num]"
  rw [hopening, ← hclosing]
  simp only [String.append_assoc]

namespace Outline

variable {w : List Term} {state : StateId} {below : List StateId} {texts : List String}

theorem viable (h : Outline w state below texts) : Viable w := by
  cases h with
  | start => exact viable_nil
  | number => exact viable_sumWord 0
  | plus k => exact viable_sumWord_plus k
  | summand k => exact viable_sumWord (k + 1)

/-- What was read is a sum or waits for a number. -/
theorem eq_sumWord_or (h : Outline w state below texts) :
    (∃ k, w = sumWord k) ∨ sumTerm w.length = 3 := by
  cases h with
  | start => exact .inr rfl
  | number => exact .inl ⟨0, rfl⟩
  | plus k => exact .inr (sumTerm_length_plus k)
  | summand k => exact .inl ⟨k + 1, rfl⟩

/-- No action is stored for what does not come next, nor for the end of input where a number is
missing. -/
theorem lookup_eq_none (h : Outline w state below texts) {term : Term} (hblank : term ≠ 8)
    (hnext : term ≠ sumTerm w.length) (heof : term = Term.eof → ∀ k, w ≠ sumWord k) :
    state ≠ 2 ∧ (sumActions state).lookup term = none := by
  rw [List.lookup_eq_none_iff]
  cases h with
  | start =>
    have hnumber : term ≠ 3 := hnext
    exact ⟨by decide, by simp [sumActions, hblank, hnumber]⟩
  | number =>
    have hplus : term ≠ 5 := hnext
    have hne : term ≠ 0 := fun ht => heof ht 0 rfl
    exact ⟨by decide, by simp [sumActions, hblank, hplus, hne]⟩
  | plus k =>
    have hnumber : term ≠ 3 := by rwa [sumTerm_length_plus] at hnext
    exact ⟨by decide, by simp [sumActions, hblank, hnumber]⟩
  | summand k =>
    have hplus : term ≠ 5 := by rwa [sumTerm_length_sumWord] at hnext
    have hne : term ≠ 0 := fun ht => heof ht (k + 1) rfl
    exact ⟨by decide, by simp [sumActions, hblank, hplus, hne]⟩

end Outline

namespace Stage

variable {w : List Term}

theorem viable (h : Stage p w) : Viable w := by
  obtain ⟨outline, -⟩ := h
  exact outline.viable

theorem eq_sumWord_or (h : Stage p w) : (∃ k, w = sumWord k) ∨ sumTerm w.length = 3 := by
  obtain ⟨outline, -⟩ := h
  exact outline.eq_sumWord_or

theorem running (h : Stage p w) : p.suspended = [] ∧ p.finished = false := by
  obtain ⟨-, h⟩ := h
  exact ⟨h.counted.outermost, h.running⟩

theorem step_blank (h : Stage p w) (ht : token.term = 8) (hs : token.stop?.isSome = true) :
    ∃ q, step token p = .ok .skipped q ∧ Stage q w := by
  obtain ⟨outline, h⟩ := h
  obtain ⟨q, hstep, hq⟩ := h.step_blank ht hs
  exact ⟨q, hstep, outline, hq⟩

theorem step_number (h : Stage p w) (hnext : sumTerm w.length = 3) (ht : token.term = 3)
    (hs : token.stop?.isSome = true) : ∃ q, step token p = .ok .shifted q ∧ Stage q (w ++ [3]) := by
  obtain ⟨outline, h⟩ := h
  cases outline with
  | start =>
    obtain ⟨q, hstep, hq⟩ := h.step_shift 1 (by rw [ht]; decide) (by rw [ht]; rfl)
      (by decide) (by rw [ht]; rfl) (by decide) hs
    rw [ht] at hq
    exact ⟨q, hstep, .number, hq⟩
  | plus k =>
    obtain ⟨q, hstep, hq⟩ := h.step_shift 4 (by rw [ht]; decide) (by rw [ht]; rfl)
      (by decide) (by rw [ht]; rfl) (by decide) hs
    rw [ht] at hq
    rw [List.append_assoc]
    exact ⟨q, hstep, .summand k, hq⟩
  | number | summand =>
    rw [sumTerm_length_sumWord] at hnext
    cases hnext

theorem step_reduce {k : Nat} (h : Stage p (sumWord k))
    (ht : token.term = 5 ∨ token.term = Term.eof) :
    ∃ q, step token p = .ok .reduced q ∧ Summing q [2, 0] [sumText k] := by
  have hterm := sumTerm_length_sumWord k
  generalize hw : sumWord k = w at h hterm
  obtain ⟨outline, h⟩ := h
  cases outline with
  | start => cases hterm
  | plus =>
    rw [sumTerm_length_plus] at hterm
    cases hterm
  | number =>
    obtain rfl := sumWord_inj hw
    exact h.step_reduce 1 (fun _ => by decide)
      (by rcases ht with ht | ht <;> rw [ht] <;> rfl) rfl (by decide) rfl
  | summand j =>
    obtain rfl := sumWord_inj hw
    rw [← bracketed_summand]
    exact h.step_reduce 3 (fun _ => by decide)
      (by rcases ht with ht | ht <;> rw [ht] <;> rfl) rfl (by decide) rfl

theorem step_unexpected (h : Stage p w) (hblank : token.term ≠ 8)
    (hnext : token.term ≠ sumTerm w.length)
    (heof : token.term = Term.eof → ∀ k, w ≠ sumWord k) :
    ∃ m, step token p = .error (.error (.unexpected m)) p ∧ m.position = token.start := by
  obtain ⟨outline, h⟩ := h
  obtain ⟨hstate, hrow⟩ := outline.lookup_eq_none hblank hnext heof
  exact h.step_unexpected (fun _ => hstate) hrow

/-! ## Calls -/

theorem advance_plus {k : Nat} (h : Stage p (sumWord k)) (ht : token.term = 5)
    (hs : token.stop?.isSome = true) (fuel : Nat) :
    ∃ q, advance (fuel + 2) token p = .ok .shifted q ∧ Stage q (sumWord k ++ [5]) := by
  obtain ⟨hout, hf⟩ := h.running
  obtain ⟨x, hreduce, hx⟩ := h.step_reduce (.inl ht)
  obtain ⟨q, hshift, hq⟩ := hx.step_shift 3 (by rw [ht]; decide) (by rw [ht]; rfl)
    (by decide) (by rw [ht]; rfl) (by decide) hs
  rw [ht] at hq
  refine ⟨q, ?_, .plus k, hq⟩
  rw [run_advance hout hf, run_stepUntil, hreduce]
  have hsettles : settles token .shifted = true := by rw [settles, ht]; rfl
  show stepUntil (settles token) token (fuel + 1) x = _
  rw [run_stepUntil, hshift]
  exact if_pos hsettles

theorem advance_consumed {made : Step} {q : Parse} (h : Stage p w) (hne : token.term ≠ Term.eof)
    (hstep : step token p = .ok made q) (hmade : made.consumed = true) (fuel : Nat) :
    advance (fuel + 1) token p = .ok made q := by
  obtain ⟨hout, hf⟩ := h.running
  have hsettles : settles token made = true := by
    simp [settles, hmade, hne]
  rw [run_advance hout hf, run_stepUntil, hstep]
  exact if_pos hsettles

theorem advance_failed {halt : Halt} (h : Stage p w) (hstep : step token p = .error halt p)
    (fuel : Nat) : advance (fuel + 1) token p = .error halt p := by
  obtain ⟨hout, hf⟩ := h.running
  rw [run_advance hout hf, run_stepUntil, hstep]

/-- A token is read if it fits behind what was read, and reported if it does not. -/
theorem advance (h : Stage p w) (hne : token.term ≠ Term.eof) (hs : token.stop?.isSome = true)
    (fuel : Nat) :
    (∃ made q, Parse.advance (fuel + 2) token p = .ok made q ∧ made ≠ .accepted ∧
      Stage q (w ++ significant [token])) ∨
    ¬ Viable (w ++ significant [token]) ∧ ∃ m,
      Parse.advance (fuel + 2) token p = .error (.error (.unexpected m)) p ∧
      m.position = token.start := by
  by_cases hblank : token.term = 8
  · obtain ⟨q, hstep, hq⟩ := h.step_blank hblank hs
    rw [significant_blank hblank, List.append_nil]
    exact .inl ⟨_, q, h.advance_consumed hne hstep rfl _, by decide, hq⟩
  · rw [significant_singleton hblank]
    by_cases hnext : token.term = sumTerm w.length
    · left
      rcases h.eq_sumWord_or with ⟨k, rfl⟩ | hnumber
      · rw [sumTerm_length_sumWord] at hnext
        obtain ⟨q, hadvance, hq⟩ := h.advance_plus hnext hs fuel
        rw [hnext]
        exact ⟨_, q, hadvance, by decide, hq⟩
      · rw [hnumber] at hnext
        obtain ⟨q, hstep, hq⟩ := h.step_number hnumber hnext hs
        rw [hnext]
        exact ⟨_, q, h.advance_consumed hne hstep rfl _, by decide, hq⟩
    · right
      obtain ⟨m, hstep, hm⟩ := h.step_unexpected hblank hnext fun heof => absurd heof hne
      refine ⟨fun hviable => hnext (viable_append_iff.mp hviable).2, m, ?_, hm⟩
      exact h.advance_failed hstep _

/-- At the end of input a sum is accepted, and anything else is reported. -/
theorem advance_eof (h : Stage p w) (ht : token.term = Term.eof) (fuel : Nat) :
    (∃ k q, w = sumWord k ∧ Parse.advance (fuel + 2) token p = .ok .accepted q ∧
      (Tree.ofEvents q.events).text sumNames = sumText k) ∨
    (∀ k, w ≠ sumWord k) ∧ ∃ m,
      Parse.advance (fuel + 2) token p = .error (.error (.unexpected m)) p ∧
      m.position = token.start := by
  rcases h.eq_sumWord_or with ⟨k, rfl⟩ | hnumber
  · obtain ⟨hout, hf⟩ := h.running
    obtain ⟨x, hreduce, hx⟩ := h.step_reduce (.inr ht)
    refine .inl ⟨k, x.closed, rfl, ?_, ?_⟩
    · rw [run_advance hout hf, run_stepUntil, hreduce]
      show stepUntil (settles token) token (fuel + 1) x = _
      rw [run_stepUntil, hx.step_accepted ht]
      rfl
    · rw [← finish_builder]
      show " ".intercalate (Node.forestTexts sumNames x.pending.reverse) = sumText k
      rw [hx.texts_eq]
      rfl
  · have hnot : ∀ k, w ≠ sumWord k := by
      rintro k rfl
      rw [sumTerm_length_sumWord] at hnumber
      cases hnumber
    obtain ⟨m, hstep, hm⟩ := h.step_unexpected (by rw [ht]; decide) (by rw [ht, hnumber]; decide)
      fun _ => hnot
    exact .inr ⟨hnot, m, h.advance_failed hstep _, hm⟩

end Stage

/-! ## Runs -/

/-- What a parse of the tokens should come to. -/
def Fits (tokens : List Token) : EStateM.Result Halt Parse Unit → Prop
  | .ok _ q => ∃ k, significant (bodyTokens tokens) = sumWord k ∧
      (Tree.ofEvents q.events).text sumNames = sumText k
  | .error halt _ => (∀ k, significant (bodyTokens tokens) ≠ sumWord k) ∧
      ∃ m, halt = .error (.unexpected m) ∧ FaultAt tokens m.position

theorem fits_advance_eof {tokens : List Token} (h : Stage p (significant (bodyTokens tokens)))
    (hend : endToken tokens 0 = token) (fuel : Nat) :
    (∃ q, advance (fuel + 2) token p = .ok .accepted q ∧ Fits tokens (.ok () q)) ∨
      ∃ halt, advance (fuel + 2) token p = .error halt p ∧ Fits tokens (.error halt p) := by
  have ht : token.term = Term.eof := hend ▸ term_endToken tokens 0
  rcases h.advance_eof ht fuel with ⟨k, q, hword, hadvance, htext⟩ | ⟨hnot, m, hadvance, hm⟩
  · exact .inl ⟨q, hadvance, k, hword, htext⟩
  · refine .inr ⟨_, hadvance, hnot, m, rfl, ?_⟩
    rw [hm, ← hend]
    exact .ending h.viable

/-- Behind the tokens `read`, a parse of the rest comes to what a parse of all tokens should. -/
theorem fits_feed {tokens : List Token} (fuel : Nat) :
    ∀ {rest read : List Token} {stop : Nat} {p : Parse}, Stage p (significant read) →
      bodyTokens tokens = read ++ bodyTokens rest → endToken tokens 0 = endToken rest stop →
      (∀ token ∈ rest, token.stop?.isSome = true) →
      Fits tokens (feed (fuel + 2) rest stop p) := by
  intro rest
  induction rest with
  | nil =>
    intro read stop p h hbody hend _
    have hbody : bodyTokens tokens = read := hbody.trans (List.append_nil read)
    simp only [feed, run_bind]
    rcases fits_advance_eof (hbody ▸ h) hend fuel with
      ⟨q, hadvance, hfits⟩ | ⟨halt, hadvance, hfits⟩
    all_goals
      simp only [endToken] at hadvance
      rw [hadvance]
      exact hfits
  | cons token rest ih =>
    intro read stop p h hbody hend hstops
    obtain ⟨hstop, hrest⟩ := List.forall_mem_cons.mp hstops
    obtain ⟨stop', hstop'⟩ := Option.isSome_iff_exists.mp hstop
    rw [feed, hstop']
    simp only [run_bind]
    by_cases ht : token.term = Term.eof
    · rw [bodyTokens, bodyTokens, List.takeWhile_cons_of_neg (by simp [ht]), List.append_nil]
        at hbody
      rw [endToken, if_pos ht] at hend
      rcases fits_advance_eof (hbody ▸ h) hend fuel with
        ⟨q, hadvance, hfits⟩ | ⟨halt, hadvance, hfits⟩
      all_goals
        rw [hadvance]
        exact hfits
    · have hsplit : bodyTokens tokens = (read ++ [token]) ++ bodyTokens rest := by
        rw [hbody, bodyTokens, List.takeWhile_cons_of_pos (by simpa using ht), List.append_assoc]
        rfl
      rw [endToken, if_neg ht] at hend
      rcases h.advance ht hstop fuel with ⟨made, q, hadvance, hmade, hq⟩ | ⟨hnot, m, hadvance, hm⟩
      · rw [← significant_append] at hq
        simp only [hadvance, if_neg hmade]
        exact ih hq hsplit ((Token.stop?_eq_some_iff.mp hstop').1 ▸ hend) hrest
      · -- no sum begins with the token behind those that were read
        rw [← significant_append] at hnot
        rw [hadvance]
        refine ⟨fun k hk => ?_, m, rfl, ?_⟩
        · rw [hsplit, significant_append] at hk
          exact hnot (Viable.of_append (hk ▸ viable_sumWord k))
        · rw [hm]
          have hat : bodyTokens tokens = read ++ token :: bodyTokens rest := by
            rw [hsplit, List.append_assoc]
            rfl
          exact .token hat h.viable hnot

/-- The tables of sums accept exactly the sums, with blanks anywhere, and the tree of a sum has the
sum's text. Any other list of tokens is reported, at the first token with which it begins no sum, or
at its end if there is no such token. -/
theorem parse_sum (tokens : List Token) (h : ∀ token ∈ tokens, token.stop?.isSome = true)
    {fuel : Nat} (hfuel : 2 ≤ fuel) :
    ((∃ q, parse fuel sum tokens {} = .ok () q) ↔
      ∃ k, significant (bodyTokens tokens) = sumWord k) ∧
    (∀ k q, significant (bodyTokens tokens) = sumWord k → parse fuel sum tokens {} = .ok () q →
      (Tree.ofEvents q.events).text sumNames = sumText k) ∧
    ((¬ ∃ k, significant (bodyTokens tokens) = sumWord k) →
      ∃ m q, parse fuel sum tokens {} = .error (.error (.unexpected m)) q ∧
        FaultAt tokens m.position) := by
  obtain ⟨extra, rfl⟩ := Nat.exists_eq_add_of_le' hfuel
  have hstart : Stage (Parse.new sum {}) (significant []) := ⟨.start, summing_new⟩
  have hfits : Fits tokens (parse (extra + 2) sum tokens {}) := fits_feed extra hstart rfl rfl h
  cases hrun : parse (extra + 2) sum tokens {} with
  | ok u q =>
    rw [hrun] at hfits
    obtain ⟨k, hword, htext⟩ := hfits
    refine ⟨⟨fun _ => ⟨k, hword⟩, fun _ => ⟨q, rfl⟩⟩, fun j q' hj hq => ?_,
      fun hnot => absurd ⟨k, hword⟩ hnot⟩
    cases hq
    rw [htext, sumWord_inj (hword.symm.trans hj)]
  | error halt q =>
    rw [hrun] at hfits
    obtain ⟨hnot, m, rfl, hfault⟩ := hfits
    refine ⟨⟨fun ⟨_, hok⟩ => ?_, fun ⟨k, hk⟩ => absurd hk (hnot k)⟩, fun _ _ _ hok => ?_,
      fun _ => ⟨m, q, rfl, hfault⟩⟩
    · cases hok
    · cases hok

/-- A sum of two numbers among blanks is accepted, and one that breaks off is reported at its
end. -/
theorem parse_sum_of_two :
    (∃ q, parse 2 sum [⟨3, 0, 1⟩, ⟨8, 1, 1⟩, ⟨5, 2, 1⟩, ⟨3, 3, 1⟩, ⟨8, 4, 2⟩] {} = .ok () q ∧
      (Tree.ofEvents q.events).text sumNames = sumText 1) ∧
    ∃ m q, parse 2 sum [⟨3, 0, 1⟩, ⟨5, 1, 1⟩, ⟨8, 2, 3⟩] {} = .error (.error (.unexpected m)) q ∧
      FaultAt [⟨3, 0, 1⟩, ⟨5, 1, 1⟩, ⟨8, 2, 3⟩] m.position := by
  obtain ⟨haccepts, htext, -⟩ := parse_sum
    [⟨3, 0, 1⟩, ⟨8, 1, 1⟩, ⟨5, 2, 1⟩, ⟨3, 3, 1⟩, ⟨8, 4, 2⟩] (by decide) (Nat.le_refl 2)
  obtain ⟨-, -, hreports⟩ := parse_sum [⟨3, 0, 1⟩, ⟨5, 1, 1⟩, ⟨8, 2, 3⟩] (by decide)
    (Nat.le_refl 2)
  obtain ⟨q, hq⟩ := haccepts.mpr ⟨1, by decide⟩
  refine ⟨⟨q, hq, htext 1 q (by decide) hq⟩, hreports ?_⟩
  rintro ⟨k, hk⟩
  have hlength := congrArg List.length hk
  rw [length_sumWord, show (significant _).length = 2 by decide] at hlength
  omega

end LRMachine.Grammar
