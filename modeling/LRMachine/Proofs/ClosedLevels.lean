import LRMachine.Proofs.Acceptance
import LRMachine.Proofs.LevelBounds
import LRMachine.Proofs.SingleGrammar

/-!
# Closing a nested grammar

A nested grammar that a token ends is driven with the end of input until a grammar accepts, and then
the innermost level is left (`closeNest`). The drive takes ordinary steps. One of them may enter a
further nested grammar, and if that one accepts, it is left in place of the grammar that the drive
was for, whose placeholder is then stepped in tables that do not register it
(`not_closes_outerTwice`). `closes_iff_staysWithin` says exactly when the right level is left: when
no step of the drive enters a nested grammar. Where the driven grammar nests none, this is so for
certain (`closes_of_nestless`).
-/

namespace LRMachine

theorem Nesting.height_le {t u : Tables} {entry : Suspension} {outer : List Suspension} :
    ∀ {inner : List Suspension}, Nesting t u (inner ++ entry :: outer) →
      u.height ≤ entry.grammar.tables.height := by
  intro inner
  induction inner generalizing u with
  | nil =>
    intro h
    cases h
    exact Nat.le_refl _
  | cons s inner ih =>
    intro h
    cases h with
    | inner host _ _ _ hg =>
      exact Nat.le_trans (Nat.le_of_lt (Tables.height_lt_of_mem (List.mem_of_getElem? hg)))
        (ih host)

/-- A grammar is registered in the tables that started it, and in none of the tables inside it. -/
theorem Nesting.registered_iff {t u : Tables} {s entry : Suspension}
    {rest outer : List Suspension} (h : Nesting t u (s :: rest))
    (hsuffix : entry :: outer <:+ s :: rest) :
    (s = entry ↔ s :: rest = entry :: outer) ∧
      (entry.grammar ∈ s.host.tables.nested ↔ s :: rest = entry :: outer) := by
  obtain ⟨inner, hsplit⟩ := hsuffix
  cases h with
  | inner host _ _ _ hg =>
    have hmem : s.grammar ∈ s.host.tables.nested := List.mem_of_getElem? hg
    cases inner with
    | nil =>
      obtain ⟨rfl, rfl⟩ : entry = s ∧ outer = rest := List.cons.inj hsplit
      exact ⟨iff_of_true rfl rfl, iff_of_true hmem rfl⟩
    | cons first inner =>
      obtain ⟨rfl, rfl⟩ : first = s ∧ inner ++ entry :: outer = rest := List.cons.inj hsplit
      have hle := host.height_le
      -- a grammar that is registered in the tables of `first` is lower than these
      have hout : entry.grammar ∉ first.host.tables.nested := fun hin =>
        absurd (Tables.height_lt_of_mem hin) (Nat.not_lt.mpr hle)
      have hne : first :: (inner ++ entry :: outer) ≠ entry :: outer := by
        intro heq
        have hlength := congrArg List.length heq
        simp only [List.length_cons, List.length_append] at hlength
        omega
      exact ⟨iff_of_false (fun heq => hout (heq ▸ hmem)) hne, iff_of_false hout hne⟩

namespace Parse

variable {t : Tables} {o : Options} {u : User} {token : Token} {p q : Parse}

/-- The steps from `p` on with the token, until one accepts, enter no nested grammar: the parses
that they run through have the same grammars suspended. -/
def StaysWithin (token : Token) (p : Parse) : Prop :=
  ∀ n y, stepUntil (· == .accepted) token n p = .error .exhausted y → y.suspended = p.suspended

theorem suspended_suffix_of_stepUntil {wanted : Step → Bool} (hv : t.Valid) :
    ∀ {n p h y}, Sound t p → stepUntil wanted token n p = .error h y →
      p.suspended <:+ y.suspended := by
  intro n
  induction n with
  | zero =>
    intro p h y _ hrun
    cases hrun
    exact List.suffix_rfl
  | succ n ih =>
    intro p h y hs hrun
    rw [run_stepUntil] at hrun
    cases hstep : step token p with
    | error e q =>
      rw [hstep] at hrun
      cases hrun
      exact (hs.step hv hstep).1.entersAtMost.suspended_suffix
    | ok made q =>
      obtain ⟨hout, hs'⟩ : _ ∧ Sound t q := hs.step hv hstep
      simp only [hstep] at hrun
      split at hrun
      · cases hrun
      · exact hout.entersAtMost.suspended_suffix.trans (ih hs' hrun)

/-- A drive that accepts has the grammars suspended that it began with exactly if none of its steps
entered one. -/
theorem suspended_eq_iff_staysWithin (hv : t.Valid) (hs : Sound t p) {fuel : Nat} {made : Step}
    (h : stepUntil (· == .accepted) token fuel p = .ok made q) :
    Sound t q ∧ p.suspended <:+ q.suspended ∧
      (q.suspended = p.suspended ↔ StaysWithin token p) := by
  obtain ⟨x, hsx, hx, hmade, ⟨n, hn⟩, hall⟩ := exists_last_of_stepUntil hv hs h
  obtain rfl : made = .accepted := beq_iff_eq.mp hmade
  obtain ⟨hout, hsq⟩ : Outcome token x (.ok .accepted q) ∧ Sound t q := hsx.step hv hx
  obtain ⟨-, -, -, hq⟩ := hout.accepted_inv
  have hqx : q.suspended = x.suspended := by
    rw [hq]
    split <;> rfl
  refine ⟨hsq, hqx ▸ hall 0 p rfl, fun hkept m y hy => ?_, fun hstays => ?_⟩
  · -- the levels of `y` lie between those of `p` and those of `x`
    have hbelow := suspended_suffix_of_stepUntil hv hs hy
    have habove := hall m y hy
    rw [← hqx, hkept] at habove
    exact habove.eq_of_length_le hbelow.length_le
  · rw [hqx]
    exact hstays n x hn

/-- When the drive for a nested grammar ends, the level that is left next is the one of that grammar
exactly if no step of the drive has entered a nested grammar; and exactly then the placeholder is
stepped in tables that register the grammar. -/
theorem closes_iff_staysWithin (hv : t.Valid) (o : Options) (u : User) {entry : Suspension}
    {fuel : Nat} (hp : Visited t o u ⟨.opening token, p⟩)
    (hclose : Move u ⟨.opening token, p⟩ ⟨.driving token entry, p⟩)
    (h : stepUntil (· == .accepted) (Token.eof token.start) fuel p = .ok .accepted q) :
    (q.suspended.head? = some entry ↔ StaysWithin (Token.eof token.start) p) ∧
      ∀ q', leave entry q = .ok () q' →
        (q.suspended.head? = some entry ↔ entry.grammar ∈ q'.tables.nested) := by
  obtain ⟨outer, hs⟩ : ∃ outer, p.suspended = entry :: outer := by
    cases hclose with
    | close hs => exact ⟨_, hs⟩
  obtain ⟨hsound, hsuffix, hiff⟩ := suspended_eq_iff_staysWithin hv (hp.sound hv) h
  rw [← hiff]
  rw [hs] at hsuffix ⊢
  have hnesting := hsound.nesting
  cases hq : q.suspended with
  | nil =>
    rw [hq] at hsuffix
    simp at hsuffix
  | cons s rest =>
    rw [hq] at hsuffix hnesting
    obtain ⟨hsame, hregistered⟩ := hnesting.registered_iff hsuffix
    rw [List.head?_cons, Option.some.injEq, hsame]
    refine ⟨Iff.rfl, fun q' hleave => ?_⟩
    rw [← hregistered]
    -- the host of the innermost record is what is gone back to
    rcases leave_eq_ok hleave with ⟨hnil, -⟩ | ⟨innermost, outer', hs', -, rfl⟩
    · rw [hq] at hnil
      cases hnil
    · obtain rfl : s = innermost := (List.cons.inj (hq.symm.trans hs')).1
      exact Iff.rfl

/-- A drive stays in a grammar that nests none, so this grammar's level is left. -/
theorem closes_of_nestless (hv : t.Valid) (hs : Sound t p) (hn : p.tables.Nestless) {fuel : Nat}
    {made : Step} (h : stepUntil (· == .accepted) token fuel p = .ok made q) :
    q.suspended = p.suspended := by
  have hkept : ∀ {x made y}, Sound t x ∧ SameLevel p x → step token x = .ok made y →
      Sound t y ∧ SameLevel p y := by
    rintro x made y ⟨hsx, hsame⟩ hx
    obtain ⟨hout, hsy⟩ := hsx.step hv hx
    exact ⟨hsy, hsame.trans (hout.sameLevel (hsame.tables_eq ▸ hn))⟩
  have hends : StepEnds (fun x => Sound t x ∧ SameLevel p x) (· == .accepted) token
      (stepUntil (· == .accepted) token fuel p) :=
    stepUntil_ends (fun hx hstep _ => hkept hx hstep) fuel ⟨hs, .refl p⟩
  rw [h] at hends
  obtain ⟨-, x, hx, hstep⟩ := hends
  exact (hkept hx hstep).2.suspended_eq

/-! ## A grammar that is closed by a reduction -/

/-- A word 11, which the end of input reduces to a text 13. -/
def text : Tables :=
  { start := 0, states := #[0, 0, 0, 0, 4, 2, 2, 8, 2]
    actions := #[11, 1, 0, 0xffff, 0, 13, 9, 0xffff, 0xffff], gotos := #[13, 2, 0xffff]
    specializations := #[], nested := [], names := [] }

/-- A text between brackets. -/
def bracketedText : Tables := { bracket with nested := [⟨"text", text, 5, 7⟩] }

theorem bracketedText_valid : bracketedText.Valid := by
  refine .intro rfl fun g hg => ?_
  obtain rfl : g = ⟨"text", text, 5, 7⟩ := by simpa [bracketedText] using hg
  exact .intro rfl (by simp [text])

/-- Behind the opening bracket and a word. -/
def bracketedTextParse : Parse :=
  runCalls 2 [.advance ⟨3, 0, 1⟩, .advance ⟨11, 1, 4⟩] (new bracketedText {})

/-- At the closing bracket the drive reduces the word before it accepts. It stays in the text, whose
level is left, and the brackets register it. -/
theorem closes_iff_staysWithin_bracketedText :
    bracketedText.Valid ∧ ∃ p entry x q q',
      Visited bracketedText {} .anyone ⟨.opening ⟨5, 5, 1⟩, p⟩ ∧
      Move .anyone ⟨.opening ⟨5, 5, 1⟩, p⟩ ⟨.driving ⟨5, 5, 1⟩ entry, p⟩ ∧
      step (Token.eof 5) p = .ok .reduced x ∧
      stepUntil (· == .accepted) (Token.eof 5) 2 p = .ok .accepted q ∧
      q.suspended.head? = some entry ∧ StaysWithin (Token.eof 5) p ∧
      leave entry q = .ok () q' ∧ entry.grammar ∈ q'.tables.nested := by
  have hp : Reachable bracketedText {} .anyone bracketedTextParse :=
    (Reachable.new.ok (.advance ⟨3, 0, 1⟩) 2 trivial rfl).ok (.advance ⟨11, 1, 4⟩) 2 trivial rfl
  have hopening : Visited bracketedText {} .anyone ⟨.opening ⟨5, 5, 1⟩, bracketedTextParse⟩ :=
    hp.visited.tail (.callAdvance trivial rfl)
  have hclose : Move .anyone ⟨.opening ⟨5, 5, 1⟩, bracketedTextParse⟩
      ⟨.driving ⟨5, 5, 1⟩ _, bracketedTextParse⟩ := .close rfl rfl
  have hdrive : stepUntil (· == .accepted) (Token.eof 5) 2 bracketedTextParse =
      .ok .accepted _ := rfl
  obtain ⟨hiff, hregistered⟩ :=
    closes_iff_staysWithin bracketedText_valid {} .anyone hopening hclose hdrive
  exact ⟨bracketedText_valid, _, _, _, _, _, hopening, hclose, rfl, hdrive, rfl, hiff.mp rfl, rfl,
    (hregistered _ rfl).mp rfl⟩

/-! ## A grammar that is entered while another one is closed -/

/-- An opening 3 starts a grammar that enters another one on the end of input. -/
def outerTwice : Tables :=
  let middle : Tables :=
    { start := 0, states := #[0, 0, 0, 4, 4, 0, 2, 8, 0]
      actions := #[0, 1, 2, 0xffff, 11, 2, 0, 0xffff, 0xffff], gotos := #[0xffff]
      specializations := #[], nested := [⟨"inner", nothing, 5, 11⟩], names := [] }
  { start := 0, states := #[0, 0, 0, 4, 4, 0, 2, 8, 0]
    actions := #[3, 1, 0, 0xffff, 7, 2, 0, 0xffff, 0xffff], gotos := #[0xffff]
    specializations := #[], nested := [⟨"middle", middle, 5, 7⟩], names := [] }

theorem outerTwice_valid : outerTwice.Valid := by
  refine .intro rfl fun g hg => ?_
  obtain rfl := List.mem_singleton.mp hg
  refine .intro rfl fun g hg => ?_
  obtain rfl := List.mem_singleton.mp hg
  exact .intro rfl (by simp [nothing])

/-- Behind the 3. -/
def outerTwiceParse : Parse := runCalls 2 [.advance ⟨3, 0, 1⟩] (new outerTwice {})

/-- The end of input behind the 3 drives the outer of the nested grammars, and the inner one is
left, in whose host the placeholder 7 of the outer one has no action. -/
theorem not_closes_outerTwice :
    outerTwice.Valid ∧ ∃ p entry q q', Reachable outerTwice {} .anyone p ∧
      p.suspended = [entry] ∧ endsNest entry (Token.eof 1) = true ∧
      stepUntil (· == .accepted) (Token.eof 1) 2 p = .ok .accepted q ∧
      q.suspended.head? ≠ some entry ∧ leave entry q = .ok () q' ∧
      entry.grammar ∉ q'.tables.nested ∧
      ∃ m x, closeNest 2 entry 1 p = .error (.error (.unexpected m)) x ∧ m.found = 7 := by
  have hp : Reachable outerTwice {} .anyone outerTwiceParse :=
    Reachable.new.ok (.advance ⟨3, 0, 1⟩) 2 trivial rfl
  refine ⟨outerTwice_valid, outerTwiceParse, _, _, _, hp, rfl, rfl, rfl, fun heq => ?_, rfl,
    fun hmem => ?_, _, _, rfl, rfl⟩
  · -- the record is that of the inner grammar
    have hname := congrArg (Option.map fun s : Suspension => s.grammar.name) heq
    exact absurd hname (by decide)
  · have hname := congrArg Nested.name (List.mem_singleton.mp hmem)
    exact absurd hname (by decide)

end Parse

end LRMachine
