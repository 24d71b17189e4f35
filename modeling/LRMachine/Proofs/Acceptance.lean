import LRMachine.Proofs.Runs

/-!
# Acceptance

Feeding the end of input first closes the nested grammars that run (`closeNests`) and then steps
until a grammar accepts. A step made then may enter a nested grammar again, by a push or a reduction
on the end of input, and nothing closes that one: its acceptance is reported although the outermost
grammar has not accepted (`not_hostAccepted_nestAtEnd`). `hostAccepted_iff_staysOutermost` says
exactly when a reported acceptance is one of the outermost grammar: when no step after the closing
enters a nested grammar.
-/

namespace LRMachine

namespace Parse

variable {t : Tables} {o : Options} {u : User} {token : Token}

/-- The outermost grammar has accepted: no nested one runs, the parse is finished, and the end of
input is accepted in the top state. -/
def HostAccepted (t : Tables) (p : Parse) : Prop :=
  p.nestDepth = 0 ∧ p.finished = true ∧
    ∃ d, t.descriptor p.state = .ok d ∧ d.isAccepting = true

/-- The steps that feed the token from `host` on enter no nested grammar: the parses that they run
through, as far as they are not settled, have none. -/
def StaysOutermost (token : Token) (host : Parse) : Prop :=
  ∀ n q, stepUntil (settles token) token n host = .error .exhausted q → q.suspended = []

/-! ## The loop of steps -/

/-- A loop that ends well has run through a parse in which the wanted step was made, and every parse
that it ran through has no more levels than that one. -/
theorem exists_last_of_stepUntil {wanted : Step → Bool} (hv : t.Valid) :
    ∀ {fuel p made q}, Sound t p → stepUntil wanted token fuel p = .ok made q →
      ∃ x, Sound t x ∧ step token x = .ok made q ∧ wanted made = true ∧
        (∃ n, stepUntil wanted token n p = .error .exhausted x) ∧
        ∀ n y, stepUntil wanted token n p = .error .exhausted y → y.suspended <:+ x.suspended := by
  intro fuel
  induction fuel with
  | zero => intro p made q _ h; cases h
  | succ fuel ih =>
    intro p made q hs h
    unfold stepUntil at h
    obtain ⟨made', q', hstep, h⟩ := exists_of_run_bind_eq_ok h
    obtain ⟨hout, hs'⟩ : _ ∧ Sound t q' := hs.step hv hstep
    by_cases hw : wanted made' = true
    · rw [if_pos hw] at h
      cases h
      refine ⟨p, hs, hstep, hw, ⟨0, rfl⟩, fun n y hy => ?_⟩
      cases n with
      | zero => cases hy; exact List.suffix_rfl
      | succ n => simp [stepUntil, run_bind, hstep, hw, run_pure] at hy
    · rw [if_neg hw] at h
      obtain ⟨x, hsx, hx, hwanted, ⟨n, hn⟩, hall⟩ := ih hs' h
      have hunfold : ∀ m, stepUntil wanted token (m + 1) p = stepUntil wanted token m q' := by
        intro m
        simp only [stepUntil, run_bind, hstep, if_neg hw]
      refine ⟨x, hsx, hx, hwanted, ⟨n + 1, by rw [hunfold, hn]⟩, fun m y hy => ?_⟩
      cases m with
      | zero =>
        cases hy
        -- the step leaves no level, and neither do those that follow
        exact hout.entersAtMost.suspended_suffix.trans (hall 0 q' rfl)
      | succ m =>
        rw [hunfold] at hy
        exact hall m y hy

theorem settles_eq_true {made : Step} (h : settles token made = true)
    (ht : token.term = Term.eof) : made = .accepted := by
  simpa [settles, ht] using h

/-! ## The end of input -/

/-- Once the nests are closed, an acceptance is one of the outermost grammar exactly if no step
since has entered a nested grammar. -/
theorem hostAccepted_iff_of_stepUntil (hv : t.Valid) {host q : Parse} {fuel : Nat}
    (hs : Sound t host)
    (h : stepUntil (settles token) token fuel host = .ok .accepted q) :
    token.term = Term.eof ∧ (q.HostAccepted t ↔ StaysOutermost token host) := by
  obtain ⟨x, hsx, hx, -, ⟨n, hn⟩, hall⟩ := exists_last_of_stepUntil hv hs h
  obtain ⟨-, heof, ⟨d, hd, hacc⟩, hq⟩ := (hsx.step hv hx).1.accepted_inv
  refine ⟨heof, ⟨fun hhost m y hy => ?_, fun hstays => ?_⟩⟩
  · -- the levels of `y` are among those of `x`, which are those of `q`
    have hxq : x.suspended = q.suspended := by
      rw [hq]
      split <;> rfl
    have hnil : q.suspended = [] := List.length_eq_zero_iff.mp hhost.1
    have hsuffix := hall m y hy
    rw [hxq, hnil] at hsuffix
    exact List.suffix_nil.mp hsuffix
  · have hnil : x.suspended = [] := hstays n x hn
    have htables : x.tables = t := hsx.nesting.eq_of_nil hnil
    have hqx : q = x.closed := by simpa [hnil] using hq
    rw [htables] at hd
    subst hqx
    exact ⟨by simp [nestDepth, closed, hnil], rfl, d, hd, hacc⟩

theorem exists_host_of_advance {p q : Parse} {fuel : Nat} {made : Step}
    (h : advance fuel token p = .ok made q) :
    ∃ host, closeNests fuel token fuel p = .ok () host ∧
      stepUntil (settles token) token fuel host = .ok made q := by
  unfold advance at h
  obtain ⟨_, _, hget, h⟩ := exists_of_run_bind_eq_ok h
  cases hget
  split at h
  · cases h
  · obtain ⟨_, host, hclose, h⟩ := exists_of_run_bind_eq_ok h
    exact ⟨host, hclose, h⟩

theorem exists_advance_of_feed (hu : ∀ token, u.makes (.advance token)) {fuel : Nat} {q : Parse} :
    ∀ {tokens stop p}, Reachable t o u p → feed fuel tokens stop p = .ok () q →
      ∃ x token, Reachable t o u x ∧ advance fuel token x = .ok .accepted q := by
  intro tokens
  induction tokens with
  | nil =>
    intro stop p hp h
    unfold feed at h
    obtain ⟨made, q', hadv, h⟩ := exists_of_run_bind_eq_ok h
    cases h
    obtain ⟨host, -, hloop⟩ := exists_host_of_advance hadv
    have hmade : made = .accepted := by
      have hfollows := follows_stepUntil (u := u) (settles (Token.eof stop))
        (.feeding (Token.eof stop)) rfl (fun made hm => by simp [Task.after, hm]) fuel host
      rw [hloop] at hfollows
      exact settles_eq_true hfollows.1 rfl
    exact ⟨p, Token.eof stop, hp, hmade ▸ hadv⟩
  | cons token rest ih =>
    intro stop p hp h
    unfold feed at h
    cases hstop : token.stop? with
    | none => simp [hstop, run_throw] at h
    | some stop' =>
      simp only [hstop] at h
      obtain ⟨made, p', hadv, h⟩ := exists_of_run_bind_eq_ok h
      by_cases hmade : made = .accepted
      · rw [if_pos hmade] at h
        cases h
        exact ⟨p, token, hp, hmade ▸ hadv⟩
      · rw [if_neg hmade] at h
        exact ih (hp.ok (.advance token) fuel (hu token) hadv) h

/-- When feeding a token reports acceptance, the token is the end of input, and the outermost
grammar has accepted exactly if the steps that follow the closing of the nests enter no nested
grammar. A whole parse succeeds with such an acceptance. -/
theorem hostAccepted_iff_staysOutermost (hv : t.Valid) (o : Options) :
    (∀ p token fuel q, Reachable t o .anyone p → advance fuel token p = .ok .accepted q →
      token.term = Term.eof ∧ ∃ host, closeNests fuel token fuel p = .ok () host ∧
        host.nestDepth = 0 ∧ (q.HostAccepted t ↔ StaysOutermost token host)) ∧
    ∀ fuel tokens q, parse fuel t tokens o = .ok () q →
      ∃ p token, Reachable t o .anyone p ∧ advance fuel token p = .ok .accepted q := by
  refine ⟨fun p token fuel q hp h => ?_, fun fuel tokens q h => ?_⟩
  · obtain ⟨host, hclose, hloop⟩ := exists_host_of_advance h
    have hfinished : p.finished = false := by
      cases hf : p.finished with
      | false => rfl
      | true => rw [run_advance_finished fuel hf] at h; cases h
    have hopen : Move .anyone ⟨.idle, p⟩ ⟨.opening token, p⟩ := .callAdvance trivial hfinished
    have hfollows := follows_closeNests (u := .anyone) token fuel fuel p
    rw [hclose] at hfollows
    obtain ⟨hpath, hstay⟩ := hfollows
    have hsound := Visited.sound hv (Relation.ReflTransGen.trans hp.visited (.head hopen hpath))
    obtain ⟨heof, hiff⟩ := hostAccepted_iff_of_stepUntil hv hsound hloop
    refine ⟨heof, host, hclose, ?_, hiff⟩
    -- the end of input would have closed a nested grammar
    cases hs : host.suspended with
    | nil => simp [nestDepth, hs]
    | cons entry outer =>
      have hkept := hstay entry (by simp [hs])
      simp [endsNest, heof] at hkept
  · exact exists_advance_of_feed (fun _ => trivial) .new h

/-! ## An acceptance of a nested grammar alone -/

/-- A grammar of nothing: its start state accepts. -/
def nothing : Tables :=
  { start := 0, states := #[2, 0, 0], actions := #[0xffff], gotos := #[0xffff]
    specializations := #[], nested := [], names := [] }

/-- A host that enters a nested grammar only on the end of input, by a push, and accepts behind its
placeholder. -/
def nestAtEnd : Tables :=
  { start := 0, states := #[0, 0, 0, 4, 4, 0, 2, 8, 0]
    actions := #[0, 1, 2, 0xffff, 7, 2, 0, 0xffff, 0xffff], gotos := #[0xffff]
    specializations := #[], nested := [⟨"inner", nothing, 5, 7⟩], names := [] }

theorem nestAtEnd_valid : nestAtEnd.Valid := by
  refine .intro rfl fun g hg => ?_
  obtain rfl : g = ⟨"inner", nothing, 5, 7⟩ := by simpa [nestAtEnd] using hg
  exact .intro rfl (by simp [nothing])

/-- The parse of the empty input that the nested grammar has accepted. -/
def acceptedInside : Parse :=
  ((new nestAtEnd {}).raised ⟨1, 0, 0, 0⟩).entered ⟨"inner", nothing, 5, 7⟩ 0

/-- The empty input is accepted by a nested grammar, while the host has not accepted. -/
theorem not_hostAccepted_nestAtEnd :
    nestAtEnd.Valid ∧
      advance 2 (Token.eof 0) (new nestAtEnd {}) = .ok .accepted acceptedInside ∧
      parse 2 nestAtEnd [] {} = .ok () acceptedInside ∧
      ¬ acceptedInside.HostAccepted nestAtEnd := by
  refine ⟨nestAtEnd_valid, rfl, rfl, ?_⟩
  rintro ⟨hdepth, -⟩
  exact absurd hdepth (by decide)

/-- A second end of input closes the nested grammar first, and then the host accepts. -/
theorem hostAccepted_nestAtEnd_again :
    nestAtEnd.Valid ∧ Reachable nestAtEnd {} .anyone acceptedInside ∧ ∃ host q,
      advance 2 (Token.eof 0) acceptedInside = .ok .accepted q ∧
      closeNests 2 (Token.eof 0) 2 acceptedInside = .ok () host ∧
      q.HostAccepted nestAtEnd ∧ StaysOutermost (Token.eof 0) host := by
  have hp : Reachable nestAtEnd {} .anyone acceptedInside :=
    Reachable.new.ok (.advance (Token.eof 0)) 2 trivial rfl
  have hq : advance 2 (Token.eof 0) acceptedInside = .ok .accepted _ := rfl
  obtain ⟨-, host, hclose, -, hiff⟩ :=
    (hostAccepted_iff_staysOutermost nestAtEnd_valid {}).1 _ _ _ _ hp hq
  refine ⟨nestAtEnd_valid, hp, host, _, hq, hclose, ?_⟩
  rw [← hiff]
  exact and_self_iff.mpr ⟨rfl, rfl, ⟨2⟩, rfl, rfl⟩

end Parse

end LRMachine
