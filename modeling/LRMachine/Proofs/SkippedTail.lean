import LRMachine.Proofs.MountedItems

/-!
# The skipped items at the end

The skipped items at the end of the pending ones are counted up, cut off, mounted and restored, and
every frame and every suspended grammar keeps a count of its own. Whatever a user does, no such
count is above the number of items that it belongs to (`TailsFit`), also where the items no longer
cover the bases of the suspended grammars. So the place of an empty node in front of the skipped
items always exists, and a run overflows for two other reasons only: a token has no end within 64
bits, or a nested grammar is left with fewer items than at its entry (`Point.Overflows`,
`tailsFit_of_visited`).
-/

namespace LRMachine

namespace Parse

variable {t : Tables} {o : Options} {u : User} {token : Token} {p q : Parse}

/-! ## The place of an empty node -/

/-- An empty reduction finds its frame and takes none away. -/
theorem TailsFit.popFrames_eq (h : p.TailsFit) {r : Reduction} (hdepth : r.depth = 0)
    (skipped : Bool) : popFrames r skipped p = .ok (p.emptyFrame skipped) p := by
  have htail := h.tail_le
  have hcounted : ¬ (!skipped && decide (p.items < p.skippedTail)) = true := by
    simp only [Bool.and_eq_true, decide_eq_true_eq, not_and]
    omega
  unfold popFrames
  simp only [run_bind, run_get, if_pos hdepth, if_neg hcounted, run_pure]

/-! ## Reasons to overflow -/

/-- The next step is made with a token that has no end, or a nested grammar is about to be left with
fewer items than at its entry. -/
def Point.Overflows (x : Point) : Prop :=
  (∃ token, x.task.lookahead = some token ∧ token.stop? = none) ∨
    ∃ token entry, x.task = .leaving token entry ∧ x.parse.items < entry.base

theorem Visited.tailsFit (hv : t.Valid) {x : Point} (hx : Visited t o u x) : x.parse.TailsFit :=
  ((tailsFit_invariant t u).visited hv (tailsFit_new t o) hx).1

/-- A run that stops with an overflow has come to a point with a reason for it. -/
theorem exists_overflows_of_halts (hv : t.Valid) {x : Point} (hx : Visited t o u x)
    (h : Halts u x .overflow q) : ∃ y, Visited t o u y ∧ y.Overflows := by
  rcases h with h | ⟨y, hpath, ⟨token, hl, hstep⟩ | ⟨token, entry, htask, hleave⟩⟩
  · cases h
  · have hy : Visited t o u y := Relation.ReflTransGen.trans hx hpath
    have hout := ((hy.sound hv).step hv hstep).1
    refine ⟨y, hy, .inl ⟨token, hl, Option.not_isSome_iff_eq_none.mp fun hstop => ?_⟩⟩
    exact hout.ne_overflow hstop (hy.tailsFit hv).tail_le rfl
  · obtain ⟨hlt, -⟩ := leave_eq_overflow hleave
    exact ⟨y, Relation.ReflTransGen.trans hx hpath, .inr ⟨token, entry, htask, hlt⟩⟩

theorem exists_overflows_of_call (hv : t.Valid) (hp : Visited t o u ⟨.idle, p⟩) {c : Call}
    (hc : u.makes c) {fuel : Nat} (h : c.run fuel p = .error .overflow q) :
    ∃ y, Visited t o u y ∧ y.Overflows := by
  cases c with
  | step token =>
    have hstepping : Visited t o u ⟨.stepping token, p⟩ :=
      Relation.ReflTransGen.tail hp (.callStep hc)
    exact exists_overflows_of_halts hv hstepping (.inr ⟨_, .refl, .inl ⟨token, rfl, h⟩⟩)
  | advance token =>
    have hadv : advance fuel token p = .error .overflow q := h
    cases hf : p.finished with
    | true =>
      rw [run_advance_finished fuel hf] at hadv
      cases hadv
    | false =>
      have hfollows := follows_advance hc fuel p hf
      rw [hadv] at hfollows
      exact exists_overflows_of_halts hv hp hfollows

/-! ## The main statement -/

/-- Whatever calls a user makes, errors or not: in every parse between the calls, and at every point
within them, no count of skipped items is above the number of items that it belongs to. An empty
reduction therefore always finds its place, and a call that overflows has come to a point with
another reason for it. -/
theorem tailsFit_of_visited (hv : t.Valid) (o : Options) (u : User) :
    (∀ p, Reachable t o u p → p.TailsFit) ∧
    (∀ x, Visited t o u x → x.parse.TailsFit ∧ ∀ r skipped, r.depth = 0 →
      popFrames r skipped x.parse = .ok (x.parse.emptyFrame skipped) x.parse) ∧
    ∀ p c fuel q, Reachable t o u p → u.makes c → c.run fuel p = .error .overflow q →
      ∃ y, Visited t o u y ∧ y.Overflows := by
  refine ⟨fun p hp => hp.visited.tailsFit hv, fun x hx => ?_, fun p c fuel q hp hc h => ?_⟩
  · have hfits := hx.tailsFit hv
    exact ⟨hfits, fun r skipped hdepth => hfits.popFrames_eq hdepth skipped⟩
  · exact exists_overflows_of_call hv hp.visited hc h

/-- The tables `relay` are left with fewer items than at the entry. The counts of skipped items
still fit there. -/
theorem tailsFit_of_visited_relay :
    relay.Valid ∧ ∃ token entry q, Visited relay {} .inRange ⟨.leaving token entry, q⟩ ∧
      q.items < entry.base ∧ q.TailsFit := by
  obtain ⟨q, hrun, -⟩ := parse_relayed
  obtain ⟨token, entry, hq, hlt⟩ := lacksItems_of_parse relay_valid relayed_inRange hrun
  obtain ⟨-, hall, -⟩ := tailsFit_of_visited relay_valid {} .inRange
  exact ⟨relay_valid, token, entry, q, hq, hlt, (hall _ hq).1⟩

end Parse

end LRMachine
