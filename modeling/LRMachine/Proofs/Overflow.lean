import LRMachine.Proofs.Invariants

/-!
# Where a parse overflows

Tokens that end within 64 bits keep all positions of a parse there (`InRange`), and the skipped
items at the end are never more than the items, in the counters as in every frame and in every
suspended grammar (`TailsFit`). Hence no step overflows, and a run can stop with an overflow at one
place only: on the way out of a nested grammar that has fewer items than at its entry
(`lacksItems_of_halts`, and for a whole parse `lacksItems_of_parse`).
-/

namespace LRMachine

/-- No frame has more skipped items in front of it than items. -/
def Level.TailsFit (l : Level) : Prop := ∀ f ∈ l.stack.frames, f.tail ≤ f.base

namespace Parse

variable {t : Tables} {o : Options} {token : Token} {entry : Suspension} {p q : Parse}

/-! ## Positions -/

/-- The positions that tokens are made of have 64 bits. -/
structure InRange (p : Parse) : Prop where
  position_lt : p.position < UInt64.size
  starts_lt : ∀ s ∈ p.suspended, s.start < UInt64.size

theorem stop?_eof {position : Nat} (h : position < UInt64.size) :
    (Token.eof position).stop?.isSome = true := by
  have hstop : (Token.eof position).stop? = some position := Token.stop?_eq_some_iff.mpr ⟨rfl, h⟩
  rw [hstop]
  rfl

theorem inRange_new (t : Tables) (o : Options) : (new t o).InRange where
  position_lt := Nat.zero_lt_succ _
  starts_lt s hs := by cases hs

theorem InRange.keptByChanges (ht : token.stop?.isSome = true) :
    KeptByChanges token InRange fun _ _ => True where
  recovered _ h := ⟨h.position_lt, h.starts_lt⟩
  closed h := ⟨h.position_lt, h.starts_lt⟩
  consumed _ _ h hs := by
    have hstop := (Token.stop?_eq_some_iff.mp (Token.span?_eq_some_iff.mp hs).2).2
    exact ⟨Nat.max_lt.mpr ⟨h.position_lt, hstop⟩, h.starts_lt⟩
  shifted _ _ _ _ := trivial
  pushed _ _ := trivial
  popped h _ := ⟨h.position_lt, h.starts_lt⟩
  reduced h _ := ⟨h.position_lt, h.starts_lt⟩
  built _ _ _ := trivial
  raised h _ _ := ⟨h.position_lt, h.starts_lt⟩
  entered g h hstart := by
    refine ⟨h.position_lt, List.forall_mem_cons.mpr ⟨?_, h.starts_lt⟩⟩
    rcases hstart with rfl | rfl
    · exact Token.start_lt_of_stop? ht
    · exact h.position_lt

theorem InRange.left {innermost : Suspension} {outer : List Suspension} (h : p.InRange)
    (hs : p.suspended = innermost :: outer) : (p.left entry innermost.host outer).InRange :=
  ⟨h.position_lt, fun s hmem => h.starts_lt s (by rw [hs]; exact List.mem_cons_of_mem _ hmem)⟩

theorem inRange_invariant (t : Tables) :
    Invariant t .inRange InRange (fun token => token.stop?.isSome = true)
      fun entry => entry.start < UInt64.size where
  call hc := hc
  eof ht := stop?_eof (Token.start_lt_of_stop? ht)
  placeholder ht hentry := stop?_placeholder hentry (Token.start_lt_of_stop? ht)
  entry h _ hs := h.starts_lt _ hs
  step h ht _ hout := (InRange.keptByChanges ht).outcome hout h
  left h _ hs _ := h.left hs

/-! ## Skipped items at the end -/

/-- The skipped items at the end are never more than the items. -/
structure TailsFit (p : Parse) : Prop where
  tail_le : p.skippedTail ≤ p.items
  active : p.active.TailsFit
  suspended : ∀ s ∈ p.suspended, s.tail ≤ s.base ∧ s.host.TailsFit

theorem tailsFit_new (t : Tables) (o : Options) : (new t o).TailsFit where
  tail_le := Nat.le_refl _
  active f hf := by
    obtain rfl : f = ⟨t.start, 0, 0, 0⟩ := by simpa [new, Level.new] using hf
    exact Nat.le_refl _
  suspended s hs := by cases hs

theorem TailsFit.stands (h : p.TailsFit) {r : Reduction} {skipped : Bool} {lowest : Frame}
    {stack : Stack} (hl : Stands p r skipped lowest stack) : lowest.tail ≤ lowest.base := by
  cases hl with
  | empty =>
    unfold emptyFrame
    split
    · exact h.tail_le
    · exact Nat.zero_le _
  | popped _ hf =>
    exact h.active lowest (List.mem_append_left _ (List.mem_of_getElem? hf))

theorem TailsFit.reduced (h : p.TailsFit) {r : Reduction} {skipped : Bool} {lowest : Frame}
    {stack : Stack} (hl : Stands p r skipped lowest stack) :
    ((p.withStack stack).reduced (p.reduceEvent r skipped lowest) lowest).TailsFit := by
  have hlowest := h.stands hl
  refine ⟨?_, fun f hf => h.active f (hl.frames_subset hf), h.suspended⟩
  show (if skipped then lowest.tail + 1 else (p.reduceEvent r skipped lowest).hoisted) ≤
    lowest.base + 1 + (p.reduceEvent r skipped lowest).hoisted
  split <;> omega

theorem TailsFit.keptByChanges (token : Token) :
    KeptByChanges token TailsFit fun _ f => f.tail ≤ f.base where
  recovered _ h := ⟨h.tail_le, h.active, h.suspended⟩
  closed h := ⟨h.tail_le, h.active, h.suspended⟩
  consumed {p _} _ skipped h _ := by
    refine ⟨?_, h.active, h.suspended⟩
    have htail := h.tail_le
    show (if skipped then p.skippedTail - p.mount + 1 else 0) ≤ p.items - p.mount + 1
    split <;> omega
  shifted _ _ _ h := Nat.sub_le_sub_right h.tail_le _
  pushed _ h := h.tail_le
  popped h hl := ⟨h.tail_le, fun f hf => h.active f (hl.frames_subset hf), h.suspended⟩
  reduced h hl := h.reduced hl
  built _ h hl := by
    have hlowest := h.stands hl
    exact hlowest
  raised h hf _ := ⟨h.tail_le, List.forall_mem_cons.mpr ⟨hf, h.active⟩, h.suspended⟩
  entered g h _ := by
    refine ⟨Nat.zero_le _, fun f hf => ?_,
      List.forall_mem_cons.mpr ⟨⟨h.tail_le, h.active⟩, h.suspended⟩⟩
    rw [List.mem_singleton.mp hf]
    exact Nat.le_refl _

theorem tailsFit_invariant (t : Tables) (u : User) :
    Invariant t u TailsFit (fun _ => True) fun entry => entry.tail ≤ entry.base where
  call _ := trivial
  eof _ := trivial
  placeholder _ _ := trivial
  entry h _ hs := (h.suspended _ hs).1
  step {_ token _} h _ _ hout := (TailsFit.keptByChanges token).outcome hout h
  left {p entry _ _} h hentry hs hle := by
    obtain ⟨⟨-, hhost⟩, houter⟩ := List.forall_mem_cons.mp (hs ▸ h.suspended)
    refine ⟨?_, hhost, houter⟩
    show entry.tail + (p.items - entry.base) ≤ p.items
    omega

/-! ## Steps do not overflow -/

theorem Lands.ne_overflow {f : Frame} {start : Nat} {made : Step} {r : Result}
    (h : Lands p f start made r) : r ≠ .error .overflow q := by
  cases h <;> simp

theorem Applies.ne_overflow {term : Term} {a : Action} {r : Result} (h : Applies term token p a r)
    (ht : token.stop?.isSome = true) (htail : p.skippedTail ≤ p.items) :
    r ≠ .error .overflow q := by
  cases h with
  | unspanned _ hnone => exact absurd hnone (Token.span?_ne_none ht)
  | shift _ _ _ lands => exact lands.ne_overflow
  | push _ lands => exact lands.ne_overflow
  | skip => simp
  | reduce _ reduces =>
    cases reduces with
    | uncounted _ _ hlt => omega
    | goes _ _ _ _ lands => exact lands.ne_overflow
    | _ => simp

/-- A step with a token that ends within 64 bits does not overflow. -/
theorem Outcome.ne_overflow {r : Result} (h : Outcome token p r) (ht : token.stop?.isSome = true)
    (htail : p.skippedTail ≤ p.items) : r ≠ .error .overflow q := by
  cases h with
  | resolved _ _ _ applies => exact applies.ne_overflow ht htail
  | recovered _ _ _ _ _ applies => exact applies.ne_overflow ht htail
  | _ => simp

/-! ## Calls -/

/-- The run is on the way out of a nested grammar with fewer items than at its entry. -/
def LacksItems (t : Tables) (o : Options) (p : Parse) : Prop :=
  ∃ token entry, Visited t o .inRange ⟨.leaving token entry, p⟩ ∧ p.items < entry.base

theorem leave_eq_overflow (h : leave entry p = .error .overflow q) :
    p.items < entry.base ∧ q = p := by
  rw [run_leave] at h
  split at h
  · cases h
  · split at h
    · cases h
      exact ⟨‹_›, rfl⟩
    · cases h

/-- A run that stops with an overflow is on the way out of a nested grammar. -/
theorem lacksItems_of_halts (hv : t.Valid) {x : Point} (hx : Visited t o .inRange x)
    (h : Halts .inRange x .overflow q) : LacksItems t o q := by
  rcases h with h | ⟨y, hpath, ⟨token, hl, hstep⟩ | ⟨token, entry, htask, hleave⟩⟩
  · cases h
  · have hy : Visited t o .inRange y := Relation.ReflTransGen.trans hx hpath
    obtain ⟨-, hmeets⟩ := (inRange_invariant t).visited hv (inRange_new t o) hy
    obtain ⟨htails, -⟩ := (tailsFit_invariant t .inRange).visited hv (tailsFit_new t o) hy
    have hout := ((Visited.sound hv hy).step hv hstep).1
    exact absurd rfl
      (hout.ne_overflow ((inRange_invariant t).lookahead hmeets hl) htails.tail_le)
  · obtain ⟨hlt, rfl⟩ := leave_eq_overflow hleave
    obtain ⟨task, y⟩ := y
    obtain rfl : task = .leaving token entry := htask
    exact ⟨token, entry, Relation.ReflTransGen.trans hx hpath, hlt⟩

theorem lacksItems_of_advance (hv : t.Valid) (hp : Visited t o .inRange ⟨.idle, p⟩)
    (ht : token.stop?.isSome = true) {fuel : Nat} (h : advance fuel token p = .error .overflow q) :
    LacksItems t o q := by
  cases hf : p.finished with
  | true =>
    rw [run_advance_finished fuel hf] at h
    cases h
  | false =>
    have hfollows := follows_advance (u := .inRange) ht fuel p hf
    rw [h] at hfollows
    exact lacksItems_of_halts hv hp hfollows

theorem lacksItems_of_feed (hv : t.Valid) {fuel : Nat} :
    ∀ {tokens : List Token} {stop : Nat} {p : Parse}, Visited t o .inRange ⟨.idle, p⟩ →
      (∀ token ∈ tokens, token.stop?.isSome = true) → stop < UInt64.size →
      feed fuel tokens stop p = .error .overflow q → LacksItems t o q := by
  intro tokens
  induction tokens with
  | nil =>
    intro stop p hp _ hstop h
    simp only [feed, run_bind] at h
    cases hadv : advance fuel (Token.eof stop) p with
    | ok made p' => simp [hadv, run_pure] at h
    | error halt p' =>
      simp only [hadv] at h
      cases h
      exact lacksItems_of_advance hv hp (stop?_eof hstop) hadv
  | cons token rest ih =>
    intro stop p hp htokens _ h
    obtain ⟨htoken, hrest⟩ := List.forall_mem_cons.mp htokens
    obtain ⟨behind, hbehind⟩ := Option.isSome_iff_exists.mp htoken
    simp only [feed, hbehind, run_bind] at h
    cases hadv : advance fuel token p with
    | error halt p' =>
      simp only [hadv] at h
      cases h
      exact lacksItems_of_advance hv hp htoken hadv
    | ok made p' =>
      simp only [hadv] at h
      split at h
      · cases h
      · exact ih (hp.advance_ok htoken hadv) hrest (Token.stop?_eq_some_iff.mp hbehind).2 h

/-- A whole parse of tokens that end within 64 bits overflows on the way out of a nested grammar
only. -/
theorem lacksItems_of_parse (hv : t.Valid) {fuel : Nat} {tokens : List Token}
    (htokens : ∀ token ∈ tokens, token.stop?.isSome = true)
    (h : parse fuel t tokens o = .error .overflow q) : LacksItems t o q :=
  lacksItems_of_feed hv .refl htokens (Nat.zero_lt_succ _) h

end Parse

end LRMachine
