import Mathlib.Data.List.Forall2
import LRMachine.Proofs.Limits
import LRMachine.Proofs.Overflow
import LRMachine.Proofs.Readings

/-!
# Recoveries and error leaves

A step that recovers reports its diagnostic first and then what the action on the error term does.
An action that consumes reports the error leaf at once, as a shift of the error term over the span
of the token, and no other way leads to such a shift: a checked table reads no term as the error
term. `Reported` lists all that a step can report. So the recoveries of a parse are the diagnostics
in its events, and the consumed ones among them are paired with the error leaves
(`accounted_of_visited`).
-/

namespace LRMachine

/-- No grammar that is nested in the tables, at any depth, has the error term as its placeholder. -/
inductive Tables.ErrFree : Tables → Prop where
  | intro {t : Tables} (placeholders : ∀ g ∈ t.nested, g.placeholder ≠ Term.err)
    (nested : ∀ g ∈ t.nested, ErrFree g.tables) : ErrFree t

/-- Around the innermost grammar no placeholder is the error term, and none is inside it. -/
theorem Nesting.errFree {t u : Tables} {suspended : List Suspension} (h : Nesting t u suspended)
    (herr : t.ErrFree) :
    u.ErrFree ∧ ∀ s ∈ suspended, s.grammar.placeholder ≠ Term.err := by
  induction h with
  | outermost => exact ⟨herr, by simp⟩
  | inner _ _ _ _ hg ih =>
    obtain ⟨⟨hplaceholders, hnested⟩, houter⟩ := ih
    have hmem := List.mem_of_getElem? hg
    exact ⟨hnested _ hmem, List.forall_mem_cons.mpr ⟨hplaceholders _ hmem, houter⟩⟩

namespace Event

/-- The event reports a mismatch that was recovered from. -/
def isDiagnostic : Event → Bool
  | diagnostic _ => true
  | _ => false

/-- The diagnostic of a token that became an error leaf. -/
def consumed? : Event → Option Diagnostic
  | diagnostic d => if d.consumed then some d else none
  | _ => none

/-- The shift of an error leaf. -/
def errorLeaf? : Event → Option ShiftEvent
  | shift e => if e.term = Term.err then some e else none
  | _ => none

end Event

namespace Parse

variable {t : Tables} {o : Options} {token : Token} {p q : Parse} {block : List Event}

/-! ## What a step reports -/

/-- The events that a step on `p` with `token` can report, oldest first. -/
inductive Reported (p : Parse) (token : Token) : List Event → Prop where
  | nothing : Reported p token []
  | shift {e : ShiftEvent} (he : e.term ≠ Term.err) : Reported p token [.shift e]
  | reduce (e : ReduceEvent) : Reported p token [.reduce e]
  /-- A recovery that consumes the token. -/
  | leaf {m : Mismatch} {e : ShiftEvent} (hm : p.mismatch token = .ok m) (he : e.term = Term.err)
    (hs : token.span? = some e.span) : Reported p token [.diagnostic ⟨m, true⟩, .shift e]
  /-- A recovery that keeps the token. -/
  | repair {m : Mismatch} {made : List Event} (hm : p.mismatch token = .ok m)
    (hmade : made = [] ∨ ∃ e, made = [.reduce e]) :
    Reported p token (.diagnostic ⟨m, false⟩ :: made)

/-- The events that an action can report for a token that was read as `term`. -/
inductive ReportedByAction (term : Term) (token : Token) : Bool → List Event → Prop where
  | shift {e : ShiftEvent} (he : e.term = term) (hs : token.span? = some e.span) :
    ReportedByAction term token true [.shift e]
  | kept {made : List Event} (hmade : made = [] ∨ ∃ e, made = [.reduce e]) :
    ReportedByAction term token false made

/-- The change from `p` to `q` reports the events `block` and counts the diagnostics in it. -/
structure Appends (p q : Parse) (block : List Event) : Prop where
  events_eq : q.events = p.events ++ block
  recoveries_eq : q.recoveries = p.recoveries + block.countP Event.isDiagnostic
  options_eq : q.options = p.options

theorem Appends.of_log_eq (hlog : q.log = block.reverse ++ p.log)
    (hrecoveries : q.recoveries = p.recoveries + block.countP Event.isDiagnostic)
    (hoptions : q.options = p.options) : Appends p q block := by
  refine ⟨?_, hrecoveries, hoptions⟩
  rw [events, hlog, List.reverse_append, List.reverse_reverse]
  rfl

theorem Appends.refl (p : Parse) : Appends p p [] := .of_log_eq rfl rfl rfl

theorem Appends.trans {x : Parse} {later : List Event} (h : Appends p q block)
    (h' : Appends q x later) : Appends p x (block ++ later) := by
  refine ⟨?_, ?_, h'.options_eq.trans h.options_eq⟩
  · rw [h'.events_eq, h.events_eq, List.append_assoc]
  · rw [h'.recoveries_eq, h.recoveries_eq, List.countP_append, Nat.add_assoc]

theorem Lands.appends {f : Frame} {start : Nat} {made : Step} {r : Result}
    (h : Lands q f start made r) (hq : Appends p q block) : Appends p r.parse block := by
  cases h with
  | full => exact hq
  | rests => exact ⟨hq.events_eq, hq.recoveries_eq, hq.options_eq⟩
  | enters => exact ⟨hq.events_eq, hq.recoveries_eq, hq.options_eq⟩

theorem Applies.appends {term : Term} {a : Action} {r : Result} (h : Applies term token p a r)
    (ht : token.stop?.isSome = true) :
    ∃ block, ReportedByAction term token a.consumes block ∧ Appends p r.parse block := by
  cases h with
  | unspanned _ hnone => exact absurd hnone (Token.span?_ne_none ht)
  | shift _ _ hs lands =>
    exact ⟨[.shift _], .shift rfl hs, lands.appends (.of_log_eq rfl rfl rfl)⟩
  | push _ lands => exact ⟨[], .kept (.inl rfl), lands.appends (.refl p)⟩
  | skip hs => exact ⟨[.shift _], .shift rfl hs, .of_log_eq rfl rfl rfl⟩
  | reduce _ reduces =>
    cases reduces with
    | underflow => exact ⟨[], .kept (.inl rfl), .refl p⟩
    | uncounted => exact ⟨[], .kept (.inl rfl), .refl p⟩
    | missing => exact ⟨[], .kept (.inl rfl), .of_log_eq rfl rfl rfl⟩
    | stays => exact ⟨[.reduce _], .kept (.inr ⟨_, rfl⟩), .of_log_eq rfl rfl rfl⟩
    | goes _ _ _ _ lands =>
      exact ⟨[.reduce _], .kept (.inr ⟨_, rfl⟩), lands.appends (.of_log_eq rfl rfl rfl)⟩

theorem ReportedByAction.reported {term : Term} {consumes : Bool}
    (h : ReportedByAction term token consumes block) (hterm : term ≠ Term.err) :
    Reported p token block := by
  cases h with
  | shift he => exact .shift (he ▸ hterm)
  | kept hmade =>
    rcases hmade with rfl | ⟨e, rfl⟩
    · exact .nothing
    · exact .reduce e

theorem ReportedByAction.recovered {m : Mismatch} {consumes : Bool}
    (h : ReportedByAction Term.err token consumes block) (hm : p.mismatch token = .ok m) :
    Reported p token ([.diagnostic ⟨m, consumes⟩] ++ block) := by
  cases h with
  | shift he hs => exact .leaf hm he hs
  | kept hmade => exact .repair hm hmade

theorem ReportedByAction.countP_eq {term : Term} {consumes : Bool}
    (h : ReportedByAction term token consumes block) : block.countP Event.isDiagnostic = 0 := by
  cases h with
  | shift => rfl
  | kept hmade =>
    rcases hmade with rfl | ⟨e, rfl⟩
    · rfl
    · rfl

/-- A step with a token other than the error term reports one of the listed blocks of events, and
recovers only within its limit. -/
theorem Outcome.reported {r : Result} (h : Outcome token p r) (hv : p.tables.Valid)
    (ht : token.stop?.isSome = true) (hterm : token.term ≠ Term.err)
    (hle : p.recoveries ≤ p.options.maxRecoveries) :
    ∃ block, Reported p token block ∧ Appends p r.parse block ∧
      r.parse.recoveries ≤ p.options.maxRecoveries := by
  cases h with
  | finished => exact ⟨[], .nothing, .refl p, hle⟩
  | mismatched => exact ⟨[], .nothing, .refl p, hle⟩
  | accepted =>
    show ∃ block, _ ∧ Appends p (if p.suspended.isEmpty then p.closed else p) block ∧
      (if p.suspended.isEmpty then p.closed else p).recoveries ≤ p.options.maxRecoveries
    split
    · exact ⟨[], .nothing, .of_log_eq rfl rfl rfl, hle⟩
    · exact ⟨[], .nothing, .refl p, hle⟩
  | resolved _ hr _ applies =>
    obtain ⟨block, hblock, happends⟩ := applies.appends ht
    refine ⟨block, hblock.reported (hv.ne_err_of_resolve hr hterm), happends, ?_⟩
    rw [happends.recoveries_eq, hblock.countP_eq]
    exact hle
  | @recovered m a _ _ _ hm hmax _ applies =>
    obtain ⟨block, hblock, happends⟩ := applies.appends ht
    have hfirst : Appends p (p.recovered ⟨m, a.consumes⟩) [.diagnostic ⟨m, a.consumes⟩] :=
      .of_log_eq rfl rfl rfl
    refine ⟨_, hblock.recovered hm, hfirst.trans happends, ?_⟩
    rw [happends.recoveries_eq, hblock.countP_eq]
    exact hmax

/-! ## Blocks -/

/-- A consumed diagnostic opens its block, and the error leaf of its token is all that follows. -/
theorem Reported.followed (h : Reported p token block) {before after : List Event} {d : Diagnostic}
    (hsplit : block = before ++ .diagnostic d :: after) (hd : d.consumed = true) :
    before = [] ∧ p.mismatch token = .ok d.mismatch ∧
      ∃ e, after = [.shift e] ∧ e.term = Term.err ∧ token.span? = some e.span := by
  cases h with
  | nothing => simp at hsplit
  | shift => cases before <;> simp at hsplit
  | reduce => cases before <;> simp at hsplit
  | leaf hm he hs =>
    cases before with
    | nil =>
      obtain ⟨hd', rfl⟩ := List.cons.inj hsplit
      cases hd'
      exact ⟨rfl, hm, _, rfl, he, hs⟩
    | cons first rest => cases rest <;> simp at hsplit
  | repair hm hmade =>
    cases before with
    | nil =>
      obtain ⟨hd', -⟩ := List.cons.inj hsplit
      cases hd'
      cases hd
    | cons first rest =>
      rcases hmade with rfl | ⟨e, rfl⟩
      · simp at hsplit
      · cases rest <;> simp at hsplit

theorem Reported.preceded (h : Reported p token block) {before after : List Event} {e : ShiftEvent}
    (hsplit : block = before ++ .shift e :: after) (he : e.term = Term.err) :
    ∃ d, before = [.diagnostic d] ∧ d.consumed = true := by
  cases h with
  | nothing => simp at hsplit
  | shift he' =>
    cases before with
    | nil =>
      obtain ⟨hshift, -⟩ := List.cons.inj hsplit
      cases hshift
      exact absurd he he'
    | cons first rest => simp at hsplit
  | reduce => cases before <;> simp at hsplit
  | leaf =>
    cases before with
    | nil => simp at hsplit
    | cons first rest =>
      cases rest with
      | nil => exact ⟨_, congrArg ([·]) (List.cons.inj hsplit).1.symm, rfl⟩
      | cons => simp at hsplit
  | repair hm hmade =>
    cases before with
    | nil => simp at hsplit
    | cons first rest =>
      rcases hmade with rfl | ⟨e, rfl⟩
      · simp at hsplit
      · cases rest <;> simp at hsplit

/-- The diagnostic lies where the error leaf begins. -/
def Marks (d : Diagnostic) (e : ShiftEvent) : Prop := d.mismatch.position = e.span.start

theorem Reported.corresponds (h : Reported p token block) :
    List.Forall₂ Marks (block.filterMap Event.consumed?) (block.filterMap Event.errorLeaf?) := by
  cases h with
  | nothing => exact .nil
  | shift he => simp [Event.consumed?, Event.errorLeaf?, he]
  | reduce => exact .nil
  | @leaf m e hm he hs =>
    have hmarks : Marks ⟨m, true⟩ e := by
      obtain ⟨terms, -, rfl⟩ := exists_of_map_eq_ok hm
      exact (Token.span?_eq_some_iff.mp hs).1
    have hleaf : (Event.shift e).errorLeaf? = some e := if_pos he
    have hleaves : List.filterMap Event.errorLeaf? [.diagnostic ⟨m, true⟩, .shift e] = [e] := by
      rw [List.filterMap_cons_none rfl, List.filterMap_cons_some hleaf, List.filterMap_nil]
    rw [hleaves]
    exact .cons hmarks .nil
  | repair hm hmade =>
    rcases hmade with rfl | ⟨e, rfl⟩
    · exact .nil
    · exact .nil

/-! ## Runs -/

/-- Makes calls with tokens that end within 64 bits and are not the error term, and goes on after
errors. -/
def User.errFree : User :=
  ⟨fun c => c.token.stop?.isSome = true ∧ c.token.term ≠ Term.err, True⟩

/-- On the way to `x`, behind the events `before`, a step with `token` reported the diagnostic `d`
on this token and the leaf `e`. -/
inductive LeafOf (t : Tables) (o : Options) (u : User) (x : Point) (before : List Event)
    (d : Diagnostic) (e : ShiftEvent) (token : Token) : Prop where
  | intro {y z : Point} (start : Visited t o u y) (step : Move u y z) (path : Path u z x)
    (lookahead : y.task.lookahead = some token) (before_eq : y.parse.events = before)
    (mismatch : y.parse.mismatch token = .ok d.mismatch)
    (after_eq : z.parse.events = before ++ [.diagnostic d, .shift e])

/-- The recoveries at a point of a run are its diagnostics and within the limit. Behind each
consumed diagnostic comes the error leaf of the token that it was reported on, in front of each
error leaf a consumed diagnostic, and so both correspond in order. -/
structure Accounted (t : Tables) (o : Options) (u : User) (x : Point) : Prop where
  recoveries_eq : x.parse.recoveries = x.parse.events.countP Event.isDiagnostic
  recoveries_le : x.parse.recoveries ≤ o.maxRecoveries
  followed : ∀ before d after, x.parse.events = before ++ .diagnostic d :: after →
    d.consumed = true → ∃ e later, after = .shift e :: later ∧ e.term = Term.err ∧
      ∃ token, LeafOf t o u x before d e token ∧ token.span? = some e.span
  preceded : ∀ before e after, x.parse.events = before ++ .shift e :: after →
    e.term = Term.err → ∃ earlier d, before = earlier ++ [.diagnostic d] ∧ d.consumed = true
  corresponds : List.Forall₂ Marks (x.parse.events.filterMap Event.consumed?)
    (x.parse.events.filterMap Event.errorLeaf?)

theorem exists_split_of_append {events before after : List Event} {event : Event}
    (h : events ++ block = before ++ event :: after) :
    (∃ rest, events = before ++ event :: rest ∧ after = rest ++ block) ∨
      ∃ rest, before = events ++ rest ∧ block = rest ++ event :: after := by
  rcases List.append_eq_append_iff.mp h with ⟨rest, hbefore, hblock⟩ | ⟨rest, hevents, hafter⟩
  · exact .inr ⟨rest, hbefore, hblock⟩
  · cases rest with
    | nil => exact .inr ⟨[], by simpa using hevents.symm, hafter.symm⟩
    | cons first rest =>
      obtain ⟨rfl, rfl⟩ := List.cons.inj hafter
      exact .inl ⟨rest, hevents, rfl⟩

theorem errFree_invariant (herr : t.ErrFree) :
    Invariant t .errFree InRange (fun token => token.stop?.isSome = true ∧ token.term ≠ Term.err)
      fun entry => entry.start < UInt64.size ∧ entry.grammar.placeholder ≠ Term.err where
  call hc := hc
  eof ht := ⟨stop?_eof (Token.start_lt_of_stop? ht.1), (by decide : Term.eof ≠ Term.err)⟩
  placeholder ht hentry :=
    ⟨stop?_placeholder hentry.1 (Token.start_lt_of_stop? ht.1), hentry.2⟩
  entry h hsound hs := ⟨h.starts_lt _ hs, (hsound.nesting.errFree herr).2 _ hs⟩
  step h ht _ hout := (InRange.keptByChanges ht.1).outcome hout h
  left h _ hs _ := h.left hs

/-- A move makes a step, which reports one of the listed blocks, or it reports nothing. -/
theorem Move.appends (hv : t.Valid) (herr : t.ErrFree) {x y : Point}
    (hx : Visited t o .errFree x) (h : Move .errFree x y)
    (hle : x.parse.recoveries ≤ x.parse.options.maxRecoveries) :
    ∃ block, Appends x.parse y.parse block ∧
      y.parse.recoveries ≤ x.parse.options.maxRecoveries ∧
      (block = [] ∨ ∃ token, x.task.lookahead = some token ∧ Reported x.parse token block) := by
  have hsound := Visited.sound hv hx
  obtain ⟨-, hmeets⟩ := (errFree_invariant herr).visited hv (inRange_new t o) hx
  have hstep : ∀ {token} {r : Result}, x.task.lookahead = some token → step token x.parse = r →
      ∃ block, Appends x.parse r.parse block ∧
        r.parse.recoveries ≤ x.parse.options.maxRecoveries ∧
        (block = [] ∨ ∃ token, x.task.lookahead = some token ∧ Reported x.parse token block) := by
    intro token r hl hr
    obtain ⟨ht, hterm⟩ := (errFree_invariant herr).lookahead hmeets hl
    obtain ⟨block, hblock, happends, hmax⟩ :=
      (hsound.step hv hr).1.reported (hsound.valid hv) ht hterm hle
    exact ⟨block, happends, hmax, .inr ⟨token, hl, hblock⟩⟩
  cases h with
  | callStep => exact ⟨[], .refl _, hle, .inl rfl⟩
  | callAdvance => exact ⟨[], .refl _, hle, .inl rfl⟩
  | close => exact ⟨[], .refl _, hle, .inl rfl⟩
  | feed => exact ⟨[], .refl _, hle, .inl rfl⟩
  | made _ hl hr => exact hstep hl hr
  | left hleave =>
    rcases leave_eq_ok hleave with ⟨-, rfl⟩ | ⟨innermost, outer, -, -, rfl⟩
    · exact ⟨[], .refl _, hle, .inl rfl⟩
    · exact ⟨[], .of_log_eq rfl rfl rfl, hle, .inl rfl⟩
  | failed _ _ hl hr => exact hstep hl hr

theorem LeafOf.tail {u : User} {x y : Point} {before : List Event} {d : Diagnostic}
    {e : ShiftEvent} (h : LeafOf t o u x before d e token) (hmove : Move u x y) :
    LeafOf t o u y before d e token := by
  obtain ⟨hstart, hstep, hpath, hlookahead, hbefore, hmismatch, hafter⟩ := h
  exact ⟨hstart, hstep, hpath.tail hmove, hlookahead, hbefore, hmismatch, hafter⟩

/-- The accounts are right behind a move that reports nothing, or a block of a step. -/
theorem Accounted.tail {u : User} {x y : Point} (h : Accounted t o u x) (hx : Visited t o u x)
    (hmove : Move u x y) (happends : Appends x.parse y.parse block)
    (hle : y.parse.recoveries ≤ o.maxRecoveries)
    (hblock : block = [] ∨
      ∃ token, x.task.lookahead = some token ∧ Reported x.parse token block) :
    Accounted t o u y where
  recoveries_eq := by
    rw [happends.recoveries_eq, happends.events_eq, List.countP_append, h.recoveries_eq]
  recoveries_le := hle
  followed before d after hevents hd := by
    rw [happends.events_eq] at hevents
    -- the diagnostic is an earlier one, or the block begins with it
    rcases exists_split_of_append hevents with ⟨rest, hx', rfl⟩ | ⟨rest, rfl, hsplit⟩
    · obtain ⟨e, later, rfl, he, token, hleaf, hspan⟩ := h.followed _ _ _ hx' hd
      exact ⟨e, later ++ block, rfl, he, token, hleaf.tail hmove, hspan⟩
    · rcases hblock with rfl | ⟨token, hl, hreported⟩
      · simp at hsplit
      · obtain ⟨rfl, hmismatch, e, rfl, he, hspan⟩ := hreported.followed hsplit hd
        refine ⟨e, [], rfl, he, token, ⟨hx, hmove, .refl, hl, ?_, hmismatch, ?_⟩, hspan⟩
        · rw [List.append_nil]
        · rw [happends.events_eq, hsplit, List.append_nil, List.nil_append]
  preceded before e after hevents he := by
    rw [happends.events_eq] at hevents
    rcases exists_split_of_append hevents with ⟨rest, hx', -⟩ | ⟨rest, rfl, hsplit⟩
    · exact h.preceded _ _ _ hx' he
    · rcases hblock with rfl | ⟨token, -, hreported⟩
      · simp at hsplit
      · obtain ⟨d, rfl, hd⟩ := hreported.preceded hsplit he
        exact ⟨_, d, rfl, hd⟩
  corresponds := by
    rw [happends.events_eq, List.filterMap_append, List.filterMap_append]
    refine List.rel_append h.corresponds ?_
    rcases hblock with rfl | ⟨token, -, hreported⟩
    · exact .nil
    · exact hreported.corresponds

/-- Over valid tables whose placeholders are not the error term, whatever calls a user makes with
other tokens than the error term, errors or not: the accounts of recoveries and error leaves are
right between the calls and at every point within them. -/
theorem accounted_of_visited (hv : t.Valid) (herr : t.ErrFree) (o : Options) :
    (∀ p, Reachable t o .errFree p → Accounted t o .errFree ⟨.idle, p⟩) ∧
    ∀ x, Visited t o .errFree x → Accounted t o .errFree x := by
  have hvisited : ∀ x, Visited t o .errFree x →
      x.parse.options = o ∧ Accounted t o .errFree x := by
    intro x hx
    induction hx with
    | refl =>
      refine ⟨rfl, rfl, Nat.zero_le _, fun before d after h => ?_, fun before e after h => ?_, .nil⟩
      · simp [new, events] at h
      · simp [new, events] at h
    | @tail x y hx hmove ih =>
      obtain ⟨hoptions, hx'⟩ := ih
      obtain ⟨block, happends, hle, hblock⟩ :=
        hmove.appends hv herr hx (hoptions ▸ hx'.recoveries_le)
      rw [hoptions] at hle
      exact ⟨happends.options_eq.trans hoptions, hx'.tail hx hmove happends hle hblock⟩
  exact ⟨fun p hp => (hvisited _ hp.visited).2, fun x hx => (hvisited x hx).2⟩

/-- Advances over an opening 3 and two words. -/
def wordCalls : List Call := [.advance ⟨3, 0, 1⟩, .advance ⟨9, 1, 1⟩, .advance ⟨9, 2, 1⟩]

/-- With one recovery allowed the first word becomes an error leaf, and the second one an error. -/
theorem accounted_of_visited_tolerant :
    tolerant.Valid ∧ tolerant.ErrFree ∧ ∃ p, Reachable tolerant ⟨1, 3⟩ .errFree p ∧
      p.recoveries = 1 ∧ p.events.filterMap Event.errorLeaf? = [⟨Term.err, ⟨1, 2⟩, 0, true⟩] ∧
      Accounted tolerant ⟨1, 3⟩ .errFree ⟨.idle, p⟩ := by
  have herr : tolerant.ErrFree := by
    refine .intro (by decide) fun g hg => ?_
    obtain rfl := List.mem_singleton.mp hg
    exact .intro (by simp) (by simp)
  have hmakes : ∀ c ∈ wordCalls, User.errFree.makes c := by
    simp only [wordCalls, List.forall_mem_cons]
    exact ⟨⟨rfl, by decide⟩, ⟨rfl, by decide⟩, ⟨rfl, by decide⟩, by simp⟩
  have hp : Reachable tolerant ⟨1, 3⟩ .errFree (runCalls 2 wordCalls (new tolerant ⟨1, 3⟩)) :=
    Reachable.new.runCalls trivial hmakes (by decide +kernel)
  exact ⟨tolerant_valid, herr, _, hp, by decide +kernel, by decide +kernel,
    (accounted_of_visited tolerant_valid herr ⟨1, 3⟩).1 _ hp⟩

end Parse

end LRMachine
