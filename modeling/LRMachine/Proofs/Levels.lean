import LRMachine.Parse.Advance
import LRMachine.Proofs.Outcome

/-!
# The levels of a parse

Each suspended grammar waits in the state that started the grammar inside it (`Nesting`), and every
state on a stack has a record in the tables of its level. `Parse.Sound` holds both; whatever a step
or the end of a nested grammar comes to, also when it fails half way, keeps it (`Outcome.sound`,
`sound_leave`).
-/

namespace LRMachine

/-- The suspended grammars lead from the tables `t` inwards to the given tables: each has its states
in its tables and waits in a state that starts the grammar inside it. -/
inductive Nesting (t : Tables) : Tables → List Suspension → Prop where
  | outermost : Nesting t t []
  | inner {s : Suspension} {outer : List Suspension} {d : Descriptor} {i : Nat}
    (host : Nesting t s.host.tables outer) (inTables : s.host.InTables)
    (hd : s.host.tables.descriptor s.host.stack.state = .ok d) (hi : d.nestIndex? = some i)
    (hg : s.host.tables.nested[i]? = some s.grammar) :
    Nesting t s.grammar.tables (s :: outer)

theorem Nesting.valid {t u : Tables} {suspended : List Suspension} (h : Nesting t u suspended)
    (hv : t.Valid) : u.Valid := by
  induction h with
  | outermost => exact hv
  | inner _ _ _ _ hg ih => exact ih.of_mem (List.mem_of_getElem? hg)

theorem Nesting.eq_of_nil {t u : Tables} {suspended : List Suspension}
    (h : Nesting t u suspended) (hs : suspended = []) : u = t := by
  cases h with
  | outermost => rfl
  | inner => cases hs

/-- With one suspended grammar at most, the innermost tables are the outermost ones or nested in
them. -/
theorem Nesting.host_or_nested {t u : Tables} {suspended : List Suspension}
    (h : Nesting t u suspended) (hl : suspended.length ≤ 1) :
    (suspended = [] ∧ u = t) ∨ ∃ s d i, suspended = [s] ∧ u = s.grammar.tables ∧
      s.host.tables = t ∧ t.descriptor s.host.stack.state = .ok d ∧ d.nestIndex? = some i ∧
      t.nested[i]? = some s.grammar := by
  cases h with
  | outermost => exact .inl ⟨rfl, rfl⟩
  | @inner s outer d i host _ hd hi hg =>
    have hnil : outer = [] := by simpa using hl
    have htables := host.eq_of_nil hnil
    rw [htables] at hd hg
    exact .inr ⟨s, d, i, by rw [hnil], rfl, htables, hd, hi, hg⟩

theorem Level.inTables_new {t : Tables} (hv : t.Valid) (start limit : Nat) :
    (Level.new t start limit).InTables := by
  intro f hf
  simp only [Level.new, Stack.frames_new, List.mem_singleton] at hf
  subst hf
  exact Storage.lt_stateCount_of_start hv.check_eq

namespace Parse

variable {t : Tables} {p q : Parse} {token : Token}

/-- The levels are nested as their tables say, and all their states have records. -/
structure Sound (t : Tables) (p : Parse) : Prop where
  nesting : Nesting t p.tables p.suspended
  inTables : p.active.InTables

theorem Sound.valid (h : Sound t p) (hv : t.Valid) : p.tables.Valid := h.nesting.valid hv

theorem Sound.outcome (h : Sound t p) (hv : t.Valid) (token : Token) :
    Outcome token p (step token p) :=
  outcome_step (h.valid hv) h.inTables token

theorem sound_new (hv : t.Valid) (o : Options) : Sound t (new t o) :=
  ⟨.outermost, Level.inTables_new hv _ _⟩

/-! ## Changes of the state -/

theorem Sound.of_levels_eq (h : Sound t p) (ha : q.active = p.active)
    (hs : q.suspended = p.suspended) : Sound t q := by
  obtain ⟨hn, hi⟩ := h
  constructor
  · rw [tables, ha, hs]
    exact hn
  · rw [ha]
    exact hi

theorem Sound.withStack (h : Sound t p) {stack : Stack}
    (hs : ∀ f ∈ stack.frames, f.state.toNat < p.tables.stateCount) : Sound t (p.withStack stack) :=
  ⟨h.nesting, hs⟩

theorem Sound.raised (h : Sound t p) {f : Frame} (hf : f.state.toNat < p.tables.stateCount) :
    Sound t (p.raised f) := by
  refine h.withStack fun g hg => ?_
  rw [Stack.frames_raise, List.mem_cons] at hg
  rcases hg with rfl | hg
  · exact hf
  · exact h.inTables g hg

theorem Sound.entered (h : Sound t p) (hv : t.Valid) {d : Descriptor} {i : Nat} {g : Nested Tables}
    (hd : p.tables.descriptor p.state = .ok d) (hi : d.nestIndex? = some i)
    (hg : p.tables.nested[i]? = some g) (start : Nat) : Sound t (p.entered g start) := by
  have hn : Nesting t g.tables (p.entered g start).suspended :=
    .inner (s := ⟨p.active, g, start, p.items, p.skippedTail, p.contentEnd⟩) h.nesting h.inTables
      hd hi hg
  exact ⟨hn, Level.inTables_new (hn.valid hv) _ _⟩

/-! ## Outcomes -/

theorem Lands.sound {f : Frame} {start : Nat} {made : Step} {r : Result}
    (l : Lands p f start made r) (h : Sound t p) (hv : t.Valid)
    (hf : f.state.toNat < p.tables.stateCount) : Sound t r.parse := by
  cases l with
  | full => exact h
  | rests => exact h.raised hf
  | enters _ hd hi hg => exact (h.raised hf).entered hv hd hi hg start

theorem Reduces.sound {red : Reduction} {skipped : Bool} {r : Result}
    (h : Reduces token red skipped p r) (hp : Sound t p) (hv : t.Valid) : Sound t r.parse := by
  cases h with
  | underflow => exact hp
  | uncounted => exact hp
  | missing hl _ => exact hp.withStack (hl.state_lt hp.inTables)
  | stays hl _ => exact (hp.withStack (hl.state_lt hp.inTables)).of_levels_eq rfl rfl
  | goes hl _ _ ht lands =>
    exact lands.sound ((hp.withStack (hl.state_lt hp.inTables)).of_levels_eq rfl rfl) hv ht

theorem Applies.sound {term : Term} {a : Action} {r : Result} (h : Applies term token p a r)
    (hp : Sound t p) (hv : t.Valid) : Sound t r.parse := by
  cases h with
  | unspanned => exact hp
  | shift ht _ _ lands => exact lands.sound (hp.of_levels_eq rfl rfl) hv ht
  | push ht lands => exact lands.sound hp hv ht
  | skip => exact hp.of_levels_eq rfl rfl
  | reduce _ reduces => exact reduces.sound hp hv

theorem Outcome.sound {r : Result} (h : Outcome token p r) (hp : Sound t p) (hv : t.Valid) :
    Sound t r.parse := by
  cases h with
  | finished => exact hp
  | accepted =>
    show Sound t (if p.suspended.isEmpty then p.closed else p)
    split
    · exact hp.of_levels_eq rfl rfl
    · exact hp
  | resolved _ _ _ applies => exact applies.sound hp hv
  | mismatched => exact hp
  | recovered _ _ _ _ _ applies =>
    exact applies.sound (hp.of_levels_eq (q := p.recovered _) rfl rfl) hv

/-- A step's result, with its outcome, for a sound parse. -/
theorem Sound.step (h : Sound t p) (hv : t.Valid) {r : Result} (hr : Parse.step token p = r) :
    Outcome token p r ∧ Sound t r.parse := by
  subst hr
  exact ⟨h.outcome hv token, (h.outcome hv token).sound h hv⟩

/-! ## Levels that a step enters -/

/-- The grammars that are suspended behind a change with the given result: those from before, and at
most one more, which has all items below its floor. -/
def EntersAtMost (p : Parse) (r : Result) : Prop :=
  r.parse.suspended = p.suspended ∨
    ∃ s, r.parse.suspended = s :: p.suspended ∧ s.base = r.parse.items

theorem Lands.entersAtMost {f : Frame} {start : Nat} {made : Step} {r : Result}
    (h : Lands p f start made r) : EntersAtMost p r := by
  cases h with
  | full => exact .inl rfl
  | rests => exact .inl rfl
  | enters => exact .inr ⟨_, rfl, rfl⟩

theorem Applies.entersAtMost {term : Term} {a : Action} {r : Result}
    (h : Applies term token p a r) : EntersAtMost p r := by
  cases h with
  | unspanned => exact .inl rfl
  | shift _ _ _ lands => exact lands.entersAtMost
  | push _ lands => exact lands.entersAtMost
  | skip => exact .inl rfl
  | reduce _ reduces =>
    cases reduces with
    | goes _ _ _ _ lands => exact lands.entersAtMost
    | _ => exact .inl rfl

/-- A step enters at most one nested grammar, and leaves none. -/
theorem Outcome.entersAtMost {r : Result} (h : Outcome token p r) : EntersAtMost p r := by
  cases h with
  | accepted =>
    left
    show (if p.suspended.isEmpty then p.closed else p).suspended = p.suspended
    split <;> rfl
  | resolved _ _ _ applies => exact applies.entersAtMost
  | recovered _ _ _ _ _ applies => exact applies.entersAtMost
  | _ => exact .inl rfl

theorem EntersAtMost.suspended_suffix {r : Result} (h : EntersAtMost p r) :
    p.suspended <:+ r.parse.suspended := by
  rcases h with h | ⟨s, h, -⟩
  · exact h ▸ List.suffix_rfl
  · rw [h]
    exact List.suffix_cons _ _

/-! ## Leaving a nested grammar -/

/-- A placeholder ends at the position, or at its start if that comes later. -/
theorem stop?_placeholder {position : Nat} (hstart : entry.start < UInt64.size)
    (hpos : position < UInt64.size) : (placeholder entry position).stop?.isSome = true := by
  have hstop : (placeholder entry position).stop? = some (max entry.start position) := by
    refine Token.stop?_eq_some_iff.mpr ⟨?_, Nat.max_lt.mpr ⟨hstart, hpos⟩⟩
    show entry.start + (position - entry.start) = max entry.start position
    omega
  rw [hstop]
  rfl

theorem run_leave (entry : Suspension) (p : Parse) :
    leave entry p =
      match p.suspended with
      | [] => .ok () p
      | innermost :: outer =>
        if p.items < entry.base then .error .overflow p
        else .ok () (p.left entry innermost.host outer) := by
  unfold leave
  simp only [run_bind, run_get]
  cases p.suspended with
  | nil => rfl
  | cons innermost outer =>
    dsimp only
    split <;> rfl

theorem leave_eq_ok {entry : Suspension} (h : leave entry p = .ok () q) :
    (p.suspended = [] ∧ q = p) ∨ ∃ innermost outer, p.suspended = innermost :: outer ∧
      entry.base ≤ p.items ∧ q = p.left entry innermost.host outer := by
  rw [run_leave] at h
  cases hs : p.suspended with
  | nil =>
    simp only [hs] at h
    cases h
    exact .inl ⟨rfl, rfl⟩
  | cons innermost outer =>
    simp only [hs] at h
    by_cases hlt : p.items < entry.base
    · rw [if_pos hlt] at h
      cases h
    · rw [if_neg hlt] at h
      cases h
      exact .inr ⟨innermost, outer, rfl, by omega, rfl⟩

theorem Sound.left {entry innermost : Suspension} {outer : List Suspension} (h : Sound t p)
    (hs : p.suspended = innermost :: outer) : Sound t (p.left entry innermost.host outer) := by
  obtain ⟨hn, -⟩ := h
  rw [hs] at hn
  generalize p.tables = u at hn
  cases hn with
  | inner host inTables => exact ⟨host, inTables⟩

theorem sound_leave {entry : Suspension} (h : Sound t p) (hq : leave entry p = .ok () q) :
    Sound t q := by
  rcases leave_eq_ok hq with ⟨-, rfl⟩ | ⟨innermost, outer, hs, -, rfl⟩
  · exact h
  · exact h.left hs

end Parse

end LRMachine
