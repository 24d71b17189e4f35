import LRMachine.Proofs.Balance
import LRMachine.Proofs.Overflow

/-!
# Nested grammars are isolated and mounted

While a nested grammar runs, it works above the items that its host had pending at the entry, and
when it ends, the placeholder adopts the items since then and nothing else
(`isolated_and_mounted`). The user may go on after errors, as long as the tokens end within 64 bits.
`Closes` lists what it comes to when such a grammar is closed.

`Task.Suits` says what is mounted and suspended at each point of a call; together with
`Parse.Balanced` it is kept by every move (`Point.Good.move`).
-/

namespace LRMachine

namespace Parse

variable {t : Tables} {o : Options} {token : Token} {entry : Suspension} {p q : Parse}

/-! ## Leaving a nested grammar -/

/-- The host stands in the state that started the nested grammar of `entry`, which it has left. -/
structure Awaits (t : Tables) (entry : Suspension) (p : Parse) : Prop where
  outermost : p.suspended = []
  running : p.finished = false
  start_lt : entry.start < UInt64.size
  starts : ∃ d i, t.descriptor p.state = .ok d ∧ d.nestIndex? = some i ∧
    t.nested[i]? = some entry.grammar

theorem Balanced.base_le (h : Balanced t p) (hs : p.suspended = [entry]) (hmount : p.mount = 0) :
    entry.base ≤ p.items := by
  have hle := h.fits.floor_le
  rw [floor, hs, shiftBase, hmount] at hle
  exact hle

/-- The grammar that was entered at `entry` can be left, and then the host awaits its
placeholder. -/
theorem Balanced.leave (h : Balanced t p) (hs : p.suspended = [entry]) (hmount : p.mount = 0) :
    Parse.leave entry p = .ok () (p.left entry entry.host []) ∧
      Balanced t (p.left entry entry.host []) ∧ Awaits t entry (p.left entry entry.host []) := by
  have hbase := h.base_le hs hmount
  have hleave : Parse.leave entry p = .ok () (p.left entry entry.host []) := by
    rw [run_leave, hs]
    exact if_neg (by omega)
  have hmem : entry ∈ p.suspended := by rw [hs]; exact List.mem_singleton_self _
  refine ⟨hleave, ⟨sound_leave h.sound hleave, Nat.zero_le _, fun hne => absurd rfl hne,
    h.items_eq, Nat.sub_le _ _, ?_, by simp [Parse.left], h.position_lt, by simp [Parse.left]⟩, ?_⟩
  · have hshift : (p.left entry entry.host []).shiftBase = entry.base := by
      show p.items - (p.items - entry.base) = entry.base
      omega
    have htail : (p.left entry entry.host []).shiftTail = entry.tail := by
      show entry.tail + (p.items - entry.base) - (p.items - entry.base) = entry.tail
      omega
    rw [hshift, htail]
    exact h.hosts_fit entry hmem
  · rcases h.sound.nesting.host_or_nested h.shallow with
      ⟨hnil, -⟩ | ⟨s, d, i, hs', -, htables, hd, hi, hg⟩
    · rw [hs] at hnil
      cases hnil
    · obtain rfl : s = entry := by simpa [hs] using hs'.symm
      exact ⟨rfl, h.running (by simp [hs]), h.starts_lt _ hmem, d, i, hd, hi, hg⟩

/-- The first step with the placeholder consumes it, with everything that is mounted. -/
theorem Awaits.step (ha : Awaits t entry p) (h : Balanced t p) (hv : t.Valid) (hm : t.Mountable)
    {position : Nat} (hpos : position < UInt64.size) {r : Result}
    (hr : Parse.step (placeholder entry position) p = r) :
    Settles t p r.parse ∧ (∀ made q, r = .ok made q → made.consumed = true) ∧
      ∃ term span skipped, r.parse.log = (p.consumed term span skipped).log := by
  obtain ⟨d, i, hd, hi, hg⟩ := ha.starts
  obtain ⟨hne, term, a, hresolve, hconsumes⟩ := hm.mounts _ _ _ _ hd hi hg
  rw [← h.sound.nesting.eq_of_nil ha.outermost] at hresolve
  obtain ⟨span, hspan⟩ := Token.exists_span (stop?_placeholder ha.start_lt hpos)
  have hout : Outcome (placeholder entry position) p r := hr ▸ h.sound.outcome hv _
  cases hout with
  | finished hf => rw [ha.running] at hf; cases hf
  | accepted _ ht => exact absurd ht hne
  | @resolved term' a' _ hf hr' _ applies =>
    obtain ⟨rfl, rfl⟩ : term' = term ∧ a' = a := by
      have heq := hr'.symm.trans hresolve
      simpa using heq
    obtain ⟨hsettles, skipped, hlog⟩ :=
      h.settles_of_consumes hv hm.layered hf hconsumes hspan applies
    exact ⟨hsettles, fun made q hok => (hok ▸ applies).made_consumed hconsumes,
      term', span, skipped, hlog⟩
  | mismatched _ hr' => exact absurd (hr'.symm.trans hresolve) (by simp)
  | recovered _ hr' => exact absurd (hr'.symm.trans hresolve) (by simp)

/-! ## Points -/

/-- What is mounted and suspended while a task is at hand. -/
def Task.Suits (t : Tables) (p : Parse) : Task → Prop
  | .idle => p.mount = 0
  | .stepping token => token.start < UInt64.size ∧ p.mount = 0
  | .opening token => token.start < UInt64.size ∧ p.mount = 0
  | .driving token entry => token.start < UInt64.size ∧ p.mount = 0 ∧ p.suspended = [entry]
  | .leaving token entry => token.start < UInt64.size ∧ p.mount = 0 ∧ p.suspended = [entry]
  | .mounting token entry => token.start < UInt64.size ∧ Awaits t entry p
  | .feeding token => token.start < UInt64.size ∧ p.mount = 0

/-- The counts of a point are right, and its task suits them. -/
structure Point.Good (t : Tables) (x : Point) : Prop where
  balanced : Balanced t x.parse
  suits : x.task.Suits t x.parse

theorem Settles.suspended_eq (hq : Settles t p q) (h : p.suspended = [entry]) :
    q.suspended = [entry] := by
  have hsuffix := hq.suspended_suffix
  rw [h] at hsuffix
  exact (hsuffix.eq_of_length_le hq.balanced.shallow).symm

/-- A step at a good point settles, and its result suits the task after it. -/
theorem Point.Good.step {task : Task} (h : Point.Good t ⟨task, p⟩) (hv : t.Valid)
    (hm : t.Mountable) (hl : task.lookahead = some token) {r : Result}
    (hr : Parse.step token p = r) :
    Settles t p r.parse ∧ ∀ made q, r = .ok made q → (task.after made).Suits t q := by
  obtain ⟨hbalanced, hsuits⟩ := h
  obtain ⟨hout, -⟩ := hbalanced.sound.step hv hr
  cases task with
  | idle => cases hl
  | opening => cases hl
  | leaving => cases hl
  | stepping token' =>
    cases hl
    have hsettles := hout.settles hbalanced hv hm.layered hsuits.2 hsuits.1
    exact ⟨hsettles, fun made q hok => by subst hok; exact hsettles.mount_eq⟩
  | feeding token' =>
    cases hl
    have hsettles := hout.settles hbalanced hv hm.layered hsuits.2 hsuits.1
    refine ⟨hsettles, fun made q hok => ?_⟩
    subst hok
    show (if settles token made then Task.idle else .feeding token).Suits t q
    split
    · exact hsettles.mount_eq
    · exact ⟨hsuits.1, hsettles.mount_eq⟩
  | driving token' entry =>
    cases hl
    obtain ⟨hstart, hmount, hsuspended⟩ := hsuits
    have hsettles := hout.settles hbalanced hv hm.layered hmount hstart
    refine ⟨hsettles, fun made q hok => ?_⟩
    subst hok
    have hkept := hsettles.suspended_eq hsuspended
    show (if made == .accepted then Task.leaving token' entry else .driving token' entry).Suits t q
    split
    · exact ⟨hstart, hsettles.mount_eq, hkept⟩
    · exact ⟨hstart, hsettles.mount_eq, hkept⟩
  | mounting token' entry =>
    cases hl
    obtain ⟨hsettles, hconsumed, -⟩ := hsuits.2.step hbalanced hv hm hsuits.1 hr
    refine ⟨hsettles, fun made q hok => ?_⟩
    rw [Task.after, if_pos (hconsumed made q hok)]
    subst hok
    exact ⟨hsuits.1, hsettles.mount_eq⟩

/-- Every move leads to a good point again. It settles, or it is the way out of a nested grammar. -/
theorem Point.Good.move {x y : Point} (h : x.Good t) (hv : t.Valid) (hm : t.Mountable)
    (hmove : Move .inRange x y) : y.Good t ∧
      (Settles t x.parse y.parse ∨ ∃ token entry, x.task = .leaving token entry ∧
        x.parse.suspended = [entry] ∧ y.parse.suspended = []) := by
  obtain ⟨hbalanced, hsuits⟩ := h
  cases hmove with
  | callStep hc =>
    exact ⟨⟨hbalanced, Token.start_lt_of_stop? hc, hsuits⟩, .inl (hbalanced.settles hsuits)⟩
  | callAdvance hc =>
    exact ⟨⟨hbalanced, Token.start_lt_of_stop? hc, hsuits⟩, .inl (hbalanced.settles hsuits)⟩
  | close hs =>
    have hone := hbalanced.suspended_eq (List.mem_of_mem_head? (by rw [hs]; rfl))
    exact ⟨⟨hbalanced, hsuits.1, hsuits.2, hone⟩, .inl (hbalanced.settles hsuits.2)⟩
  | feed => exact ⟨⟨hbalanced, hsuits⟩, .inl (hbalanced.settles hsuits.2)⟩
  | made _ hl hstep =>
    obtain ⟨hsettles, hafter⟩ := Point.Good.step ⟨hbalanced, hsuits⟩ hv hm hl hstep
    exact ⟨⟨hsettles.balanced, hafter _ _ rfl⟩, .inl hsettles⟩
  | @left p q token entry hleave =>
    obtain ⟨hstart, hmount, hsuspended⟩ := hsuits
    obtain ⟨hok, hleft, hawaits⟩ := hbalanced.leave hsuspended hmount
    obtain rfl : p.left entry entry.host [] = q := by
      have heq := hok.symm.trans hleave
      simpa using heq
    exact ⟨⟨hleft, hstart, hawaits⟩, .inr ⟨token, entry, rfl, hsuspended, rfl⟩⟩
  | failed _ _ hl hstep =>
    obtain ⟨hsettles, -⟩ := Point.Good.step ⟨hbalanced, hsuits⟩ hv hm hl hstep
    exact ⟨⟨hsettles.balanced, hsettles.mount_eq⟩, .inl hsettles⟩

theorem Visited.good (hv : t.Valid) (hm : t.Mountable) {x : Point} (h : Visited t o .inRange x) :
    x.Good t := by
  induction h with
  | refl => exact ⟨balanced_new hv o, rfl⟩
  | tail _ hmove ih => exact (ih.move hv hm hmove).1

/-! ## The time inside a nested grammar -/

/-- The move from `w` to `y` enters a nested grammar and suspends the host as `s`. -/
structure Enters (u : User) (s : Suspension) (w y : Point) : Prop where
  move : Move u w y
  before : w.parse.suspended = []
  after : y.parse.suspended = [s]

/-- A run during which the host stays suspended as `s`. -/
abbrev Within (u : User) (s : Suspension) : Point → Point → Prop :=
  Relation.ReflTransGen fun x y => Move u x y ∧ y.parse.suspended = [s]

theorem Within.path {u : User} {s : Suspension} {x y : Point} (h : Within u s x y) :
    Path u x y := Relation.ReflTransGen.mono (fun _ _ hmove => hmove.1) _ _ h

theorem Enters.base_eq {s : Suspension} {w y : Point} (h : Enters .inRange s w y) (hv : t.Valid)
    (hm : t.Mountable) (hw : Visited t o .inRange w) : s.base = y.parse.pending.length := by
  obtain ⟨hmove, hbefore, hafter⟩ := h
  have hgood := hw.good hv hm
  rw [← ((hgood.move hv hm hmove).1).balanced.items_eq]
  have hmem : s ∈ y.parse.suspended := by rw [hafter]; exact List.mem_singleton_self s
  have hstep : ∀ {token} {r : Result}, Parse.step token w.parse = r → s ∈ r.parse.suspended →
      s.base = r.parse.items := by
    intro token r hr hs
    rcases (hgood.balanced.sound.step hv hr).1.entersAtMost with hsame | ⟨s', hone, hbase⟩
    · rw [hsame, hbefore] at hs
      cases hs
    · rw [hone, hbefore, List.mem_singleton] at hs
      rw [hs, hbase]
  cases hmove with
  | made _ _ h => exact hstep h hmem
  | failed _ _ _ h => exact hstep h hmem
  | @left p q _ _ h =>
    have hnil : p.suspended = [] := hbefore
    rw [run_leave, hnil] at h
    cases h
    rw [hbefore] at hafter
    cases hafter
  | _ => rw [hbefore] at hafter; cases hafter

theorem Within.pending_suffix {s : Suspension} {y x : Point} (h : Within .inRange s y x)
    (hv : t.Valid) (hm : t.Mountable) (hy : Visited t o .inRange y)
    (hs : y.parse.suspended = [s]) (hbase : s.base = y.parse.pending.length) :
    x.parse.suspended = [s] ∧ y.parse.pending <:+ x.parse.pending := by
  induction h with
  | refl => exact ⟨hs, List.suffix_rfl⟩
  | @tail x z hpath hmove ih =>
    obtain ⟨hsuspended, hsuffix⟩ := ih
    have hgood := Visited.good hv hm (Relation.ReflTransGen.trans hy (Within.path hpath))
    refine ⟨hmove.2, ?_⟩
    rcases (hgood.move hv hm hmove.1).2 with hsettles | ⟨_, _, _, _, hnil⟩
    · have hfloor : x.parse.floor = s.base := by rw [floor, hsuspended]
      exact hsettles.keeps hsuffix (by omega)
    · rw [hmove.2] at hnil
      cases hnil

theorem Visited.exists_entry (hv : t.Valid) (hm : t.Mountable) {x : Point}
    (h : Visited t o .inRange x) {s : Suspension} (hs : s ∈ x.parse.suspended) :
    ∃ w y, Visited t o .inRange w ∧ Enters .inRange s w y ∧ Within .inRange s y x := by
  induction h with
  | refl => cases hs
  | @tail x z hpath hmove ih =>
    have hgood : x.Good t := Visited.good hv hm hpath
    obtain ⟨hgood', hmade⟩ := hgood.move hv hm hmove
    have hz := hgood'.balanced.suspended_eq hs
    cases hx : x.parse.suspended with
    | nil => exact ⟨x, z, hpath, ⟨hmove, hx, hz⟩, .refl⟩
    | cons s' outer =>
      rcases hmade with hsettles | ⟨_, _, _, _, hnil⟩
      · -- the grammar that was suspended before the move is the one behind it
        have hmem : s' ∈ x.parse.suspended := by rw [hx]; exact List.mem_cons_self
        have hkept := hsettles.suspended_eq (hgood.balanced.suspended_eq hmem)
        obtain rfl : s = s' := by simpa [hz] using hkept
        obtain ⟨w, y, hw, henters, hwithin⟩ := ih hmem
        exact ⟨w, y, hw, henters, hwithin.tail ⟨hmove, hz⟩⟩
      · rw [hnil] at hs
        cases hs

/-! ## The main statement -/

/-- A step that comes to `r` mounts the items since `entry`: from the pending nodes of `p` it shifts
a node that adopts, oldest first, all but the oldest `entry.base`, and leaves those. -/
def Mounts (entry : Suspension) (p : Parse) (r : Result) : Prop :=
  ∃ e : ShiftEvent, r.parse.log = .shift e :: p.log ∧
    e.children = p.pending.length - entry.base ∧
    ∃ added kept, p.pending = added ++ kept ∧ kept.length = entry.base ∧
      (p.builder.shiftNode e).children = added.reverse ∧
      r.parse.pending = p.builder.shiftNode e :: kept

theorem mounts_of_log_eq (h : Balanced t p) (hbase : entry.base ≤ p.items) {term : Term}
    {span : Span} {skipped : Bool} {r : Result}
    (hlog : r.parse.log = ((p.left entry entry.host []).consumed term span skipped).log) :
    Mounts entry p r := by
  have hitems : p.items = p.pending.length := h.items_eq
  refine ⟨⟨term, span, p.items - entry.base, skipped⟩, hlog, by rw [← hitems],
    p.pending.take (p.items - entry.base), p.pending.drop (p.items - entry.base),
    (List.take_append_drop _ _).symm, ?_, rfl, ?_⟩
  · rw [List.length_drop]
    omega
  · show (TreeBuilder.ofLog r.parse.log).pending = _
    rw [hlog]
    exact p.builder.pending_add_shift _

/-- A nested grammar can always be left, and then the first step with its placeholder consumes it
and mounts the items since the entry. -/
theorem Visited.leaves (hv : t.Valid) (hm : t.Mountable)
    (h : Visited t o .inRange ⟨.leaving token entry, p⟩) :
    p.suspended = [entry] ∧ ∃ q, leave entry p = .ok () q ∧
      (∀ made x, step (placeholder entry token.start) q = .ok made x → made.consumed = true) ∧
      Mounts entry p (step (placeholder entry token.start) q) := by
  obtain ⟨hbalanced, hstart, hmount, hsuspended⟩ := h.good hv hm
  obtain ⟨hleave, hleft, hawaits⟩ := hbalanced.leave hsuspended hmount
  obtain ⟨-, hconsumed, term, span, skipped, hlog⟩ := hawaits.step hleft hv hm hstart rfl
  have hbase := hbalanced.base_le hsuspended hmount
  exact ⟨hsuspended, _, hleave, hconsumed, mounts_of_log_eq hbalanced hbase hlog⟩

/-- What it comes to when the nested grammar of `entry` is closed, beginning with its drive from `p`
on: the drive fails, or the grammar is left at `x`, and the first step with its placeholder, which
mounts the items since the entry, decides. -/
inductive Closes (fuel : Nat) (token : Token) (entry : Suspension) (p : Parse) :
    EStateM.Result Halt Parse Unit → Prop where
  | stopped {h : Halt} {q : Parse}
    (hd : stepUntil (· == .accepted) (Token.eof token.start) fuel p = .error h q) :
    Closes fuel token entry p (.error h q)
  | failed {x y q : Parse} {h : Halt}
    (path : Path .inRange ⟨.driving token entry, p⟩ ⟨.leaving token entry, x⟩)
    (hl : leave entry x = .ok () y) (hs : step (placeholder entry token.start) y = .error h q)
    (mounts : Mounts entry x (.error h q)) : Closes fuel token entry p (.error h q)
  | closed {x y q : Parse} {made : Step}
    (path : Path .inRange ⟨.driving token entry, p⟩ ⟨.leaving token entry, x⟩)
    (hl : leave entry x = .ok () y) (hs : step (placeholder entry token.start) y = .ok made q)
    (mounts : Mounts entry x (.ok made q)) : Closes fuel token entry p (.ok () q)

theorem Visited.closes (hv : t.Valid) (hm : t.Mountable)
    (hp : Visited t o .inRange ⟨.driving token entry, p⟩) (fuel : Nat) :
    Closes fuel token entry p (closeNest fuel entry token.start p) := by
  have hdrive := follows_drive (u := .inRange) token fuel entry p
  simp only [closeNest, run_bind]
  cases hd : stepUntil (· == .accepted) (Token.eof token.start) fuel p with
  | error h x => exact .stopped hd
  | ok made x =>
    rw [hd] at hdrive
    have hleaving : Path .inRange ⟨.driving token entry, p⟩ ⟨.leaving token entry, x⟩ := hdrive
    obtain ⟨-, y, hleave, hconsumed, hmounts⟩ := Visited.leaves hv hm (hp.trans hleaving)
    cases fuel with
    | zero => cases hd
    | succ fuel =>
      -- the loop for the placeholder ends with its first step, which consumes it
      simp only [hleave, run_stepUntil]
      cases hstep : step (placeholder entry token.start) y with
      | error h q =>
        rw [hstep] at hmounts
        exact .failed hleaving hleave hstep hmounts
      | ok made q =>
        rw [hstep] at hmounts
        simp only [if_pos (hconsumed made q hstep)]
        exact .closed hleaving hleave hstep hmounts

/-- A nested grammar has never fewer items than at its entry, so closing it does not overflow. -/
theorem Visited.closeNest_ne_overflow (hv : t.Valid) (hm : t.Mountable)
    (hp : Visited t o .inRange ⟨.driving token entry, p⟩) (fuel : Nat) (q : Parse) :
    closeNest fuel entry token.start p ≠ .error .overflow q := by
  intro h
  have hfollows := follows_closeNest (u := .inRange) token fuel entry p
  rw [h] at hfollows
  obtain ⟨token', entry', hq, hlacks⟩ := lacksItems_of_halts hv hp hfollows
  obtain ⟨hbalanced, -, hmount, hsuspended⟩ := hq.good hv hm
  exact Nat.not_lt.mpr (hbalanced.base_le hsuspended hmount) hlacks

/-- For orderly host and nested tables whose placeholders are consumed, and a user who makes any
calls with tokens that end within 64 bits, also after errors: the items are counted right between
the calls; whenever a nested grammar runs, the run has entered it, and since then the items that
were pending at the entry have stayed; and a nested grammar can always be left, and the next step
makes its placeholder adopt exactly the items since the entry. So closing it does not overflow, and
after a drive that accepts it comes to that step. -/
theorem isolated_and_mounted (hv : t.Valid) (hm : t.Mountable) (o : Options) :
    (∀ {p}, Reachable t o .inRange p → p.items = p.pending.length) ∧
    (∀ {x s}, Visited t o .inRange x → s ∈ x.parse.suspended →
      ∃ w y, Visited t o .inRange w ∧ Enters .inRange s w y ∧ Within .inRange s y x) ∧
    (∀ {s w y x}, Visited t o .inRange w → Enters .inRange s w y → Within .inRange s y x →
      s.base = y.parse.pending.length ∧ s.base ≤ x.parse.items ∧
        y.parse.pending <:+ x.parse.pending) ∧
    (∀ {token entry p}, Visited t o .inRange ⟨.leaving token entry, p⟩ →
      p.suspended = [entry] ∧ ∃ q, leave entry p = .ok () q ∧
        Mounts entry p (step (placeholder entry token.start) q)) ∧
    ∀ {token entry p}, Visited t o .inRange ⟨.driving token entry, p⟩ → ∀ fuel,
      (∀ q, closeNest fuel entry token.start p ≠ .error .overflow q) ∧
        Closes fuel token entry p (closeNest fuel entry token.start p) := by
  refine ⟨fun h => (h.visited.good hv hm).balanced.items_eq, fun h hs => h.exists_entry hv hm hs,
    fun {s w y x} hw henters hwithin => ?_, fun {token entry p} h => ?_, fun {token entry p} h fuel =>
    ⟨h.closeNest_ne_overflow hv hm fuel, h.closes hv hm fuel⟩⟩
  · have hy : Visited t o .inRange y := hw.tail henters.move
    have hbase := henters.base_eq hv hm hw
    obtain ⟨-, hsuffix⟩ := hwithin.pending_suffix hv hm hy henters.after hbase
    have hx : Visited t o .inRange x := Relation.ReflTransGen.trans hy hwithin.path
    have hitems := (hx.good hv hm).balanced.items_eq
    have hlength := hsuffix.length_le
    exact ⟨hbase, by omega, hsuffix⟩
  · obtain ⟨hsuspended, q, hleave, -, hmounts⟩ := h.leaves hv hm
    exact ⟨hsuspended, q, hleave, hmounts⟩

/-! ## A bracket around words -/

/-- Any words, the term 9. -/
def words : Tables :=
  { start := 0, states := #[2, 0, 0], actions := #[9, 0, 4, 0xffff], gotos := #[0xffff]
    specializations := #[], nested := [], names := [] }

/-- Words between an opening 3 and a closing 5, which the placeholder 7 stands for. -/
def bracket : Tables :=
  { start := 0, states := #[0, 0, 0, 4, 4, 0, 0, 8, 0, 2, 12, 0]
    actions := #[3, 1, 0, 0xffff, 7, 2, 0, 0xffff, 5, 3, 0, 0xffff, 0xffff], gotos := #[0xffff]
    specializations := #[], nested := [⟨"words", words, 5, 7⟩], names := [] }

theorem bracket_valid : bracket.Valid := by
  refine .intro rfl fun g hg => ?_
  obtain rfl : g = ⟨"words", words, 5, 7⟩ := by simpa [bracket] using hg
  exact .intro rfl (by simp [words])

/-- At the closing bracket the placeholder adopts two words, and the opening bracket stays. -/
theorem isolated_and_mounted_bracket :
    bracket.Valid ∧ bracket.Mountable ∧ ∃ token entry p q r,
      Visited bracket {} .inRange ⟨.leaving token entry, p⟩ ∧ entry.base = 1 ∧ p.items = 3 ∧
      leave entry p = .ok () q ∧ Mounts entry p (step (placeholder entry token.start) q) ∧
      closeNest 1 entry token.start p = .ok () r ∧ Closes 1 token entry p (.ok () r) ∧
      r.pending.map (fun n => (n.term, n.children.map Node.term)) = [(7, [9, 9]), (3, [])] := by
  have hm : bracket.Mountable := Tables.mountable_of_isMountable rfl
  have hp : Reachable bracket {} .inRange _ :=
    ((Reachable.new.ok (.advance ⟨3, 0, 1⟩) 2 rfl rfl).ok (.advance ⟨9, 1, 1⟩) 2 rfl rfl).ok
      (.advance ⟨9, 2, 1⟩) 2 rfl rfl
  have hopening : Visited bracket {} .inRange ⟨.opening ⟨5, 3, 1⟩, _⟩ :=
    hp.visited.tail (.callAdvance rfl rfl)
  have hdriving : Visited bracket {} .inRange ⟨.driving ⟨5, 3, 1⟩ _, _⟩ :=
    hopening.tail (.close rfl rfl)
  have hx : Visited bracket {} .inRange ⟨Task.after .accepted _, _⟩ :=
    hdriving.tail (.made _ rfl rfl)
  obtain ⟨-, -, -, hleaving, hclosing⟩ := isolated_and_mounted bracket_valid hm {}
  obtain ⟨-, q, hleave, hmounts⟩ := hleaving hx
  obtain ⟨-, hcloses⟩ := hclosing hdriving 1
  exact ⟨bracket_valid, hm, _, _, _, q, _, hx, rfl, rfl, hleave, hmounts, rfl, hcloses, rfl⟩

end Parse

end LRMachine
