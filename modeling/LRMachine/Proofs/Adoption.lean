import LRMachine.Proofs.MountedItems
import LRMachine.Proofs.SingleGrammar

/-!
# Who adopts mounted items

A nested grammar that is left has its items mounted, and the next token that is consumed adopts
them. That is its placeholder, unless the step with the placeholder fails: then the items are
stranded (`Stranded`), and if the user goes on after the error, the token of a later call adopts
them. `adopts_iff_stranded` says that no other token of a call adopts any. So only placeholders do
where the user stops at errors, and where the tables always consume them; with the tables
`unplaced`, which have no action on a placeholder, a token of a call does.
-/

namespace LRMachine

namespace Parse

variable {t : Tables} {o : Options} {u : User} {token : Token} {entry : Suspension} {p q : Parse}
  {n : Nat} {x y : Point}

/-! ## Steps -/

/-- What a step that comes to `r` does with the mounted items: the token that it consumes adopts
them all, and without one they stay mounted. -/
inductive Takes (p : Parse) (r : Result) : Prop where
  | adopts {e : ShiftEvent} (hshifts : Shifts p r.parse e) (hchildren : e.children = p.mount)
    (hmount : r.parse.mount = 0) (hmade : ∀ made q, r = .ok made q → made.consumed = true)
  | keeps (hkept : ¬ Consumes p r.parse) (hmount : r.parse.mount = p.mount)
    (hmade : ∀ made q, r = .ok made q → made.consumed = false)

theorem Lands.made_of_ok {f : Frame} {start : Nat} {made made' : Step} {r : Result}
    (h : Lands p f start made r) (hok : r = .ok made' q) : made' = made := by
  subst hok
  exact h.made_eq

theorem Applies.takes {term : Term} {a : Action} {r : Result} (h : Applies term token p a r) :
    (∃ e, r.parse.log = .shift e :: p.log ∧ e.children = p.mount ∧ r.parse.mount = 0 ∧
      ∀ made q, r = .ok made q → made.consumed = true) ∨
    Unshifted p r.parse ∧ r.parse.mount = p.mount ∧
      ∀ made q, r = .ok made q → made.consumed = false := by
  cases h with
  | unspanned => exact .inr ⟨.inl rfl, rfl, nofun⟩
  | shift _ _ _ lands =>
    refine .inl ⟨_, lands.log_eq, rfl, lands.mount_eq, fun made q hok => ?_⟩
    rw [lands.made_of_ok hok]
    rfl
  | push _ lands =>
    refine .inr ⟨.inl lands.log_eq, lands.mount_eq, fun made q hok => ?_⟩
    rw [lands.made_of_ok hok]
    rfl
  | skip =>
    refine .inl ⟨_, rfl, rfl, rfl, fun made q hok => ?_⟩
    cases hok
    rfl
  | reduce _ reduces =>
    cases reduces with
    | underflow => exact .inr ⟨.inl rfl, rfl, nofun⟩
    | uncounted => exact .inr ⟨.inl rfl, rfl, nofun⟩
    | missing => exact .inr ⟨.inl rfl, rfl, nofun⟩
    | stays =>
      refine .inr ⟨.inr ⟨_, rfl⟩, rfl, fun made q hok => ?_⟩
      cases hok
      rfl
    | goes _ _ _ _ lands =>
      refine .inr ⟨.inr ⟨_, lands.log_eq⟩, lands.mount_eq, fun made q hok => ?_⟩
      rw [lands.made_of_ok hok]
      rfl

theorem Outcome.takes {r : Result} (h : Outcome token p r) : Takes p r := by
  cases h with
  | finished => exact .keeps (not_consumes_of_log_eq rfl) rfl nofun
  | mismatched => exact .keeps (not_consumes_of_log_eq rfl) rfl nofun
  | accepted =>
    have hmade : ∀ made q, (EStateM.Result.ok .accepted
        (if p.suspended.isEmpty then p.closed else p) : Result) = .ok made q →
          made.consumed = false := by
      intro made q hok
      cases hok
      rfl
    refine .keeps (not_consumes_of_log_eq ?_) ?_ hmade
    · show (if p.suspended.isEmpty then p.closed else p).log = p.log
      split <;> rfl
    · show (if p.suspended.isEmpty then p.closed else p).mount = p.mount
      split <;> rfl
  | resolved _ _ _ applies =>
    rcases applies.takes with ⟨e, hlog, hchildren, hmount, hmade⟩ | ⟨hlog, hmount, hmade⟩
    · exact .adopts (shifts_of_log_eq hlog) hchildren hmount hmade
    · exact .keeps hlog.not_consumes hmount hmade
  | recovered _ _ _ _ _ applies =>
    rcases applies.takes with ⟨e, hlog, hchildren, hmount, hmade⟩ | ⟨hlog, hmount, hmade⟩
    · exact .adopts (shifts_of_log_eq hlog).of_recovered hchildren hmount hmade
    · exact .keeps hlog.not_consumes_of_recovered hmount hmade

/-! ## Moves -/

/-- A move that consumes no token and leaves no nested grammar. -/
structure Keeps (u : User) (x y : Point) : Prop where
  move : Move u x y
  keeps : ¬ Consumes x.parse y.parse
  stays : ∀ token entry, x.task ≠ .leaving token entry

theorem Task.after_eq_mounting {task : Task} {made : Step}
    (h : task.after made = .mounting token entry) :
    task = .mounting token entry ∧ made.consumed = false := by
  cases task with
  | driving token' entry' =>
    change (if made == .accepted then Task.leaving token' entry' else _) = _ at h
    split at h <;> cases h
  | mounting token' entry' =>
    change (if made.consumed then Task.opening token' else _) = _ at h
    split at h
    · cases h
    · rename_i hmade
      cases h
      exact ⟨rfl, Bool.eq_false_iff.mpr hmade⟩
  | feeding token' =>
    change (if settles token' made then Task.idle else _) = _ at h
    split at h <;> cases h
  | _ => cases h

/-- A call comes to a placeholder only from the way out of its grammar. -/
theorem Move.mounting_of (h : Move u x y) (hy : y.task = .mounting token entry)
    (hstays : ∀ token entry, x.task ≠ .leaving token entry) : x.task = .mounting token entry := by
  cases h with
  | made => exact (Task.after_eq_mounting hy).1
  | left => exact absurd rfl (hstays _ _)
  | _ => cases hy

theorem Move.log_eq_of_leaving (h : Move u x y) (htask : x.task = .leaving token entry) :
    y.parse.log = x.parse.log := by
  cases h with
  | left hleave => rcases leave_eq_ok hleave with ⟨-, rfl⟩ | ⟨innermost, outer, -, -, rfl⟩ <;> rfl
  | made _ hl => cases htask; cases hl
  | failed _ _ hl => cases htask; cases hl
  | _ => rfl

theorem Visited.mount_of_left (hv : t.Valid) (hx : Visited t o u x)
    (htask : x.task = .leaving token entry) (h : Move u x y) :
    y.task = .mounting token entry ∧ y.parse.mount = x.parse.items - entry.base := by
  have hholds := hx.holds hv
  cases h with
  | left hleave =>
    cases htask
    rcases leave_eq_ok hleave with ⟨hnone, -⟩ | ⟨innermost, outer, -, -, rfl⟩
    · rw [Task.Holds, hnone] at hholds
      cases hholds
    · exact ⟨rfl, rfl⟩
  | made _ hl => cases htask; cases hl
  | failed _ _ hl => cases htask; cases hl
  | _ => cases htask

/-- Any other move has a consumed token adopt what is mounted, or it keeps it. -/
theorem Visited.takes (hv : t.Valid) (hx : Visited t o u x) (h : Move u x y)
    (hstays : ∀ token entry, x.task ≠ .leaving token entry) :
    (∃ e, Shifts x.parse y.parse e ∧ e.children = x.parse.mount ∧ y.parse.mount = 0 ∧
      ∀ token entry, y.task ≠ .mounting token entry) ∨
    Keeps u x y ∧ y.parse.mount = x.parse.mount ∧
      ∀ token entry, x.task = .mounting token entry → y.task = x.task ∨ y.task = .idle := by
  have hkeeps : ¬ Consumes x.parse y.parse → Keeps u x y := fun hkept => ⟨h, hkept, hstays⟩
  cases h with
  | callStep => exact .inr ⟨hkeeps (not_consumes_of_log_eq rfl), rfl, nofun⟩
  | callAdvance => exact .inr ⟨hkeeps (not_consumes_of_log_eq rfl), rfl, nofun⟩
  | close => exact .inr ⟨hkeeps (not_consumes_of_log_eq rfl), rfl, nofun⟩
  | feed => exact .inr ⟨hkeeps (not_consumes_of_log_eq rfl), rfl, nofun⟩
  | left => exact absurd rfl (hstays _ _)
  | made task hl hr =>
    cases ((Visited.sound hv hx).step hv hr).1.takes with
    | adopts hshifts hchildren hmount hmade =>
      refine .inl ⟨_, hshifts, hchildren, hmount, fun token entry hmounting => ?_⟩
      -- a step that is followed by a placeholder consumed nothing
      obtain ⟨-, hconsumed⟩ := Task.after_eq_mounting hmounting
      rw [hmade _ _ rfl] at hconsumed
      cases hconsumed
    | keeps hkept hmount hmade =>
      refine .inr ⟨hkeeps hkept, hmount, fun token entry hmounting => .inl ?_⟩
      obtain rfl : task = .mounting token entry := hmounting
      show (if _ then _ else _) = _
      rw [hmade _ _ rfl]
      rfl
  | failed task _ hl hr =>
    cases ((Visited.sound hv hx).step hv hr).1.takes with
    | adopts hshifts hchildren hmount => exact .inl ⟨_, hshifts, hchildren, hmount, nofun⟩
    | keeps hkept hmount => exact .inr ⟨hkeeps hkept, hmount, fun _ _ _ => .inr rfl⟩

/-! ## Mounted and stranded items -/

/-- The grammar of `entry` was left with `n` items since its entry, and the call goes on with its
placeholder, which is not consumed yet. -/
inductive Mounted (t : Tables) (o : Options) (u : User) (n : Nat) (token : Token)
    (entry : Suspension) : Point → Prop where
  | left {x y : Point} (hx : Visited t o u x) (htask : x.task = .leaving token entry)
    (hmove : Move u x y) (hitems : n = x.parse.items - entry.base) : Mounted t o u n token entry y
  | kept {x y : Point} (before : Mounted t o u n token entry x) (hkeeps : Keeps u x y)
    (htask : y.task = .mounting token entry) : Mounted t o u n token entry y

/-- A step with the placeholder of a grammar that was left with `n` items failed without consuming
it. No token was consumed since then and no other grammar was left. -/
inductive Stranded (t : Tables) (o : Options) (u : User) (n : Nat) : Point → Prop where
  | failed {token : Token} {entry : Suspension} {x y : Point}
    (before : Mounted t o u n token entry x) (hkeeps : Keeps u x y) (htask : y.task = .idle) :
    Stranded t o u n y
  | kept {x y : Point} (before : Stranded t o u n x) (hkeeps : Keeps u x y) : Stranded t o u n y

theorem Keeps.mount_eq (hv : t.Valid) (hx : Visited t o u x) (h : Keeps u x y) :
    y.parse.mount = x.parse.mount := by
  rcases hx.takes hv h.move h.stays with ⟨e, hshifts, -⟩ | ⟨-, hmount, -⟩
  · exact absurd hshifts.consumes h.keeps
  · exact hmount

theorem Mounted.mount_eq (hv : t.Valid) (h : Mounted t o u n token entry x) :
    Visited t o u x ∧ x.parse.mount = n := by
  induction h with
  | left hx htask hmove hitems =>
    exact ⟨hx.tail hmove, (hx.mount_of_left hv htask hmove).2.trans hitems.symm⟩
  | kept _ hkeeps _ ih =>
    obtain ⟨hx, hmount⟩ := ih
    exact ⟨hx.tail hkeeps.move, (hkeeps.mount_eq hv hx).trans hmount⟩

theorem Mounted.task_eq (hv : t.Valid) (h : Mounted t o u n token entry x) :
    x.task = .mounting token entry := by
  cases h with
  | left hx htask hmove => exact (hx.mount_of_left hv htask hmove).1
  | kept _ _ htask => exact htask

theorem Stranded.mount_eq (hv : t.Valid) (h : Stranded t o u n x) :
    Visited t o u x ∧ x.parse.mount = n := by
  induction h with
  | failed before hkeeps =>
    obtain ⟨hx, hmount⟩ := before.mount_eq hv
    exact ⟨hx.tail hkeeps.move, (hkeeps.mount_eq hv hx).trans hmount⟩
  | kept _ hkeeps ih =>
    obtain ⟨hx, hmount⟩ := ih
    exact ⟨hx.tail hkeeps.move, (hkeeps.mount_eq hv hx).trans hmount⟩

/-- Where `n` mounted items come from: while a call goes on with a placeholder, from the grammar
that was left, and at any other time, if there are any, they are stranded. -/
structure Explains (t : Tables) (o : Options) (u : User) (n : Nat) (x : Point) : Prop where
  mounted : ∀ token entry, x.task = .mounting token entry → Mounted t o u n token entry x
  stranded : (∀ token entry, x.task ≠ .mounting token entry) → n = 0 ∨ Stranded t o u n x

theorem Explains.left (hv : t.Valid) (hx : Visited t o u x) (hmove : Move u x y)
    (htask : x.task = .leaving token entry) : Explains t o u y.parse.mount y := by
  obtain ⟨hmounting, hmount⟩ := hx.mount_of_left hv htask hmove
  refine ⟨fun token' entry' hmounting' => ?_, fun hother => absurd hmounting (hother _ _)⟩
  rw [hmounting] at hmounting'
  cases hmounting'
  exact .left hx htask hmove hmount

theorem Explains.keeps (h : Explains t o u n x) (hkeeps : Keeps u x y)
    (hnext : ∀ token entry, x.task = .mounting token entry → y.task = x.task ∨ y.task = .idle) :
    Explains t o u n y where
  mounted token entry htask :=
    .kept (h.mounted token entry (hkeeps.move.mounting_of htask hkeeps.stays)) hkeeps htask
  stranded hother := by
    by_cases hwas : ∃ token entry, x.task = .mounting token entry
    · obtain ⟨token, entry, htask⟩ := hwas
      rcases hnext token entry htask with hsame | hidle
      · exact absurd (hsame.trans htask) (hother token entry)
      · exact .inr (.failed (h.mounted token entry htask) hkeeps hidle)
    · rcases h.stranded fun token entry htask => hwas ⟨token, entry, htask⟩ with hzero | hstranded
      · exact .inl hzero
      · exact .inr (.kept hstranded hkeeps)

/-- It is known of all mounted items where they come from. -/
theorem Visited.explains (hv : t.Valid) (h : Visited t o u x) :
    Explains t o u x.parse.mount x := by
  induction h with
  | refl => exact ⟨nofun, fun _ => .inl rfl⟩
  | @tail x y hx hmove ih =>
    by_cases hleaving : ∃ token entry, x.task = .leaving token entry
    · obtain ⟨token, entry, htask⟩ := hleaving
      exact .left hv hx hmove htask
    · rcases Visited.takes hv hx hmove fun token entry htask => hleaving ⟨token, entry, htask⟩ with
        ⟨-, -, -, hmount, hother⟩ | ⟨hkeeps, hmount, hnext⟩
      · exact ⟨fun token entry hmounting => absurd hmounting (hother token entry),
          fun _ => .inl hmount⟩
      · exact hmount ▸ ih.keeps hkeeps hnext

/-! ## Adopting tokens -/

theorem Visited.children_eq (hv : t.Valid) (hx : Visited t o u x) (h : Move u x y) {e : ShiftEvent}
    (he : Shifts x.parse y.parse e) : e.children = x.parse.mount := by
  by_cases hleaving : ∃ token entry, x.task = .leaving token entry
  · obtain ⟨token, entry, htask⟩ := hleaving
    exact absurd he.consumes (not_consumes_of_log_eq (h.log_eq_of_leaving htask))
  · rcases hx.takes hv h fun token entry htask => hleaving ⟨token, entry, htask⟩ with
      ⟨e', hshifts, hchildren, -⟩ | ⟨hkeeps, -⟩
    · have hsame := he.2.symm.trans hshifts.2
      cases hsame
      exact hchildren
    · exact absurd he.consumes hkeeps.keeps

/-- A token that is consumed while a call goes on with a placeholder adopts the items since the
entry of the grammar that was left. Any other consumed token adopts the items that are stranded, and
none if there are none. -/
theorem adopts_iff_stranded (hv : t.Valid) (o : Options) (u : User) {x y : Point}
    (hx : Visited t o u x) (hmove : Move u x y) {e : ShiftEvent}
    (he : Shifts x.parse y.parse e) :
    (∀ token entry, x.task = .mounting token entry → Mounted t o u e.children token entry x) ∧
    ((∀ token entry, x.task ≠ .mounting token entry) →
      ∀ n, 0 < n → (e.children = n ↔ Stranded t o u n x)) := by
  obtain ⟨hmounted, hstranded⟩ := hx.explains hv
  rw [hx.children_eq hv hmove he]
  refine ⟨hmounted, fun hother n hn => ⟨fun hmount => ?_, fun h => (h.mount_eq hv).2⟩⟩
  rcases hstranded hother with hzero | hstranded
  · omega
  · rwa [hmount] at hstranded

/-! ## Where only placeholders adopt -/

/-- Every token that adopts items is consumed while a call goes on with a placeholder. -/
def OnlyPlaceholdersAdopt (t : Tables) (o : Options) (u : User) : Prop :=
  ∀ x y e, Visited t o u x → Move u x y → Shifts x.parse y.parse e → 0 < e.children →
    ∃ token entry, x.task = .mounting token entry

/-- Items are stranded only if the user goes on after an error. -/
theorem Stranded.persists (hv : t.Valid) (h : Stranded t o u n x) : u.persists := by
  induction h with
  | @failed _ _ x y before hkeeps htask =>
    have hmounting := before.task_eq hv
    cases hkeeps.move with
    | callStep => cases htask
    | callAdvance => cases htask
    | close => cases htask
    | feed => cases htask
    | left => cases htask
    | failed _ hu => exact hu
    | @made task _ _ _ made =>
      obtain rfl : task = .mounting _ _ := hmounting
      change (if made.consumed then Task.opening _ else .mounting _ _) = .idle at htask
      split at htask <;> cases htask
  | kept _ _ ih => exact ih

/-- Where the user stops at the first error, only placeholders adopt. -/
theorem onlyPlaceholdersAdopt_of_not_persists (hv : t.Valid) (hu : ¬ u.persists) :
    OnlyPlaceholdersAdopt t o u := by
  intro x y e hx hmove he hpos
  by_cases hmounting : ∃ token entry, x.task = .mounting token entry
  · exact hmounting
  · rw [hx.children_eq hv hmove he] at hpos
    rcases (hx.explains hv).stranded fun token entry htask => hmounting ⟨token, entry, htask⟩ with
      hzero | hstranded
    · omega
    · exact absurd (hstranded.persists hv) hu

theorem Task.Suits.mount_eq {task : Task} (h : task.Suits t p)
    (hother : ∀ token entry, task ≠ .mounting token entry) : p.mount = 0 := by
  cases task with
  | idle => exact h
  | stepping => exact h.2
  | opening => exact h.2
  | driving => exact h.2.1
  | leaving => exact h.2.1
  | mounting => exact absurd rfl (hother _ _)
  | feeding => exact h.2

/-- Where the placeholders of the tables are consumed, only they adopt. -/
theorem onlyPlaceholdersAdopt_of_mountable (hv : t.Valid) (hm : t.Mountable) :
    OnlyPlaceholdersAdopt t o .inRange := by
  intro x y e hx hmove he hpos
  by_cases hmounting : ∃ token entry, x.task = .mounting token entry
  · exact hmounting
  · have hmount := (hx.good hv hm).suits.mount_eq fun token entry htask =>
      hmounting ⟨token, entry, htask⟩
    rw [hx.children_eq hv hmove he] at hpos
    omega

/-- A step that comes back is a move of a user who goes on after errors. -/
theorem exists_move_of_returns (task : Task) (hu : u.persists) (hl : task.lookahead = some token)
    (h : Result.returns (step token p) = true) :
    ∃ next, Move u ⟨task, p⟩ ⟨next, Result.parse (step token p)⟩ := by
  cases hr : step token p with
  | ok made q => exact ⟨_, .made task hl hr⟩
  | error halt q =>
    cases halt with
    | error e => exact ⟨_, .failed task hu hl hr⟩
    | overflow | exhausted => simp [hr, Result.returns] at h

/-! ## A placeholder without an action -/

/-- Feeds any tokens and goes on after errors. -/
def User.advancing : User := ⟨fun c => ∃ token, c = .advance token, True⟩

/-- An opening 3 starts a grammar of words; behind it the host has an action on 11, but none on the
placeholder 7. -/
def unplaced : Tables :=
  { start := 0, states := #[0, 0, 0, 4, 4, 0, 2, 8, 0]
    actions := #[3, 1, 0, 0xffff, 11, 2, 0, 0xffff, 0xffff], gotos := #[0xffff]
    specializations := #[], nested := [⟨"words", words, 5, 7⟩], names := [] }

theorem unplaced_valid : unplaced.Valid := by
  refine .intro rfl fun g hg => ?_
  obtain rfl := List.mem_singleton.mp hg
  exact .intro rfl (by simp [words])

/-- An opening 3 and a word. -/
def unplacedCalls : List Call := [.advance ⟨3, 0, 1⟩, .advance ⟨9, 1, 1⟩]

/-- The closing 5 behind them is an error, which found the placeholder. -/
theorem advance_unplaced : ∃ q, advance 2 ⟨5, 2, 1⟩ (runCalls 2 unplacedCalls (new unplaced {})) =
    .error (.error (.unexpected ⟨1, 1, 7, [11]⟩)) q := by
  have hends : (match advance 2 ⟨5, 2, 1⟩ (runCalls 2 unplacedCalls (new unplaced {})) with
      | .error halt _ => decide (halt = .error (.unexpected ⟨1, 1, 7, [11]⟩))
      | .ok _ _ => false) = true := by decide +kernel
  split at hends
  · rename_i halt q hrun
    obtain rfl := of_decide_eq_true hends
    exact ⟨q, hrun⟩
  · cases hends

/-- The parse behind that error. -/
def unplacedParse : Parse := runCalls 2 (unplacedCalls ++ [.advance ⟨5, 2, 1⟩]) (new unplaced {})

theorem exists_move_unplaced : ∃ y,
    Visited unplaced {} .advancing ⟨.feeding ⟨11, 2, 1⟩, unplacedParse⟩ ∧
    Move .advancing ⟨.feeding ⟨11, 2, 1⟩, unplacedParse⟩ y ∧
    Shifts unplacedParse y.parse ⟨11, ⟨2, 3⟩, 1, false⟩ := by
  have hmakes : ∀ c ∈ unplacedCalls ++ [.advance ⟨5, 2, 1⟩], User.advancing.makes c := by
    simp only [unplacedCalls, List.cons_append, List.nil_append, List.forall_mem_cons]
    exact ⟨⟨_, rfl⟩, ⟨_, rfl⟩, ⟨_, rfl⟩, by simp⟩
  have hp : Reachable unplaced {} .advancing unplacedParse :=
    Reachable.new.runCalls trivial hmakes (by decide +kernel)
  have hnone : unplacedParse.suspended = [] := List.isEmpty_iff.mp (by decide +kernel)
  have hopening : Visited unplaced {} .advancing ⟨.opening ⟨11, 2, 1⟩, unplacedParse⟩ :=
    hp.visited.tail (.callAdvance ⟨_, rfl⟩ (by decide +kernel))
  have hshifts : Shifts unplacedParse (Result.parse (step ⟨11, 2, 1⟩ unplacedParse))
      ⟨11, ⟨2, 3⟩, 1, false⟩ := ⟨by decide +kernel, by decide +kernel⟩
  have hreturns : Result.returns (step ⟨11, 2, 1⟩ unplacedParse) = true := by decide +kernel
  obtain ⟨next, hmove⟩ :=
    exists_move_of_returns (u := .advancing) (.feeding ⟨11, 2, 1⟩) trivial rfl hreturns
  exact ⟨_, hopening.tail (.feed (by simp [hnone])), hmove, hshifts⟩

/-- The word is stranded when the 11 comes. -/
theorem adopts_iff_stranded_unplaced :
    unplaced.Valid ∧ ∃ x y, Visited unplaced {} .advancing x ∧ Move .advancing x y ∧
      Shifts x.parse y.parse ⟨11, ⟨2, 3⟩, 1, false⟩ ∧ Stranded unplaced {} .advancing 1 x := by
  obtain ⟨y, hx, hmove, he⟩ := exists_move_unplaced
  obtain ⟨-, hother⟩ := adopts_iff_stranded unplaced_valid {} .advancing hx hmove he
  exact ⟨unplaced_valid, _, y, hx, hmove, he, (hother nofun 1 Nat.one_pos).mp rfl⟩

/-- A user who goes on after the error at the closing 5 has the 11, a token of a call, adopt. -/
theorem not_onlyPlaceholdersAdopt_unplaced :
    unplaced.Valid ∧
      (∃ q, advance 2 ⟨5, 2, 1⟩ (runCalls 2 unplacedCalls (new unplaced {})) =
        .error (.error (.unexpected ⟨1, 1, 7, [11]⟩)) q) ∧
      ¬ OnlyPlaceholdersAdopt unplaced {} .advancing := by
  refine ⟨unplaced_valid, advance_unplaced, fun honly => ?_⟩
  obtain ⟨y, hx, hmove, he⟩ := exists_move_unplaced
  obtain ⟨token, entry, hmounting⟩ := honly _ y _ hx hmove he Nat.one_pos
  cases hmounting

end Parse

end LRMachine
